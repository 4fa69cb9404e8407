import VolumeCodec.Proofs.TileContents
import VolumeCodec.Proofs.TileLayout

namespace VolumeCodec

namespace Axes

/-- A point lies in a box that starts at the origin. -/
def Bounds (e p : Extents) : Prop :=
  p.x < e.x ∧ p.y < e.y ∧ p.z < e.z

/-- The points of such a box, those along x first. -/
def points (e : Extents) : List Extents :=
  (List.range e.z).flatMap fun z => (List.range e.y).flatMap fun y =>
    (List.range e.x).map fun x => ⟨x, y, z⟩

variable {e p q : Extents}

theorem mem_points : p ∈ e.points ↔ e.Bounds p := by
  simp only [points, List.mem_flatMap, List.mem_map, List.mem_range]
  constructor
  · intro h
    obtain ⟨z, hz, y, hy, x, hx, rfl⟩ := h
    exact ⟨hx, hy, hz⟩
  · intro h
    exact ⟨p.z, h.2.2, p.y, h.2.1, p.x, h.1, rfl⟩

theorem map_index_points (e : Extents) : e.points.map e.index = List.range e.volume := by
  have hgrid := grid_range e e.y e.z rfl
  unfold points
  rw [← Axes.volume] at hgrid
  rw [← hgrid, grid, List.map_flatMap]
  refine List.flatMap_congr fun z _ => ?_
  rw [List.map_flatMap]
  exact List.flatMap_congr fun y _ => List.map_map

/-- The index of a point is its place among the points. -/
theorem getElem?_points (h : e.Bounds p) : e.points[e.index p]? = some p := by
  obtain ⟨i, hi⟩ := List.mem_iff_getElem?.mp (mem_points.mpr h)
  have hplace : (e.points.map e.index)[i]? = (List.range e.volume)[i]? := by
    rw [map_index_points]
  rw [List.getElem?_map, hi, Option.map_some] at hplace
  have hindex := (List.getElem?_eq_some_iff.mp hplace.symm).2
  rw [List.getElem_range] at hindex
  rw [← hindex, hi]

theorem index_inj (hp : e.Bounds p) (hq : e.Bounds q) (h : e.index p = e.index q) : p = q := by
  have hsame := getElem?_points hp
  rw [h, getElem?_points hq] at hsame
  exact (Option.some.inj hsame).symm

end Axes

namespace Tile

variable {α : Type} {t : Tile} {dims p q : Extents} {data values : Array α}

/-- The point of the volume that is a point of the tile. -/
def pointAt (t : Tile) (p : Extents) : Extents :=
  t.start.zipWith (· + ·) p

theorem places_eq_points (t : Tile) (dims : Extents) :
    t.places dims = t.extent.points.map fun p => dims.index (t.pointAt p) := by
  unfold places grid Axes.points
  simp only [List.range'_eq_map_range, List.map_flatMap, List.flatMap_map, List.map_map]
  rfl

theorem contains_pointAt (h : t.extent.Bounds p) : t.Contains (t.pointAt p) := by
  obtain ⟨hx, hy, hz⟩ := h
  exact ⟨⟨Nat.le_add_right _ _, Nat.add_lt_add_left hx _⟩,
    ⟨Nat.le_add_right _ _, Nat.add_lt_add_left hy _⟩,
    ⟨Nat.le_add_right _ _, Nat.add_lt_add_left hz _⟩⟩

theorem IsInside.bounds (h : t.IsInside dims) (hp : t.Contains p) : dims.Bounds p :=
  ⟨Nat.lt_of_lt_of_le hp.1.2 h.x.2, Nat.lt_of_lt_of_le hp.2.1.2 h.y.2,
    Nat.lt_of_lt_of_le hp.2.2.2 h.z.2⟩

/-- The places of a tile are those of the points in it. -/
theorem IsInside.contains_of_mem (h : t.IsInside dims) (hq : dims.Bounds q)
    (hmem : dims.index q ∈ t.places dims) : t.Contains q := by
  rw [places_eq_points] at hmem
  obtain ⟨p, hp, hindex⟩ := List.mem_map.mp hmem
  have hcontains := contains_pointAt (Axes.mem_points.mp hp)
  rwa [Axes.index_inj (h.bounds hcontains) hq hindex] at hcontains

/-- Values are the elements of a tile, those along x first. -/
structure AreElements (t : Tile) (dims : Extents) (data values : Array α) : Prop where
  size : values.size = t.extent.volume
  element : ∀ p, t.extent.Bounds p →
    values[t.extent.index p]? = data[dims.index (t.pointAt p)]?

theorem IsInside.areElements (h : t.IsInside dims) (hd : data.size = dims.volume)
    (hg : t.gather? dims data = some values) : t.AreElements dims data values where
  size := h.size_of_gather hd hg
  element p hp := by
    have hplace : (t.places dims)[t.extent.index p]? = some (dims.index (t.pointAt p)) := by
      rw [places_eq_points, List.getElem?_map, Axes.getElem?_points hp, Option.map_some]
    have hvalue : (values.toList.map some)[t.extent.index p]? =
        ((t.places dims).map (data[·]?))[t.extent.index p]? := by
      rw [(h.gather_eq_some_iff hd).mp hg]
    rw [List.getElem?_map, List.getElem?_map, hplace, Option.map_some, Array.getElem?_toList]
      at hvalue
    obtain ⟨v, hv, hdata⟩ := Option.map_eq_some_iff.mp hvalue
    exact hv.trans hdata

/-- Tiles whose elements have been copied from some data agree with it, and so does all that agreed
with it before. -/
theorem foldlM_scatter_gather {order : List Tile} (h : ∀ t ∈ order, t.IsInside dims)
    (hnodup : ∀ t ∈ order, (t.places dims).Nodup) (hd : data.size = dims.volume)
    {initial : Array α} (hi : initial.size = dims.volume) :
    ∃ out, order.foldlM (fun out t => do t.scatter? dims out (← t.gather? dims data)) initial =
        some out ∧ out.size = dims.volume ∧
      ∀ i, (initial[i]? = data[i]? ∨ ∃ t ∈ order, i ∈ t.places dims) → out[i]? = data[i]? := by
  induction order generalizing initial with
  | nil => exact ⟨initial, rfl, hi, fun i hagree => hagree.resolve_right nofun⟩
  | cons t rest ih =>
    have hin := h t List.mem_cons_self
    obtain ⟨part, hpart, -⟩ := hin.gather hd
    obtain ⟨next, hnext, hsize, hgather, hothers⟩ := hin.scatter_spec
      (hnodup t List.mem_cons_self) hi (hin.size_of_gather hd hpart)
    have hwritten := (hin.gather_congr_iff hsize hd).mp (hgather.trans hpart.symm)
    obtain ⟨out, hout, houtsize, hagree⟩ := ih (fun t ht => h t (List.mem_cons_of_mem _ ht))
      (fun t ht => hnodup t (List.mem_cons_of_mem _ ht)) hsize
    refine ⟨out, ?_, houtsize, fun i hi => hagree i ?_⟩
    · rw [List.foldlM_cons, hpart]
      show (t.scatter? dims initial part >>= _) = _
      rw [hnext]
      exact hout
    · by_cases hplace : i ∈ t.places dims
      · exact .inl (hwritten i hplace)
      · rcases hi with hi | ⟨t', ht', hi⟩
        · exact .inl ((hothers i hplace).trans hi)
        · rcases List.mem_cons.mp ht' with rfl | ht'
          · exact absurd hi hplace
          · exact .inr ⟨t', ht', hi⟩

end Tile

/-- The elements of a volume can be taken apart by tiles and put together again. No row of a tile
leaves the data. Gathering a tile gives its elements, those along x first. Scattering values of the
right number over a tile replaces its elements and no others, so that they can be gathered again,
and what is gathered of other tiles stays the same. And scattering all that was gathered, in any
order of the tiles and over whatever was there before, gives the data again. -/
theorem tiles_reassemble {α : Type} {dims nominal : Extents} {data : Array α}
    (hd : dims.validate = .ok ()) (hn : nominal.isFlat = false) (hs : data.size = dims.volume) :
    ∃ ts, tiles dims nominal = .ok ts ∧
      (∀ t ∈ ts,
        (∀ start ∈ t.rowStarts dims, start + t.extent.x ≤ data.size) ∧
        (∃ part, t.gather? dims data = some part ∧ t.AreElements dims data part) ∧
        ∀ values : Array α, values.size = t.extent.volume →
          ∃ out, t.scatter? dims data values = some out ∧ out.size = data.size ∧
            t.gather? dims out = some values ∧
            (∀ q, dims.Bounds q → ¬t.Contains q →
              out[dims.index q]? = data[dims.index q]?) ∧
            ∀ t' ∈ ts, t' ≠ t → t'.gather? dims out = t'.gather? dims data) ∧
      ∀ initial : Array α, initial.size = dims.volume → ∀ order : List Tile, order.Perm ts →
        order.foldlM (fun out t => do t.scatter? dims out (← t.gather? dims data)) initial =
          some data := by
  obtain ⟨ts, h⟩ := exists_tiles hd hn
  obtain ⟨hnodup, -⟩ := nodup_places_tiles h
  have hinside := fun t (ht : t ∈ ts) => isInside_of_mem_tiles h ht
  refine ⟨ts, h, fun t ht => ⟨fun start hstart => ?_, ?_, fun values hv => ?_⟩,
    fun initial hinitial order hperm => ?_⟩
  · exact ((hinside t ht).row_le hstart).trans (Nat.le_of_eq hs.symm)
  · obtain ⟨part, hpart, -⟩ := (hinside t ht).gather hs
    exact ⟨part, hpart, (hinside t ht).areElements hs hpart⟩
  · obtain ⟨out, hout, hsize, hgather, hothers⟩ :=
      (hinside t ht).scatter_spec (hnodup t ht) hs hv
    refine ⟨out, hout, hsize.trans hs.symm, hgather, fun q hq hnot => ?_, fun t' ht' hne => ?_⟩
    · exact hothers _ fun hmem => hnot ((hinside t ht).contains_of_mem hq hmem)
    · refine ((hinside t' ht').gather_congr_iff hsize hs).mpr fun i hi => hothers i fun hi' => ?_
      exact hne (tile_unique h ht' ht hi hi')
  · obtain ⟨out, hout, hsize, hagree⟩ := Tile.foldlM_scatter_gather
      (fun t ht => hinside t (hperm.mem_iff.mp ht)) (fun t ht => hnodup t (hperm.mem_iff.mp ht))
      hs hinitial
    rw [hout]
    refine congrArg some (Array.ext_getElem? fun i => ?_)
    by_cases hi : i < dims.volume
    · obtain ⟨t, ht, hplace⟩ := exists_tile_of_lt h hi
      exact hagree i (.inr ⟨t, hperm.mem_iff.mpr ht, hplace⟩)
    · rw [Array.getElem?_eq_none (by omega), Array.getElem?_eq_none (by omega)]

/-- Two tiles that stretch over what is left of an axis, the second one first. -/
theorem tiles_reassemble_reversed :
    let dims : Extents := ⟨6, 4, 3⟩
    ∃ ts, tiles dims ⟨3, 3, 2⟩ = .ok ts ∧ ts.map (·.extent) = [⟨3, 4, 3⟩, ⟨3, 4, 3⟩] ∧
      ts.reverse.foldlM (fun out t => do
        t.scatter? dims out (← t.gather? dims (Array.range 72))) (Array.replicate 72 0) =
          some (Array.range 72) := by
  intro dims
  have hd : dims.validate = .ok () := rfl
  have hs : (Array.range 72).size = dims.volume := Array.size_range
  have hn : (⟨3, 3, 2⟩ : Extents).isFlat = false := rfl
  obtain ⟨ts, h, -, hall⟩ := tiles_reassemble hd hn hs
  refine ⟨ts, h, ?_, hall _ Array.size_replicate _ ts.reverse_perm⟩
  obtain ⟨-, rfl⟩ := checkTiling_of_tiles h
  decide

end VolumeCodec
