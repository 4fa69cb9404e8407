import Mathlib.Data.List.Nodup
import Mathlib.Data.List.Pairwise
import VolumeCodec.Proofs.Geometry
import VolumeCodec.Proofs.TileSpans

namespace VolumeCodec

/-- A tile that is not empty and does not leave a volume. -/
structure Tile.IsInside (t : Tile) (volume : Extents) : Prop where
  x : 0 < t.extent.x ∧ t.start.x + t.extent.x ≤ volume.x
  y : 0 < t.extent.y ∧ t.start.y + t.extent.y ≤ volume.y
  z : 0 < t.extent.z ∧ t.start.z + t.extent.z ≤ volume.z

theorem isInside_of_mem_tiles {dims nominal : Extents} {ts : List Tile}
    (h : tiles dims nominal = .ok ts) {t : Tile} (ht : t ∈ ts) : t.IsInside dims := by
  obtain ⟨hc, -⟩ := checkTiling_of_tiles h
  obtain ⟨hx, hy, hz⟩ := pos_of_validate (validate_of_checkTiling hc)
  obtain ⟨hnx, hny, hnz⟩ := isFlat_eq_false_iff.mp (not_isFlat_of_checkTiling hc)
  obtain ⟨hmx, hmy, hmz⟩ := (mem_tiles_iff h).mp ht
  exact ⟨inside_of_mem_spans hx hnx hmx, inside_of_mem_spans hy hny hmy,
    inside_of_mem_spans hz hnz hmz⟩

/-- The places of the elements of a tile in a volume, row after row. -/
def Tile.places (t : Tile) (volume : Extents) : List Nat :=
  grid volume (List.range' t.start.x t.extent.x) (List.range' t.start.y t.extent.y)
    (List.range' t.start.z t.extent.z)

namespace Tile

variable {t : Tile} {dims : Extents}

theorem places_eq_rows (t : Tile) (dims : Extents) :
    t.places dims = (t.rowStarts dims).flatMap fun start => List.range' start t.extent.x := by
  unfold places rowStarts grid
  rw [List.flatMap_assoc]
  apply List.flatMap_congr
  intro z _
  rw [List.flatMap_map]
  exact List.flatMap_congr fun y _ => (range'_index dims _ y z _).symm

theorem length_places (t : Tile) (dims : Extents) : (t.places dims).length = t.extent.volume := by
  rw [places, length_grid]
  simp [Axes.volume]

theorem length_rowStarts (t : Tile) (dims : Extents) :
    (t.rowStarts dims).length = t.extent.y * t.extent.z := by
  simp only [rowStarts, List.length_flatMap, List.length_map, List.length_range', List.map_const',
    List.sum_replicate_nat]
  exact Nat.mul_comm _ _

namespace IsInside

/-- A row of a tile ends within the volume. -/
theorem row_le (h : t.IsInside dims) {start : Nat} (hs : start ∈ t.rowStarts dims) :
    start + t.extent.x ≤ dims.volume := by
  unfold rowStarts at hs
  obtain ⟨z, hz, hs⟩ := List.mem_flatMap.mp hs
  obtain ⟨y, hy, rfl⟩ := List.mem_map.mp hs
  rw [List.mem_range'_1] at hz hy
  have hx := h.x.2
  have hplane : z * dims.y + y + 1 ≤ dims.z * dims.y := by
    have hmul := Nat.mul_le_mul_right dims.y (show z + 1 ≤ dims.z by have := h.z.2; omega)
    rw [Nat.succ_mul] at hmul
    have := h.y.2
    omega
  have hrow := Nat.mul_le_mul_right dims.x hplane
  rw [Nat.succ_mul] at hrow
  have hvolume : dims.z * dims.y * dims.x = dims.volume := by
    rw [Axes.volume, Nat.mul_comm dims.z, Nat.mul_comm, Nat.mul_assoc]
  rw [Axes.index]
  dsimp only
  omega

theorem place_lt (h : t.IsInside dims) {i : Nat} (hi : i ∈ t.places dims) : i < dims.volume := by
  rw [places_eq_rows] at hi
  obtain ⟨start, hs, hi⟩ := List.mem_flatMap.mp hi
  have hrow := h.row_le hs
  have hlt := (List.mem_range'_1.mp hi).2
  omega

theorem volume_le (h : t.IsInside dims) : t.extent.volume ≤ dims.volume :=
  Nat.mul_le_mul (Nat.mul_le_mul (Nat.le_of_add_left_le h.x.2) (Nat.le_of_add_left_le h.y.2))
    (Nat.le_of_add_left_le h.z.2)

theorem validate (h : t.IsInside dims) (hd : dims.validate = .ok ()) :
    t.extent.validate = .ok () :=
  validate_eq_ok_iff.mpr ⟨isFlat_eq_false_iff.mpr ⟨h.x.1, h.y.1, h.z.1⟩,
    Nat.lt_of_le_of_lt h.volume_le (validate_eq_ok_iff.mp hd).2⟩

end IsInside

end Tile

/-- The spans of an axis follow one another from its beginning to its end. -/
theorem flatMap_spans {length nominal : Nat} (hl : 0 < length) :
    ((spans length nominal).flatMap fun s => List.range' s.1 s.2) = List.range length := by
  have hwhole : ∀ n, ((List.range n).flatMap fun i => List.range' (i * nominal) nominal) =
      List.range' 0 (n * nominal) := by
    intro n
    induction n with
    | zero => simp
    | succ n ih =>
      rw [List.range_succ, List.flatMap_append, ih, List.flatMap_singleton, Nat.succ_mul,
        ← List.range'_append_1, Nat.zero_add]
  obtain ⟨last, hcount⟩ := Nat.exists_eq_add_of_lt (spanCount_pos length nominal)
  rw [Nat.zero_add] at hcount
  have hlast : last * nominal < length := mul_lt_of_lt_spanCount hl (by omega)
  -- All spans before the last one have the nominal length.
  have hbefore : ((List.range last).flatMap fun i => List.range' (i * nominal)
      (if i + 1 = last + 1 then length - i * nominal else nominal)) =
        (List.range last).flatMap fun i => List.range' (i * nominal) nominal := by
    apply List.flatMap_congr
    intro i hi
    rw [List.mem_range] at hi
    rw [if_neg (by omega)]
  unfold spans
  rw [hcount, List.flatMap_map, List.range_succ, List.flatMap_append, hbefore, hwhole,
    List.flatMap_singleton, if_pos rfl, List.range_eq_range']
  have hjoin := List.range'_append_1 (s := 0) (m := last * nominal) (n := length - last * nominal)
  rw [Nat.zero_add, Nat.add_sub_of_le (Nat.le_of_lt hlast)] at hjoin
  exact hjoin

section Grid

variable {α : Type} (dims : Extents) (f : α → List Nat) (l : List α)

theorem flatMap_grid_x (ys zs : List Nat) :
    (l.flatMap fun a => grid dims (f a) ys zs).Perm (grid dims (l.flatMap f) ys zs) := by
  induction l with
  | nil => simp [grid]
  | cons a rest ih =>
    rw [List.flatMap_cons, List.flatMap_cons]
    exact (ih.append_left _).trans (grid_append_x dims _ _ ys zs).symm

theorem flatMap_grid_y (xs zs : List Nat) :
    (l.flatMap fun a => grid dims xs (f a) zs).Perm (grid dims xs (l.flatMap f) zs) := by
  induction l with
  | nil => simp [grid]
  | cons a rest ih =>
    rw [List.flatMap_cons, List.flatMap_cons]
    exact (ih.append_left _).trans (grid_append_y dims xs _ _ zs).symm

theorem flatMap_grid_z (xs ys : List Nat) :
    (l.flatMap fun a => grid dims xs ys (f a)) = grid dims xs ys (l.flatMap f) :=
  List.flatMap_assoc.symm

end Grid

section Cover

variable {dims nominal : Extents} {ts : List Tile}

/-- The tiles of a volume hold each of its elements once. -/
theorem places_tiles (h : tiles dims nominal = .ok ts) :
    (ts.flatMap fun t => t.places dims).Perm (List.range dims.volume) := by
  obtain ⟨hc, rfl⟩ := checkTiling_of_tiles h
  obtain ⟨hx, hy, hz⟩ := pos_of_validate (validate_of_checkTiling hc)
  -- The spans of each axis join up, and with them the grids of the tiles.
  let xs := spans dims.x nominal.x
  let ys := spans dims.y nominal.y
  let span (s : Nat × Nat) : List Nat := List.range' s.1 s.2
  have hgrid : grid dims (xs.flatMap span) (ys.flatMap span)
      ((spans dims.z nominal.z).flatMap span) = List.range dims.volume := by
    simp only [xs, ys, span, flatMap_spans hx, flatMap_spans hy, flatMap_spans hz]
    exact grid_range dims dims.y dims.z rfl
  rw [List.flatMap_assoc, ← hgrid, ← flatMap_grid_z]
  refine List.Perm.flatMap_left _ fun z _ => ?_
  rw [List.flatMap_assoc]
  refine .trans ?_ (flatMap_grid_y dims span ys (xs.flatMap span) (span z))
  refine List.Perm.flatMap_left _ fun y _ => ?_
  rw [List.flatMap_map]
  exact flatMap_grid_x dims span xs (span y) (span z)

theorem nodup_places_tiles (h : tiles dims nominal = .ok ts) :
    (∀ t ∈ ts, (t.places dims).Nodup) ∧
      ts.Pairwise fun t t' => ∀ i ∈ t.places dims, i ∉ t'.places dims := by
  have hnodup := (places_tiles h).nodup_iff.mpr List.nodup_range
  obtain ⟨heach, hpairs⟩ := List.nodup_flatMap.mp hnodup
  exact ⟨heach, hpairs.imp fun hd i hi hi' => hd hi hi'⟩

theorem exists_tile_of_lt (h : tiles dims nominal = .ok ts) {i : Nat} (hi : i < dims.volume) :
    ∃ t ∈ ts, i ∈ t.places dims :=
  List.mem_flatMap.mp ((places_tiles h).mem_iff.mpr (List.mem_range.mpr hi))

/-- An element belongs to one tile only. -/
theorem tile_unique (h : tiles dims nominal = .ok ts) {t t' : Tile} (ht : t ∈ ts) (ht' : t' ∈ ts)
    {i : Nat} (hi : i ∈ t.places dims) (hi' : i ∈ t'.places dims) : t = t' := by
  obtain ⟨-, hpairs⟩ := nodup_places_tiles h
  have : Std.Symm fun t t' : Tile => ∀ i ∈ t.places dims, i ∉ t'.places dims :=
    ⟨fun _ _ hd i hi hi' => hd i hi' hi⟩
  by_contra hne
  exact hpairs.forall ht ht' hne i hi hi'

end Cover

end VolumeCodec
