import VolumeCodec.Proofs.TileCover

namespace VolumeCodec

variable {α : Type}

/-- Writes some values, each at its place, one after the other. -/
def writeAll (data : Array α) (writes : List (Nat × α)) : Array α :=
  writes.foldl (fun data w => data.setIfInBounds w.1 w.2) data

section Writes

variable {data : Array α} {writes : List (Nat × α)}

theorem writeAll_cons (data : Array α) (w : Nat × α) (writes : List (Nat × α)) :
    writeAll data (w :: writes) = writeAll (data.setIfInBounds w.1 w.2) writes := rfl

theorem writeAll_append (data : Array α) (writes more : List (Nat × α)) :
    writeAll data (writes ++ more) = writeAll (writeAll data writes) more :=
  List.foldl_append

@[simp] theorem size_writeAll (data : Array α) (writes : List (Nat × α)) :
    (writeAll data writes).size = data.size := by
  induction writes generalizing data with
  | nil => rfl
  | cons w rest ih => rw [writeAll_cons, ih, Array.size_setIfInBounds]

theorem getElem?_writeAll_of_not_mem {i : Nat} (h : i ∉ writes.map (·.1)) :
    (writeAll data writes)[i]? = data[i]? := by
  induction writes generalizing data with
  | nil => rfl
  | cons w rest ih =>
    rw [List.map_cons, List.mem_cons, not_or] at h
    obtain ⟨hne, hrest⟩ := h
    rw [writeAll_cons, ih hrest, Array.getElem?_setIfInBounds_ne (Ne.symm hne)]

/-- Where no two values are written to one place, all of them can be read there. -/
theorem getElem?_writeAll (hnodup : (writes.map (·.1)).Nodup) {w : Nat × α} (hw : w ∈ writes)
    (hlt : w.1 < data.size) : (writeAll data writes)[w.1]? = some w.2 := by
  induction writes generalizing data with
  | nil => cases hw
  | cons first rest ih =>
    obtain ⟨hfirst, hrest⟩ := List.nodup_cons.mp hnodup
    rw [writeAll_cons]
    rcases List.mem_cons.mp hw with rfl | hw
    · rw [getElem?_writeAll_of_not_mem hfirst, Array.getElem?_setIfInBounds_self_of_lt hlt]
    · exact ih hrest hw (by rwa [Array.size_setIfInBounds])

end Writes

namespace Tile

variable {t : Tile} {dims : Extents} {data data' values : Array α}

theorem overwrite_eq (data : Array α) (start : Nat) (row : Array α) :
    overwrite data start row =
      writeAll data ((List.range' start row.size).zip row.toList) := by
  have hfold : ∀ (l : List α) (k : Nat) (data : Array α),
      (l.zipIdx k).foldl (fun data p => data.setIfInBounds (start + p.2) p.1) data =
        writeAll data ((List.range' (start + k) l.length).zip l) := by
    intro l
    induction l with
    | nil => exact fun _ _ => rfl
    | cons a rest ih =>
      intro k data
      rw [List.zipIdx_cons, List.foldl_cons, ih, List.length_cons, List.range'_succ,
        List.zip_cons_cons, writeAll_cons]
      rfl
  exact hfold row.toList 0 data

section Rows

variable {n : Nat}

theorem rowsOf_spec (n : Nat) (values : Array α) :
    (rowsOf n values).length = values.size / n ∧ (∀ row ∈ rowsOf n values, row.size = n) ∧
      (rowsOf n values).flatMap Array.toList = values.toList.take (values.size / n * n) := by
  have hend : ∀ k < values.size / n, k * n + n ≤ values.size := by
    intro k hk
    have hmul := Nat.mul_le_mul_right n hk
    rw [Nat.succ_mul] at hmul
    exact hmul.trans (Nat.div_mul_le_self _ _)
  have htake : ∀ count ≤ values.size / n,
      ((List.range count).flatMap fun k => (values.extract (k * n) (k * n + n)).toList) =
        values.toList.take (count * n) := by
    intro count hcount
    induction count with
    | zero => simp
    | succ count ih =>
      rw [List.range_succ, List.flatMap_append, ih (by omega), List.flatMap_singleton,
        Array.toList_extract, Nat.succ_mul, List.take_add, List.extract_eq_take_drop,
        Nat.add_sub_cancel_left]
  refine ⟨by rw [rowsOf, List.length_map, List.length_range], fun row hrow => ?_, ?_⟩
  · obtain ⟨k, hk, rfl⟩ := List.mem_map.mp hrow
    have hle := hend k (List.mem_range.mp hk)
    rw [Array.size_extract]
    omega
  · rw [rowsOf, List.flatMap_map]
    exact htake _ (Nat.le_refl _)

theorem flatMap_zip_rows {starts : List Nat} {rows : List (Array α)}
    (hlen : starts.length = rows.length) (hrows : ∀ row ∈ rows, row.size = n) :
    ((starts.zip rows).flatMap fun p => (List.range' p.1 n).zip p.2.toList) =
      (starts.flatMap fun start => List.range' start n).zip (rows.flatMap Array.toList) := by
  induction starts generalizing rows with
  | nil => rfl
  | cons start starts ih =>
    cases rows with
    | nil => cases hlen
    | cons row rows =>
      have hrow : (List.range' start n).length = row.toList.length := by
        rw [List.length_range', Array.length_toList, hrows row List.mem_cons_self]
      rw [List.zip_cons_cons, List.flatMap_cons, List.flatMap_cons, List.flatMap_cons,
        List.zip_append hrow, ih (Nat.succ.inj hlen) fun r hr => hrows r (List.mem_cons_of_mem _ hr)]

theorem foldlM_overwrite (n : Nat) (data : Array α) (rows : List (Nat × Array α))
    (h : ∀ p ∈ rows, p.1 + n ≤ data.size ∧ p.2.size = n) :
    rows.foldlM (fun data p =>
        if p.1 + n ≤ data.size then some (overwrite data p.1 p.2) else none) data =
      some (writeAll data (rows.flatMap fun p => (List.range' p.1 n).zip p.2.toList)) := by
  induction rows generalizing data with
  | nil => rfl
  | cons p rest ih =>
    obtain ⟨hp, hsize⟩ := h p List.mem_cons_self
    rw [List.foldlM_cons, if_pos hp, overwrite_eq, hsize, List.flatMap_cons, writeAll_append]
    exact ih _ fun r hr => by
      rw [size_writeAll]
      exact h r (List.mem_cons_of_mem p hr)

theorem foldlM_extract (n : Nat) (data : Array α) {starts : List Nat}
    (h : ∀ start ∈ starts, start + n ≤ data.size) (out : Array α) :
    ∃ more, starts.foldlM (fun out start =>
        if start + n ≤ data.size then some (out ++ data.extract start (start + n)) else none) out =
          some (out ++ more) ∧
      more.toList.map some = (starts.flatMap fun start => List.range' start n).map (data[·]?) := by
  induction starts generalizing out with
  | nil => exact ⟨#[], by rw [Array.append_empty]; rfl, rfl⟩
  | cons start rest ih =>
    have hstart := h start List.mem_cons_self
    have hrow : (data.extract start (start + n)).toList.map some =
        (List.range' start n).map (data[·]?) := by
      apply List.ext_getElem?
      intro i
      rw [List.getElem?_map, List.getElem?_map, Array.getElem?_toList, Array.getElem?_extract]
      by_cases hi : i < n
      · have hlt : start + i < data.size := by omega
        rw [if_pos (by omega), List.getElem?_range' hi, Nat.one_mul, Option.map_some,
          Array.getElem?_eq_getElem hlt, Option.map_some]
      · rw [if_neg (by omega), List.getElem?_eq_none (by rw [List.length_range']; omega)]
        rfl
    obtain ⟨more, hmore, hvalues⟩ := ih (fun s hs => h s (List.mem_cons_of_mem start hs))
      (out ++ data.extract start (start + n))
    refine ⟨data.extract start (start + n) ++ more, ?_, ?_⟩
    · rw [List.foldlM_cons, if_pos hstart, ← Array.append_assoc]
      exact hmore
    · rw [Array.toList_append, List.map_append, hrow, hvalues, List.flatMap_cons, List.map_append]

end Rows

namespace IsInside

/-- What is gathered from a tile are the elements at its places, in their order. -/
theorem gather (h : t.IsInside dims) (hd : data.size = dims.volume) :
    ∃ out, t.gather? dims data = some out ∧
      out.toList.map some = (t.places dims).map (data[·]?) := by
  obtain ⟨out, hout, hvalues⟩ := foldlM_extract t.extent.x data
    (fun start hs => (h.row_le hs).trans (Nat.le_of_eq hd.symm)) #[]
  rw [Array.empty_append] at hout
  exact ⟨out, hout, by rw [hvalues, places_eq_rows]⟩

theorem gather_eq_some_iff (h : t.IsInside dims) (hd : data.size = dims.volume) :
    t.gather? dims data = some values ↔
      values.toList.map some = (t.places dims).map (data[·]?) := by
  obtain ⟨out, hout, hvalues⟩ := h.gather hd
  rw [hout, ← hvalues]
  constructor
  · intro heq
    rw [Option.some.inj heq]
  · intro heq
    have hlist := List.map_injective_iff.mpr (Option.some_injective α) heq
    rw [Array.toList_inj.mp hlist]

theorem size_of_gather (h : t.IsInside dims) (hd : data.size = dims.volume)
    (hg : t.gather? dims data = some values) : values.size = t.extent.volume := by
  have hlength := congrArg List.length ((h.gather_eq_some_iff hd).mp hg)
  rwa [List.length_map, List.length_map, length_places, Array.length_toList] at hlength

theorem gather_congr_iff (h : t.IsInside dims) (hd : data.size = dims.volume)
    (hd' : data'.size = dims.volume) :
    t.gather? dims data = t.gather? dims data' ↔ ∀ i ∈ t.places dims, data[i]? = data'[i]? := by
  obtain ⟨out, hout, hvalues⟩ := h.gather hd'
  rw [hout, h.gather_eq_some_iff hd, hvalues, List.map_inj_left]
  exact ⟨fun hsame i hi => (hsame i hi).symm, fun hsame i hi => (hsame i hi).symm⟩

theorem scatter_eq (h : t.IsInside dims) (hd : data.size = dims.volume)
    (hv : values.size = t.extent.volume) :
    t.scatter? dims data values = some (writeAll data ((t.places dims).zip values.toList)) := by
  have hx : 0 < t.extent.x := h.x.1
  have hvolume : values.size = t.extent.y * t.extent.z * t.extent.x := by
    rw [hv, Axes.volume, Nat.mul_assoc, Nat.mul_comm]
  obtain ⟨hcount, hrows, hflat⟩ := rowsOf_spec t.extent.x values
  rw [hvolume, Nat.mul_div_cancel _ hx] at hcount hflat
  rw [← hvolume, ← Array.length_toList, List.take_length] at hflat
  -- There are as many whole rows of values as there are rows of the tile.
  have hlen : (t.rowStarts dims).length = (rowsOf t.extent.x values).length := by
    rw [length_rowStarts, hcount]
  have hfold := foldlM_overwrite t.extent.x data
    ((t.rowStarts dims).zip (rowsOf t.extent.x values)) fun p hp => by
      obtain ⟨hstart, hrow⟩ := List.of_mem_zip hp
      exact ⟨(h.row_le hstart).trans (Nat.le_of_eq hd.symm), hrows p.2 hrow⟩
  rw [flatMap_zip_rows hlen hrows, hflat, ← places_eq_rows] at hfold
  unfold scatter?
  rw [if_neg (Nat.ne_of_gt hx)]
  exact hfold

/-- Scattering puts the values where they can be gathered again, and touches nothing else. -/
theorem scatter_spec (h : t.IsInside dims) (hnodup : (t.places dims).Nodup)
    (hd : data.size = dims.volume) (hv : values.size = t.extent.volume) :
    ∃ out, t.scatter? dims data values = some out ∧ out.size = dims.volume ∧
      t.gather? dims out = some values ∧ ∀ i, i ∉ t.places dims → out[i]? = data[i]? := by
  have hlen : (t.places dims).length = values.toList.length := by
    rw [length_places, Array.length_toList, hv]
  let writes := (t.places dims).zip values.toList
  have hplaces : writes.map (·.1) = t.places dims := List.map_fst_zip (Nat.le_of_eq hlen)
  have hvalues : writes.map (·.2) = values.toList := List.map_snd_zip (Nat.le_of_eq hlen.symm)
  have hsize : (writeAll data writes).size = dims.volume := (size_writeAll _ _).trans hd
  refine ⟨writeAll data writes, h.scatter_eq hd hv, hsize, ?_, fun i hi => ?_⟩
  · rw [h.gather_eq_some_iff hsize, ← hvalues, ← hplaces, List.map_map, List.map_map]
    apply List.map_congr_left
    intro w hw
    have hplace : w.1 ∈ t.places dims := hplaces ▸ List.mem_map_of_mem hw
    exact (getElem?_writeAll (hplaces.symm ▸ hnodup) hw (hd ▸ h.place_lt hplace)).symm
  · exact getElem?_writeAll_of_not_mem (hplaces.symm ▸ hi)

end IsInside

/-- Tiles with values that fill them, none of which reaches into another. -/
structure AreApart (dims : Extents) (values : List (Tile × Array α)) : Prop where
  inside : ∀ p ∈ values, p.1.IsInside dims
  nodup : ∀ p ∈ values, (p.1.places dims).Nodup
  size : ∀ p ∈ values, p.2.size = p.1.extent.volume
  disjoint : values.Pairwise fun p q => ∀ i ∈ p.1.places dims, i ∉ q.1.places dims

theorem AreApart.tail {p : Tile × Array α} {values : List (Tile × Array α)}
    (h : AreApart dims (p :: values)) : AreApart dims values where
  inside q hq := h.inside q (List.mem_cons_of_mem p hq)
  nodup q hq := h.nodup q (List.mem_cons_of_mem p hq)
  size q hq := h.size q (List.mem_cons_of_mem p hq)
  disjoint := (List.pairwise_cons.mp h.disjoint).2

theorem areApart_of_tiles {nominal : Extents} {ts : List Tile} (h : tiles dims nominal = .ok ts)
    {values : List (Tile × Array α)} (hts : values.map (·.1) = ts)
    (hs : ∀ p ∈ values, p.2.size = p.1.extent.volume) : AreApart dims values where
  inside _ hp := isInside_of_mem_tiles h (hts ▸ List.mem_map_of_mem hp)
  nodup p hp := (nodup_places_tiles h).1 p.1 (hts ▸ List.mem_map_of_mem hp)
  size := hs
  disjoint := List.pairwise_map.mp (hts.symm ▸ (nodup_places_tiles h).2)

/-- Scatters the values of some tiles over the data, those of the first tile first. -/
def scatterAll (dims : Extents) (data : Array α) (values : List (Tile × Array α)) : Array α :=
  values.foldl (fun data p => (p.1.scatter? dims data p.2).getD data) data

theorem scatterAll_cons (dims : Extents) (data : Array α) (p : Tile × Array α)
    (values : List (Tile × Array α)) : scatterAll dims data (p :: values) =
      scatterAll dims ((p.1.scatter? dims data p.2).getD data) values := rfl

/-- After all values have been scattered each tile holds its own, and the rest is as it was. -/
theorem scatterAll_spec {values : List (Tile × Array α)} (h : AreApart dims values)
    (hd : data.size = dims.volume) :
    (scatterAll dims data values).size = dims.volume ∧
      (∀ p ∈ values, p.1.gather? dims (scatterAll dims data values) = some p.2) ∧
      ∀ i, (∀ p ∈ values, i ∉ p.1.places dims) →
        (scatterAll dims data values)[i]? = data[i]? := by
  induction values generalizing data with
  | nil => exact ⟨hd, fun p hp => (nomatch hp), fun _ _ => rfl⟩
  | cons p rest ih =>
    have hin := h.inside p List.mem_cons_self
    obtain ⟨out, hout, hsize, hgather, hothers⟩ := hin.scatter_spec (h.nodup p List.mem_cons_self)
      hd (h.size p List.mem_cons_self)
    obtain ⟨hdisjoint, -⟩ := List.pairwise_cons.mp h.disjoint
    obtain ⟨hend, hrest, hkept⟩ := ih h.tail hsize
    rw [scatterAll_cons, hout, Option.getD_some]
    refine ⟨hend, fun q hq => ?_, fun i hi => ?_⟩
    · rcases List.mem_cons.mp hq with rfl | hq
      -- The tiles still to come leave alone what has just been written.
      · rw [(hin.gather_congr_iff hend hsize).mpr, hgather]
        exact fun i hi => hkept i fun r hr => hdisjoint r hr i hi
      · exact hrest q hq
    · rw [hkept i fun q hq => hi q (List.mem_cons_of_mem p hq), hothers i (hi p List.mem_cons_self)]

end Tile

end VolumeCodec
