import VolumeCodec.Proofs.RoundTrip
import VolumeCodec.Proofs.StoredCorrections
import VolumeCodec.Proofs.WholeDoubles

namespace VolumeCodec

open Real64

section Positions

theorem filterMap_zipIdx {α β : Type} (d : α) (l : List α) (f : α × Nat → Option β) :
    l.zipIdx.filterMap f = (List.range l.length).filterMap fun i => f (l.getD i d, i) := by
  have hzip : l.zipIdx = (List.range l.length).map fun i => (l.getD i d, i) := by
    refine List.ext_getElem (by simp) fun i hi hi' => ?_
    rw [List.length_zipIdx] at hi
    simp [List.getElem?_eq_getElem hi]
  rw [hzip, List.filterMap_map]
  rfl

/-- At most one correction for each position. -/
def IsPlaced (g : Nat → Option Correction) : Prop :=
  ∀ i, ∀ c ∈ g i, c.position = i

/-- The correction for a value that misses the data. -/
def missAt (data values : Array Float) (tolerance : Float) (i : Nat) : Option Correction :=
  let error := data.getD i 0 - values.getD i 0
  if tolerance ≤ error.abs then some ⟨i, error⟩ else none

theorem toList_missesOf {data values : Array Float} (h : data.size = values.size)
    (tolerance : Float) : (missesOf data values tolerance).toList =
      (List.range data.size).filterMap (missAt data values tolerance) := by
  unfold missesOf
  rw [Array.toList_filterMap, Array.toList_zipIdx, filterMap_zipIdx (0, 0), Array.length_toList,
    Array.size_zip, ← h, Nat.min_self]
  refine List.filterMap_congr fun i hi => ?_
  rw [List.mem_range] at hi
  have hpair : (data.zip values).toList.getD i (0, 0) = (data.getD i 0, values.getD i 0) := by
    have hv : i < values.size := h ▸ hi
    simp [Array.getD, hi, hv]
  rw [hpair]
  rfl

/-- The correction that a quantized magnitude stands for. -/
def Quantized.correctionAt (q : Quantized) (tolerance : Float) (i : Nat) : Option Correction :=
  let m := q.magnitudes.getD i 0
  if m = 0 then none
  else
    let size := tolerance * Real64.ofNat m
    some ⟨i, if q.signs.getD i true then size else -size⟩

theorem Quantized.restore_eq {q : Quantized} (h : q.magnitudes.size = q.signs.size)
    (tolerance : Float) : q.restore tolerance =
      (List.range q.magnitudes.size).filterMap (q.correctionAt tolerance) := by
  unfold Quantized.restore
  rw [filterMap_zipIdx (0, true), Array.length_toList, Array.size_zip, ← h, Nat.min_self]
  refine List.filterMap_congr fun i hi => ?_
  rw [List.mem_range] at hi
  have hpair : (q.magnitudes.zip q.signs).toList.getD i (0, true) =
      (q.magnitudes.getD i 0, q.signs.getD i true) := by
    have hv : i < q.signs.size := h ▸ hi
    simp [Array.getD, hi, hv]
  rw [hpair]
  rfl

theorem filterMap_range_succ {β : Type} (g : Nat → Option β) (n : Nat) :
    (List.range (n + 1)).filterMap g = (List.range n).filterMap g ++ (g n).toList := by
  rw [List.range_succ, List.filterMap_append]
  cases hn : g n <;> simp [hn]

/-- Corrections of different positions do not meet. -/
theorem getD_applyCorrections {g : Nat → Option Correction} (hg : IsPlaced g) (data : Array Float)
    {n : Nat} (hn : n ≤ data.size) (i : Nat) :
    (applyCorrections data ((List.range n).filterMap g)).getD i 0 =
      if i < n then (g i).elim (data.getD i 0) (data.getD i 0 + ·.error) else data.getD i 0 := by
  induction n with
  | zero => rfl
  | succ n ih =>
    have hsize := size_applyCorrections data ((List.range n).filterMap g)
    have ih := ih (by omega)
    unfold applyCorrections at ih hsize ⊢
    rw [filterMap_range_succ, List.foldl_append]
    generalize ((List.range n).filterMap g).foldl (fun data c => data.modify c.position
      (· + c.error)) data = before at ih hsize ⊢
    -- Only the last correction can be one of element `n`.
    have hlast : ((g n).toList.foldl (fun data c => data.modify c.position (· + c.error))
        before).getD i 0 =
          if i = n then (g n).elim (before.getD i 0) (before.getD i 0 + ·.error)
          else before.getD i 0 := by
      cases hc : g n with
      | none => exact (ite_self _).symm
      | some c =>
        rw [Option.toList_some, List.foldl_cons, List.foldl_nil, hg n c hc,
          getD_modify _ _ _ _ _ (by omega)]
        rfl
    rw [hlast, ih]
    rcases Nat.lt_trichotomy i n with hlt | rfl | hgt
    · rw [if_neg (by omega), if_pos hlt, if_pos (by omega)]
    · rw [if_pos rfl, if_neg (by omega), if_pos (by omega)]
    · rw [if_neg (by omega), if_neg (by omega), if_neg (by omega)]

end Positions

section Quantize

/-- A correction that can be coded: it lies in the array, is finite and no smaller than the
tolerance, and measures less than `2 ^ 64` tolerances. -/
structure Correction.IsCodable (length : Nat) (tolerance : Float) (x : Correction) : Prop where
  position : x.position < length
  isFinite : x.error.isFinite = true
  far : tolerance ≤ x.error.abs
  small : ¬pow2 64 ≤ Corrections.multiple tolerance x.error

/-- Corrections that can be coded together are at different positions. -/
structure AreCodable (length : Nat) (tolerance : Float) (list : List Correction) : Prop where
  each : ∀ x ∈ list, x.IsCodable length tolerance
  nodup : (list.map Correction.position).Nodup

/-- A correction by the nearest multiple of the tolerance. -/
def Correction.nearest (tolerance : Float) (x : Correction) : Correction :=
  let size := tolerance * Corrections.multiple tolerance x.error
  ⟨x.position, if 0 ≤ x.error then size else -size⟩

/-- A row with one more correction entered. -/
def Quantized.enter (q : Quantized) (tolerance : Float) (x : Correction) : Quantized :=
  ⟨q.magnitudes.setIfInBounds x.position
      (Corrections.multiple tolerance x.error).toUInt64.toNat,
    q.signs.setIfInBounds x.position (decide (0 ≤ x.error))⟩

/-- A row holds corrections, and is zero elsewhere. -/
structure Quantized.HoldsAll (q : Quantized) (length : Nat) (tolerance : Float)
    (list : List Correction) : Prop where
  size_magnitudes : q.magnitudes.size = length
  size_signs : q.signs.size = length
  magnitude : ∀ x ∈ list, q.magnitudes.getD x.position 0 =
    (Corrections.multiple tolerance x.error).toUInt64.toNat
  sign : ∀ x ∈ list, q.signs.getD x.position true = decide (0 ≤ x.error)
  zero : ∀ i, i ∉ list.map Correction.position → q.magnitudes.getD i 0 = 0

variable {c : Corrections} {q q' : Quantized} {x : Correction} {list : List Correction}
variable {length : Nat} {tolerance : Float}

theorem Corrections.quantizeOne_eq_ok_iff (ht : isTolerance c.tolerance = true) :
    c.quantizeOne q x = .ok q' ↔ x.IsCodable c.length c.tolerance ∧
      q.magnitudes.getD x.position 0 = 0 ∧ q' = q.enter c.tolerance x := by
  obtain ⟨i, error⟩ := x
  unfold quantizeOne
  dsimp only
  constructor
  · intro h
    obtain ⟨hposition, h⟩ := ok_of_check h
    obtain ⟨herror, h⟩ := ok_of_check h
    obtain ⟨hsmall, h⟩ := ok_of_check h
    obtain ⟨hfree, h⟩ := ok_of_check h
    simp only [Bool.or_eq_true, Bool.not_eq_true', not_or, Bool.not_eq_false,
      decide_eq_true_eq] at herror
    have hfar := (not_abs_lt_iff ht herror.1).mp herror.2
    exact ⟨⟨Nat.not_le.mp hposition, herror.1, hfar, hsmall⟩, Decidable.not_not.mp hfree,
      (Except.ok.inj h).symm⟩
  · intro h
    obtain ⟨⟨hposition, hfinite, hfar, hsmall⟩, hfree, rfl⟩ := h
    have hnear := (not_abs_lt_iff ht hfinite).mpr hfar
    change ¬pow2 64 ≤ multiple c.tolerance error at hsmall
    rw [if_neg (Nat.not_le.mpr hposition), if_neg (by simp [hfinite, hnear]), if_neg hsmall,
      if_neg (Decidable.not_not.mpr hfree)]
    rfl

theorem Quantized.holdsAll_zero (length : Nat) (tolerance : Float) :
    (Quantized.mk (Array.replicate length 0) (Array.replicate length true)).HoldsAll length
      tolerance [] :=
  ⟨Array.size_replicate, Array.size_replicate, nofun, nofun, fun i _ => by simp [Array.getD]⟩

theorem Quantized.HoldsAll.enter (h : q.HoldsAll length tolerance list)
    (hposition : x.position < length) (hnew : x.position ∉ list.map Correction.position) :
    (q.enter tolerance x).HoldsAll length tolerance (list ++ [x]) := by
  have hm : x.position < q.magnitudes.size := h.size_magnitudes ▸ hposition
  have hs : x.position < q.signs.size := h.size_signs ▸ hposition
  have hne : ∀ y ∈ list, y.position ≠ x.position := fun y hy heq =>
    hnew (heq ▸ List.mem_map_of_mem hy)
  refine ⟨?_, ?_, fun y hy => ?_, fun y hy => ?_, fun i hi => ?_⟩
  · exact Array.size_setIfInBounds.trans h.size_magnitudes
  · exact Array.size_setIfInBounds.trans h.size_signs
  · show (q.magnitudes.setIfInBounds _ _).getD _ _ = _
    rw [getD_setIfInBounds _ _ _ _ _ hm]
    rcases List.mem_append.mp hy with hold | hlast
    · rw [if_neg (hne y hold)]
      exact h.magnitude y hold
    · rw [List.mem_singleton.mp hlast, if_pos rfl]
  · show (q.signs.setIfInBounds _ _).getD _ _ = _
    rw [getD_setIfInBounds _ _ _ _ _ hs]
    rcases List.mem_append.mp hy with hold | hlast
    · rw [if_neg (hne y hold)]
      exact h.sign y hold
    · rw [List.mem_singleton.mp hlast, if_pos rfl]
  · rw [List.map_append, List.mem_append, not_or] at hi
    have hi' : i ≠ x.position := by simpa using hi.2
    show (q.magnitudes.setIfInBounds _ _).getD _ _ = _
    rw [getD_setIfInBounds _ _ _ _ _ hm, if_neg hi']
    exact h.zero i hi.1

/-- The positions that are not zero are those of the corrections that a row holds. -/
theorem Quantized.HoldsAll.eq_zero_iff (h : q.HoldsAll length tolerance list)
    (ht : isTolerance tolerance = true) (hcodable : ∀ x ∈ list, x.IsCodable length tolerance)
    (i : Nat) : q.magnitudes.getD i 0 = 0 ↔ i ∉ list.map Correction.position := by
  refine ⟨fun hzero hi => ?_, h.zero i⟩
  obtain ⟨x, hx, rfl⟩ := List.mem_map.mp hi
  have hc := hcodable x hx
  obtain ⟨hpos, -⟩ := Corrections.multiple_spec ht hc.isFinite hc.far hc.small
  rw [h.magnitude x hx] at hzero
  omega

theorem AreCodable.append_iff : AreCodable length tolerance (list ++ [x]) ↔
    AreCodable length tolerance list ∧ x.IsCodable length tolerance ∧
      x.position ∉ list.map Correction.position := by
  constructor
  · intro h
    obtain ⟨heach, hnodup⟩ := h
    rw [List.map_append, List.nodup_append] at hnodup
    refine ⟨⟨fun y hy => heach y (List.mem_append_left [x] hy), hnodup.1⟩, heach x (by simp), ?_⟩
    exact fun hold => hnodup.2.2 _ hold _ (by simp) rfl
  · intro h
    obtain ⟨⟨heach, hnodup⟩, hx, hnew⟩ := h
    refine ⟨fun y hy => ?_, ?_⟩
    · rcases List.mem_append.mp hy with hold | hlast
      · exact heach y hold
      · exact List.mem_singleton.mp hlast ▸ hx
    · rw [List.map_append, List.nodup_append]
      refine ⟨hnodup, by simp, fun i hi j hj heq => hnew ?_⟩
      rw [List.map_singleton, List.mem_singleton] at hj
      exact hj ▸ heq ▸ hi

/-- One more correction is entered exactly if it can be coded together with those before it. -/
theorem Quantized.HoldsAll.quantizeOne_iff (h : q.HoldsAll c.length c.tolerance list)
    (ht : isTolerance c.tolerance = true) (hcodable : AreCodable c.length c.tolerance list) :
    c.quantizeOne q x = .ok q' ↔
      AreCodable c.length c.tolerance (list ++ [x]) ∧ q' = q.enter c.tolerance x := by
  rw [Corrections.quantizeOne_eq_ok_iff ht, h.eq_zero_iff ht hcodable.each,
    AreCodable.append_iff]
  constructor
  · exact fun h => ⟨⟨hcodable, h.1, h.2.1⟩, h.2.2⟩
  · exact fun h => ⟨h.1.2.1, h.1.2.2, h.2⟩

/-- Corrections are quantized exactly if they can be coded together, and then the row holds them. -/
theorem Corrections.quantize_spec (ht : isTolerance c.tolerance = true) (list : List Correction) :
    let run := list.foldlM c.quantizeOne
      ⟨Array.replicate c.length 0, Array.replicate c.length true⟩
    ((∃ q, run = .ok q) ↔ AreCodable c.length c.tolerance list) ∧
      ∀ q, run = .ok q → q.HoldsAll c.length c.tolerance list := by
  induction list using List.reverseRecOn with
  | nil =>
    refine ⟨⟨fun _ => ⟨nofun, List.nodup_nil⟩, fun _ => ⟨_, rfl⟩⟩, fun q hq => ?_⟩
    obtain rfl := Except.ok.inj hq
    exact Quantized.holdsAll_zero c.length c.tolerance
  | append_singleton list x ih =>
    obtain ⟨hiff, hholds⟩ := ih
    intro run
    have hstep : ∀ q', run = .ok q' → AreCodable c.length c.tolerance (list ++ [x]) ∧
        q'.HoldsAll c.length c.tolerance (list ++ [x]) := by
      intro q' hrun
      unfold run at hrun
      rw [List.foldlM_append] at hrun
      obtain ⟨q, hq, hlast⟩ := ok_of_bind hrun
      rw [List.foldlM_cons] at hlast
      obtain ⟨q₁, hone, hpure⟩ := ok_of_bind hlast
      obtain rfl := Except.ok.inj hpure
      obtain ⟨hall, rfl⟩ := ((hholds q hq).quantizeOne_iff ht (hiff.mp ⟨q, hq⟩)).mp hone
      obtain ⟨-, hx, hnew⟩ := AreCodable.append_iff.mp hall
      exact ⟨hall, (hholds q hq).enter hx.position hnew⟩
    refine ⟨⟨fun h => ?_, fun h => ?_⟩, fun q' hrun => (hstep q' hrun).2⟩
    · obtain ⟨q', hrun⟩ := h
      exact (hstep q' hrun).1
    · have hbefore := (AreCodable.append_iff.mp h).1
      obtain ⟨q, hq⟩ := hiff.mpr hbefore
      have hone := ((hholds q hq).quantizeOne_iff ht hbefore).mpr ⟨h, rfl⟩
      refine ⟨q.enter c.tolerance x, ?_⟩
      unfold run
      rw [List.foldlM_append, hq]
      exact congrArg (· >>= pure) hone

theorem Corrections.quantize_eq_ok (h : c.quantize = .ok q) (ht : isTolerance c.tolerance = true) :
    AreCodable c.length c.tolerance c.list.toList ∧
      q.HoldsAll c.length c.tolerance c.list.toList := by
  unfold quantize at h
  rw [← Array.foldlM_toList] at h
  obtain ⟨hiff, hholds⟩ := quantize_spec ht c.list.toList
  exact ⟨hiff.mp ⟨q, h⟩, hholds q h⟩

theorem Corrections.exists_quantize (ht : isTolerance c.tolerance = true)
    (h : AreCodable c.length c.tolerance c.list.toList) : ∃ q, c.quantize = .ok q := by
  unfold quantize
  rw [← Array.foldlM_toList]
  exact (quantize_spec ht c.list.toList).1.mpr h

theorem Quantized.HoldsAll.lt (h : q.HoldsAll length tolerance list) :
    ∀ m ∈ q.magnitudes, m < 2 ^ 64 := by
  intro m hm
  obtain ⟨i, hi, rfl⟩ := Array.mem_iff_getElem.mp hm
  have hentry : q.magnitudes[i] = q.magnitudes.getD i 0 := by simp [Array.getD, hi]
  rw [hentry]
  by_cases hheld : i ∈ list.map Correction.position
  · obtain ⟨x, hx, rfl⟩ := List.mem_map.mp hheld
    rw [h.magnitude x hx]
    exact UInt64.toNat_lt _
  · rw [h.zero i hheld]
    exact Nat.two_pow_pos 64

/-- A row stands for the nearest multiple of the tolerance at each position of a correction. -/
theorem Quantized.HoldsAll.correctionAt (h : q.HoldsAll length tolerance list)
    (ht : isTolerance tolerance = true) (hcodable : AreCodable length tolerance list)
    (hx : x ∈ list) :
    q.correctionAt tolerance x.position = some (x.nearest tolerance) := by
  have hc := hcodable.each x hx
  obtain ⟨hpos, hexact⟩ := Corrections.multiple_spec ht hc.isFinite hc.far hc.small
  unfold Quantized.correctionAt
  dsimp only
  rw [h.magnitude x hx, h.sign x hx, if_neg (by omega), hexact, Correction.nearest]
  simp only [decide_eq_true_eq]

theorem isPlaced_correctionAt (q : Quantized) (tolerance : Float) :
    IsPlaced (q.correctionAt tolerance) := by
  intro i y hy
  unfold Quantized.correctionAt at hy
  dsimp only at hy
  split at hy
  next => cases hy
  next =>
    obtain rfl := Option.some.inj hy
    rfl

/-- What is taken from ascending positions ascends. -/
theorem pairwise_placed {g : Nat → Option Correction} (hg : IsPlaced g) (n : Nat) :
    ((List.range n).filterMap g).Pairwise (·.position < ·.position) := by
  refine List.pairwise_filterMap.mpr (List.pairwise_lt_range.imp fun {i j} hij x hx y hy => ?_)
  rw [hg i x hx, hg j y hy]
  exact hij

/-- What is restored of a row is the nearest multiples of the tolerance, by ascending position. -/
theorem Quantized.HoldsAll.restore (h : q.HoldsAll length tolerance list)
    (ht : isTolerance tolerance = true) (hcodable : AreCodable length tolerance list) :
    (q.restore tolerance).Pairwise (·.position < ·.position) ∧
      (q.restore tolerance).Perm (list.map (Correction.nearest tolerance)) := by
  have hsize : q.magnitudes.size = length := h.size_magnitudes
  have hplaced := isPlaced_correctionAt q tolerance
  rw [restore_eq (h.size_magnitudes.trans h.size_signs.symm), hsize]
  have hascending := pairwise_placed hplaced length
  refine ⟨hascending, (List.perm_ext_iff_of_nodup ?_ ?_).mpr fun y => ?_⟩
  · exact hascending.imp fun {x y} hlt heq =>
      Nat.ne_of_lt hlt (congrArg Correction.position heq)
  · refine List.Nodup.of_map Correction.position ?_
    rw [List.map_map]
    exact hcodable.nodup
  rw [List.mem_filterMap, List.mem_map]
  constructor
  · intro hy
    obtain ⟨i, -, hy⟩ := hy
    have hheld : i ∈ list.map Correction.position := by
      by_contra hnone
      have hzero := h.zero i hnone
      unfold Quantized.correctionAt at hy
      dsimp only at hy
      rw [if_pos hzero] at hy
      cases hy
    obtain ⟨x, hx, rfl⟩ := List.mem_map.mp hheld
    rw [h.correctionAt ht hcodable hx] at hy
    exact ⟨x, hx, Option.some.inj hy⟩
  · intro hy
    obtain ⟨x, hx, rfl⟩ := hy
    exact ⟨x.position, List.mem_range.mpr (hcodable.each x hx).position,
      h.correctionAt ht hcodable hx⟩

end Quantize

section Misses

variable {data values : Array Float} {tolerance : Float}

theorem missAt_eq_some {i : Nat} {x : Correction} (h : missAt data values tolerance i = some x) :
    x.position = i ∧ tolerance ≤ x.error.abs := by
  unfold missAt at h
  dsimp only at h
  split at h
  next hle =>
    obtain rfl := Option.some.inj h
    exact ⟨rfl, hle⟩
  next => cases h

theorem isPlaced_missAt (data values : Array Float) (tolerance : Float) :
    IsPlaced (missAt data values tolerance) := fun _ _ hx => (missAt_eq_some hx).1

/-- What is restored of the corrections for misses is the nearest multiples of the tolerance. None
of them is zero. -/
theorem Quantized.restore_misses {q : Quantized} (h : data.size = values.size)
    (ht : isTolerance tolerance = true)
    (hq : Corrections.quantize ⟨data.size, tolerance, missesOf data values tolerance⟩ = .ok q) :
    q.restore tolerance =
      (missesOf data values tolerance).toList.map (Correction.nearest tolerance) := by
  obtain ⟨hcodable, hall⟩ := Corrections.quantize_eq_ok hq ht
  obtain ⟨hascending, hperm⟩ := hall.restore ht hcodable
  have hmisses : ((missesOf data values tolerance).toList.map
      (Correction.nearest tolerance)).Pairwise (·.position < ·.position) := by
    rw [toList_missesOf h, List.pairwise_map]
    exact pairwise_placed (isPlaced_missAt data values tolerance) data.size
  have hasymm : ∀ x y : Correction, x.position < y.position → y.position < x.position → x = y :=
    fun x y hxy hyx => absurd hxy (Nat.lt_asymm hyx)
  exact hperm.eq_of_pairwise (fun x y _ _ => hasymm x y) hascending hmisses

end Misses

section Stored

theorem Width.lt_two_pow_ofMax {n : Nat} (h : n < 2 ^ 64) : n < 2 ^ (Width.ofMax n).bits := by
  unfold Width.ofMax
  simp only [Nat.one_shiftLeft]
  split
  next hn => exact hn
  next =>
    split
    next hn => exact hn
    next =>
      split
      next hn => exact hn
      next => exact h

theorem le_foldl_max {numbers : Array Nat} {n : Nat} (h : n ∈ numbers) :
    n ≤ numbers.foldl max 0 := by
  have hne : numbers ≠ #[] := Array.ne_empty_of_mem h
  rw [Array.foldl_max_eq_max hne]
  exact Nat.le_trans (Array.le_max_of_mem h) (Nat.le_max_right _ _)

theorem foldl_max_lt {numbers : Array Nat} {b : Nat} (hb : 0 < b) (h : ∀ n ∈ numbers, n < b) :
    numbers.foldl max 0 < b := by
  by_cases hne : numbers = #[]
  · rw [hne]
    exact hb
  · rw [Array.foldl_max_eq_max hne]
    exact Nat.max_lt.mpr ⟨hb, h _ (Array.max_mem hne)⟩

/-- Numbers are not cut off at the width that is chosen for the largest of them. -/
theorem Packed.toNats_ofMax {numbers : Array Nat} (h : ∀ n ∈ numbers, n < 2 ^ 64) :
    (Packed.ofNats (Width.ofMax (numbers.foldl max 0)) numbers).toNats = numbers := by
  have hwidth := Width.lt_two_pow_ofMax (foldl_max_lt (by decide) h)
  show (numbers.map (BitVec.ofNat _)).map BitVec.toNat = _
  rw [Array.map_map]
  refine (Array.map_congr_left fun n hn => ?_).trans (Array.map_id numbers)
  rw [Function.comp_apply, BitVec.toNat_ofNat]
  exact Nat.mod_eq_of_lt (Nat.lt_of_le_of_lt (le_foldl_max hn) hwidth)

theorem Quantized.toNats_code {q : Quantized} (h : ∀ m ∈ q.magnitudes, m < 2 ^ 64) :
    Packed.toNats ⟨q.code.width, q.code.magnitudes⟩ = q.magnitudes :=
  Packed.toNats_ofMax h

/-- The bits of magnitudes give back all of them, and the signs of those that are not zero. -/
theorem CorrectionCode.recovered (code : CorrectionCode) {length : Nat}
    (hd : (Axes.row length).validate = .ok ()) (hm : code.magnitudes.size = length) :
    let d := Decoded.ofBits (BitVec code.width.bits) (Axes.row length)
      (topPlane code.magnitudes).toInt (code.bits length)
    d.magnitudes = code.magnitudes ∧ d.signs.size = length ∧ ∀ i < length,
      (code.magnitudes.getD i 0#(code.width.bits)).toNat ≠ 0 →
        d.signs.getD i true = code.signs.getD i true := by
  intro d
  have hvolume : (Axes.row length).volume = length := by simp [Axes.row, Axes.volume]
  have hcounted := counted_integers (hm.trans hvolume.symm)
  obtain ⟨residuals, hin⟩ := follow_all_bits code.signs hd hcounted
  obtain ⟨hmagnitudes, hsize, hsigns⟩ := hin.complete hcounted
  rw [hvolume] at hsize hsigns
  exact ⟨hmagnitudes, hsize, fun i hi hne => (hsigns i hi).trans (if_pos hne)⟩

/-- Corrections that were coded are those that were quantized. -/
theorem Quantized.restored_code {q : Quantized} {length : Nat} (tolerance : Float)
    (hd : (Axes.row length).validate = .ok ()) (hm : q.magnitudes.size = length)
    (hs : q.signs.size = length) (hlt : ∀ m ∈ q.magnitudes, m < 2 ^ 64) :
    q.code.restored length tolerance = q.restore tolerance := by
  have hnats := toNats_code hlt
  obtain ⟨hmagnitudes, hsize, hsigns⟩ :=
    q.code.recovered hd (Array.size_map.trans hm)
  unfold CorrectionCode.restored
  dsimp only
  rw [hmagnitudes, hnats]
  generalize (Decoded.ofBits (BitVec q.code.width.bits) (Axes.row length)
    (topPlane q.code.magnitudes).toInt (q.code.bits length)).signs = signs at hsize hsigns ⊢
  rw [restore_eq (q := ⟨q.magnitudes, signs⟩) (hm.trans hsize.symm), restore_eq (hm.trans hs.symm)]
  refine List.filterMap_congr fun i hi => ?_
  rw [List.mem_range] at hi
  change i < q.magnitudes.size at hi
  unfold correctionAt
  dsimp only
  by_cases hz : q.magnitudes.getD i 0 = 0
  · rw [if_pos hz, if_pos hz]
  · have hnat : q.magnitudes.getD i 0 =
        (q.code.magnitudes.getD i 0#q.code.width.bits).toNat := by
      rw [← hnats, Packed.toNats, Array.getD_eq_getD_getElem?, Array.getElem?_map,
        Array.getD_eq_getD_getElem?]
      cases q.code.magnitudes[i]? <;> rfl
    rw [hsigns i (hm ▸ hi) (hnat ▸ hz)]
    rfl

end Stored

end VolumeCodec
