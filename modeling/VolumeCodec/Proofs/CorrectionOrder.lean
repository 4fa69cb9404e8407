import VolumeCodec.Proofs.CorrectionRoundTrip

namespace VolumeCodec

open Real64

section Reasons

variable {length : Nat} {tolerance : Float} {list list' : List Correction} {why : Misuse}

/-- A true reason to refuse corrections: one of them lies outside the array, or is not finite or
below the tolerance, or measures too many tolerances, or is not the only one at its position. -/
inductive IsRefusal (length : Nat) (tolerance : Float) (list : List Correction) : Misuse → Prop
  | position {x : Correction} (hx : x ∈ list) (h : length ≤ x.position) :
    IsRefusal length tolerance list (.correctionPosition x.position length)
  | small {x : Correction} (hx : x ∈ list)
    (h : ¬(x.error.isFinite = true ∧ tolerance ≤ x.error.abs)) :
    IsRefusal length tolerance list (.correctionSmall x.error x.position tolerance)
  | large {x : Correction} (hx : x ∈ list)
    (h : pow2 64 ≤ Corrections.multiple tolerance x.error) :
    IsRefusal length tolerance list (.correctionLarge x.error x.position tolerance)
  | repeated {x : Correction} (hx : x ∈ list)
    (h : 1 < (list.map Correction.position).count x.position) :
    IsRefusal length tolerance list (.correctionRepeated x.position)

/-- More corrections do not take a reason away. -/
theorem IsRefusal.mono (h : IsRefusal length tolerance list why) (hsub : list.Subperm list') :
    IsRefusal length tolerance list' why := by
  obtain ⟨part, hperm, hsublist⟩ := hsub
  have hmem : ∀ x ∈ list, x ∈ list' := fun x hx => hsublist.subset (hperm.mem_iff.mpr hx)
  cases h with
  | position hx h => exact .position (hmem _ hx) h
  | small hx h => exact .small (hmem _ hx) h
  | large hx h => exact .large (hmem _ hx) h
  | repeated hx h =>
    rw [← (hperm.map Correction.position).count_eq] at h
    have hle := (hsublist.map Correction.position).count_le
    exact .repeated (hmem _ hx) (Nat.lt_of_lt_of_le h (hle _))

theorem AreCodable.perm (h : AreCodable length tolerance list) (hperm : list'.Perm list) :
    AreCodable length tolerance list' where
  each x hx := h.each x (hperm.mem_iff.mp hx)
  nodup := (hperm.map Correction.position).nodup_iff.mpr h.nodup

/-- An error that is no smaller than the tolerance measures a number of tolerances, though it may
be infinite. -/
theorem Corrections.multiple_lt_iff {error : Float} (ht : isTolerance tolerance = true)
    (he : error.isFinite = true) (hle : tolerance ≤ error.abs) :
    multiple tolerance error < pow2 64 ↔ ¬pow2 64 ≤ multiple tolerance error := by
  have hlimit : Counts (pow2 64) (2 ^ (64 + 1074)) :=
    counts_pow2 (show 64 + 1074 ≤ 2097 by decide)
  rw [isTolerance, Bool.and_eq_true, decide_eq_true_eq] at ht
  obtain ⟨htolerance, hpos⟩ := counts_of_zero_lt ht.1 ht.2
  have herror := counts_abs he
  rcases div_of_le herror htolerance hpos ((htolerance.le_iff herror).mp hle) with
    hinfinite | ⟨q, hq, hquotient, -⟩
  · rw [multiple, hinfinite]
    decide +kernel
  · obtain ⟨k, -, hwhole, -⟩ := roundToEven_of_one_le hquotient hq
    rw [multiple, hwhole.lt_iff hlimit, hlimit.le_iff hwhole, Nat.not_le]

theorem areCodable_iff (ht : isTolerance tolerance = true) :
    AreCodable length tolerance list ↔
      (∀ x ∈ list, x.position < length ∧ x.error.isFinite = true ∧ tolerance ≤ x.error.abs ∧
        Corrections.multiple tolerance x.error < pow2 64) ∧
      (list.map Correction.position).Nodup := by
  constructor
  · intro h
    refine ⟨fun x hx => ?_, h.nodup⟩
    obtain ⟨hposition, hfinite, hfar, hsmall⟩ := h.each x hx
    exact ⟨hposition, hfinite, hfar, (Corrections.multiple_lt_iff ht hfinite hfar).mpr hsmall⟩
  · intro h
    refine ⟨fun x hx => ?_, h.2⟩
    obtain ⟨hposition, hfinite, hfar, hsmall⟩ := h.1 x hx
    exact ⟨hposition, hfinite, hfar, (Corrections.multiple_lt_iff ht hfinite hfar).mp hsmall⟩

end Reasons

section Rows

variable {c : Corrections} {q : Quantized} {x : Correction} {list list' : List Correction}
variable {fault : Fault}

/-- A row that holds corrections refuses one more only with a reason. -/
theorem Quantized.HoldsAll.quantizeOne_error (h : q.HoldsAll c.length c.tolerance list)
    (ht : isTolerance c.tolerance = true) (hcodable : AreCodable c.length c.tolerance list)
    (herror : c.quantizeOne q x = .error fault) :
    ∃ why, fault = .invalidArgument why ∧ IsRefusal c.length c.tolerance (list ++ [x]) why := by
  have hx : x ∈ list ++ [x] := List.mem_append_right list List.mem_cons_self
  obtain ⟨i, error⟩ := x
  unfold Corrections.quantizeOne at herror
  dsimp only at herror
  by_cases hposition : c.length ≤ i
  · rw [if_pos hposition] at herror
    exact ⟨_, (Except.error.inj herror).symm, .position hx hposition⟩
  rw [if_neg hposition] at herror
  by_cases hsmall : (!error.isFinite || decide (error.abs < c.tolerance)) = true
  · rw [if_pos hsmall] at herror
    refine ⟨_, (Except.error.inj herror).symm, .small hx fun hfar => ?_⟩
    rw [hfar.1, Bool.not_true, Bool.false_or, decide_eq_true_eq] at hsmall
    exact (not_abs_lt_iff ht hfar.1).mpr hfar.2 hsmall
  rw [if_neg hsmall] at herror
  by_cases hlarge : pow2 64 ≤ Corrections.multiple c.tolerance error
  · rw [if_pos hlarge] at herror
    exact ⟨_, (Except.error.inj herror).symm, .large hx hlarge⟩
  rw [if_neg hlarge] at herror
  by_cases hfree : q.magnitudes.getD i 0 = 0
  · rw [if_neg (Decidable.not_not.mpr hfree)] at herror
    cases herror
  · rw [if_pos hfree] at herror
    refine ⟨_, (Except.error.inj herror).symm, .repeated hx ?_⟩
    -- The row is zero wherever no correction was entered, so this is a second one.
    rw [h.eq_zero_iff ht hcodable.each, Decidable.not_not] at hfree
    have hcount : 0 < (list.map Correction.position).count i := List.count_pos_iff.mpr hfree
    rw [List.map_append, List.count_append, List.map_singleton]
    show 1 < (list.map Correction.position).count i + [i].count i
    rw [List.count_singleton_self]
    omega

theorem Corrections.quantize_error (ht : isTolerance c.tolerance = true) (list : List Correction) :
    ∀ fault, list.foldlM c.quantizeOne
        ⟨Array.replicate c.length 0, Array.replicate c.length true⟩ = .error fault →
      ∃ why, fault = .invalidArgument why ∧ IsRefusal c.length c.tolerance list why := by
  induction list using List.reverseRecOn with
  | nil => exact nofun
  | append_singleton list x ih =>
    intro fault hrun
    rw [List.foldlM_append] at hrun
    cases hbefore : list.foldlM c.quantizeOne
        ⟨Array.replicate c.length 0, Array.replicate c.length true⟩ with
    | error earlier =>
      rw [hbefore] at hrun
      obtain rfl := Except.error.inj hrun
      obtain ⟨why, hwhy, hrefusal⟩ := ih earlier hbefore
      exact ⟨why, hwhy, hrefusal.mono (List.sublist_append_left list [x]).subperm⟩
    | ok q =>
      obtain ⟨hiff, hholds⟩ := quantize_spec ht list
      have hcodable := hiff.mp ⟨q, hbefore⟩
      rw [hbefore] at hrun
      cases hone : c.quantizeOne q x with
      | ok q' =>
        have hlast : [x].foldlM c.quantizeOne q = .ok q' := by
          rw [List.foldlM_cons, hone]
          rfl
        exact nomatch hlast.symm.trans hrun
      | error last =>
        have hlast : [x].foldlM c.quantizeOne q = .error last := by
          rw [List.foldlM_cons, hone]
          rfl
        obtain rfl := Except.error.inj (hlast.symm.trans hrun)
        exact (hholds q hbefore).quantizeOne_error ht hcodable hone

/-- Where no correction is entered, the sign stays that of the empty row. -/
theorem Corrections.quantize_sign (ht : isTolerance c.tolerance = true) (list : List Correction) :
    ∀ q, list.foldlM c.quantizeOne
        ⟨Array.replicate c.length 0, Array.replicate c.length true⟩ = .ok q →
      ∀ i, i ∉ list.map Correction.position → q.signs.getD i true = true := by
  induction list using List.reverseRecOn with
  | nil =>
    intro q hrun i hi
    obtain rfl := Except.ok.inj hrun
    simp [Array.getD]
  | append_singleton list x ih =>
    intro q' hrun i hi
    rw [List.foldlM_append] at hrun
    obtain ⟨q, hq, hlast⟩ := ok_of_bind hrun
    rw [List.foldlM_cons] at hlast
    obtain ⟨q₁, hone, hpure⟩ := ok_of_bind hlast
    obtain rfl := Except.ok.inj hpure
    obtain ⟨hx, -, rfl⟩ := (quantizeOne_eq_ok_iff ht).mp hone
    have hsize := ((quantize_spec ht list).2 q hq).size_signs
    rw [List.map_append, List.mem_append, not_or, List.map_singleton, List.mem_singleton] at hi
    show (q.signs.setIfInBounds _ _).getD _ _ = _
    rw [getD_setIfInBounds _ _ _ _ _ (hsize ▸ hx.position), if_neg hi.2]
    exact ih q hq i hi.1

/-- Corrections at different positions give the same row in every order. -/
theorem Corrections.quantize_perm (ht : isTolerance c.tolerance = true) (hperm : list'.Perm list)
    (hcodable : AreCodable c.length c.tolerance list) :
    list'.foldlM c.quantizeOne ⟨Array.replicate c.length 0, Array.replicate c.length true⟩ =
      list.foldlM c.quantizeOne ⟨Array.replicate c.length 0, Array.replicate c.length true⟩ := by
  obtain ⟨hiff, hholds⟩ := quantize_spec ht list
  obtain ⟨hiff', hholds'⟩ := quantize_spec ht list'
  obtain ⟨q, hq⟩ := hiff.mpr hcodable
  obtain ⟨q', hq'⟩ := hiff'.mpr (hcodable.perm hperm)
  have hall := hholds q hq
  have hall' := hholds' q' hq'
  have hpositions := hperm.map Correction.position
  have hmagnitudes : q'.magnitudes = q.magnitudes := by
    refine ext_getD 0 (hall'.size_magnitudes.trans hall.size_magnitudes.symm) fun i _ => ?_
    by_cases hi : i ∈ list.map Correction.position
    · obtain ⟨x, hx, rfl⟩ := List.mem_map.mp hi
      rw [hall.magnitude x hx, hall'.magnitude x (hperm.mem_iff.mpr hx)]
    · rw [hall.zero i hi, hall'.zero i fun hi' => hi (hpositions.mem_iff.mp hi')]
  have hsigns : q'.signs = q.signs := by
    refine ext_getD true (hall'.size_signs.trans hall.size_signs.symm) fun i _ => ?_
    by_cases hi : i ∈ list.map Correction.position
    · obtain ⟨x, hx, rfl⟩ := List.mem_map.mp hi
      rw [hall.sign x hx, hall'.sign x (hperm.mem_iff.mpr hx)]
    · rw [quantize_sign ht list q hq i hi,
        quantize_sign ht list' q' hq' i fun hi' => hi (hpositions.mem_iff.mp hi')]
  obtain ⟨magnitudes, signs⟩ := q
  obtain ⟨magnitudes', signs'⟩ := q'
  dsimp only at hmagnitudes hsigns
  rw [hq, hq', hmagnitudes, hsigns]

end Rows

section Runs

variable {length : Nat} {tolerance : Float} {list list' : List Correction}

theorem Corrections.foldl_add_eq (length : Nat) (tolerance : Float) (list : List Correction) :
    list.foldl add ⟨length, tolerance, #[]⟩ = ⟨length, tolerance, list.toArray⟩ := by
  obtain ⟨hlength, htolerance, hlist⟩ := fields_foldl_add ⟨length, tolerance, #[]⟩ list
  generalize list.foldl add ⟨length, tolerance, #[]⟩ = c at hlength htolerance hlist
  obtain ⟨length', tolerance', ⟨list'⟩⟩ := c
  dsimp only at hlength htolerance hlist
  rw [hlength, htolerance, hlist, List.nil_append]

theorem Corrections.quantize_mk (length : Nat) (tolerance : Float) (list : List Correction) :
    quantize ⟨length, tolerance, list.toArray⟩ =
      list.foldlM (quantizeOne ⟨length, tolerance, list.toArray⟩)
        ⟨Array.replicate length 0, Array.replicate length true⟩ := by
  unfold quantize
  rw [← Array.foldlM_toList]

/-- Corrections at different positions are coded alike in every order. -/
theorem Corrections.encode_perm (ht : isTolerance tolerance = true) (hperm : list'.Perm list)
    (hcodable : AreCodable length tolerance list) (memory : Memory) :
    encode memory ⟨length, tolerance, list'.toArray⟩ =
      encode memory ⟨length, tolerance, list.toArray⟩ := by
  have hrow : quantize ⟨length, tolerance, list'.toArray⟩ =
      quantize ⟨length, tolerance, list.toArray⟩ := by
    rw [quantize_mk, quantize_mk]
    exact quantize_perm (c := ⟨length, tolerance, list.toArray⟩) ht hperm hcodable
  unfold encode
  rw [hrow]

/-- Corrections that cannot be coded together are refused before anything is written. -/
theorem Corrections.encode_refused (ht : isTolerance tolerance = true)
    (hcodable : ¬AreCodable length tolerance list) (memory : Memory) (t : Tape) :
    ∃ why, IsRefusal length tolerance list why ∧
      (encode memory ⟨length, tolerance, list.toArray⟩).on t =
        (.error (.invalidArgument why), t) := by
  obtain ⟨hiff, -⟩ := quantize_spec (c := ⟨length, tolerance, list.toArray⟩) ht list
  have hrow := quantize_mk length tolerance list
  cases hq : quantize ⟨length, tolerance, list.toArray⟩ with
  | ok q => exact absurd (hiff.mp ⟨q, hrow.symm.trans hq⟩) hcodable
  | error fault =>
    obtain ⟨why, rfl, hrefusal⟩ := quantize_error
      (c := ⟨length, tolerance, list.toArray⟩) ht list fault (hrow.symm.trans hq)
    refine ⟨why, hrefusal, ?_⟩
    unfold encode Tape.Update.on
    rw [Action.run_bind, Action.run_lift, hq]

end Runs

/-- Corrections are coded exactly if each lies in the array, is finite, no smaller than the
tolerance and below `2 ^ 64` tolerances, and no two are at the same position. In whatever order
corrections are added, with whatever memory: those that can be coded give the same outline and leave
the same tape, and all others are refused for a true reason and leave the tape as it was. -/
theorem corrections_order_free {length : Nat} {tolerance : Float} {c : Corrections}
    (hc : Corrections.create length tolerance = .ok c) (hlength : length < 2 ^ 64)
    (list : List Correction) (t : Tape) :
    let codable := (∀ x ∈ list, x.position < length ∧ x.error.isFinite = true ∧
        tolerance ≤ x.error.abs ∧ Corrections.multiple tolerance x.error < pow2 64) ∧
      (list.map Correction.position).Nodup
    let coded := fun (memory : Memory) (list : List Correction) =>
      ((list.foldl Corrections.add c).encode memory).on t
    ((∃ outline full, coded .unbounded list = (.ok outline, full)) ↔ codable) ∧
    ∀ memory list', list'.Perm list →
      (codable → coded memory list' = coded memory list) ∧
      (¬codable → ∃ why, IsRefusal length tolerance list why ∧
        coded memory list' = (.error (.invalidArgument why), t)) := by
  obtain ⟨ht, hne, rfl⟩ := Corrections.create_eq_ok_iff.mp hc
  have hd := validate_row_iff.mpr ⟨hne, hlength⟩
  intro codable coded
  have hcodable : codable ↔ AreCodable length tolerance list := (areCodable_iff ht).symm
  have hrun : ∀ memory list, coded memory list =
      (Corrections.encode memory ⟨length, tolerance, list.toArray⟩).on t := fun memory list => by
    rw [← Corrections.foldl_add_eq]
  rw [hcodable]
  simp only [hrun]
  have haccepted := Corrections.encodes_iff (c := ⟨length, tolerance, list.toArray⟩) ht hd t
  refine ⟨haccepted, fun memory list' hperm => ⟨fun h => ?_, fun h => ?_⟩⟩
  · rw [Corrections.encode_perm ht hperm h]
  · have hrefused : ¬AreCodable length tolerance list' := fun h' => h (h'.perm hperm.symm)
    obtain ⟨why, hwhy, hencode⟩ := Corrections.encode_refused ht hrefused memory t
    exact ⟨why, hwhy.mono hperm.subperm, hencode⟩

/-- Two corrections that are coded in both orders, and two that meet and are refused. -/
theorem corrections_order_free_pair :
    let coded := fun (memory : Memory) (list : List Correction) =>
      ((list.foldl Corrections.add ⟨5, 0.5, #[]⟩).encode memory).on .empty
    (∃ outline full, coded .unbounded [⟨3, -1.6⟩, ⟨0, 2⟩] = (.ok outline, full)) ∧
    (∀ memory, coded memory [⟨0, 2⟩, ⟨3, -1.6⟩] = coded memory [⟨3, -1.6⟩, ⟨0, 2⟩]) ∧
    ∀ memory, ∃ why, coded memory [⟨3, 2⟩, ⟨3, -1.6⟩] = (.error (.invalidArgument why), .empty) := by
  intro coded
  have hc : Corrections.create 5 0.5 = .ok ⟨5, 0.5, #[]⟩ :=
    Corrections.create_eq_ok_iff.mpr ⟨by decide +kernel, by decide, rfl⟩
  obtain ⟨haccepted, horder⟩ := corrections_order_free hc (by decide) [⟨3, -1.6⟩, ⟨0, 2⟩] .empty
  have hrefused := (corrections_order_free hc (by decide) [⟨3, -1.6⟩, ⟨3, 2⟩] .empty).2
  have hcodable : (∀ x ∈ ([⟨3, -1.6⟩, ⟨0, 2⟩] : List Correction), x.position < 5 ∧
      x.error.isFinite = true ∧ 0.5 ≤ x.error.abs ∧
      Corrections.multiple 0.5 x.error < pow2 64) ∧
      (([⟨3, -1.6⟩, ⟨0, 2⟩] : List Correction).map Correction.position).Nodup := by
    refine ⟨?_, by decide⟩
    simp only [List.forall_mem_cons, List.not_mem_nil, false_implies, implies_true, and_true]
    exact ⟨⟨by decide, by decide +kernel, by decide +kernel, by decide +kernel⟩,
      ⟨by decide, by decide +kernel, by decide +kernel, by decide +kernel⟩⟩
  refine ⟨haccepted.mpr hcodable, fun memory => ?_, fun memory => ?_⟩
  · exact (horder memory _ (List.Perm.swap _ _ _)).1 hcodable
  · obtain ⟨why, -, h⟩ := (hrefused memory _ (List.Perm.swap _ _ _)).2 fun h =>
      absurd h.2 (by decide)
    exact ⟨why, h⟩

end VolumeCodec
