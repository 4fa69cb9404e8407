import VolumeCodec.Proofs.ExactDoubles
import VolumeCodec.Proofs.StoredReals
import VolumeCodec.Proofs.ThresholdArithmetic

namespace VolumeCodec

open Float.Model UnpackedFloat

namespace Real64

/-- The number that a finite double stands for. -/
def value (x : Float) : ℚ :=
  (if isNegative x then -1 else 1) * (units x / 2 ^ 1074)

/-- What was computed of two finite doubles is exactly this number, which therefore is one that a
double stands for. -/
structure IsExact (x : Float × Float) (result : Float) (v : ℚ) : Prop where
  isFinite_left : x.1.isFinite = true
  isFinite_right : x.2.isFinite = true
  isFinite : result.isFinite = true
  value : value result = v

section Signs

variable {x y : Float} {m n : Nat}

theorem Counts.value (h : Counts x n) : value x = n / 2 ^ 1074 := by
  rw [Real64.value, h.isNegative, h.units, if_neg Bool.false_ne_true, one_mul]

theorem counts_of_not_isNegative (h : x.isFinite = true) (hx : isNegative x = false) :
    Counts x (units x) :=
  ⟨h, hx, rfl⟩

theorem abs_unpacked (s : Sign) (n : Nat) : (unpacked s n).abs = unpacked .positive n := by
  unfold unpacked
  split <;> rfl

theorem neg_unpacked (n : Nat) : (unpacked .positive n).neg = unpacked .negative n := by
  unfold unpacked
  split <;> rfl

theorem counts_abs (h : x.isFinite = true) : Counts x.abs (units x) := by
  obtain ⟨y, hy⟩ := exists_counts (isUnits_units h)
  have habs : x.abs = y := hy.ofModel (by rw [unpack_eq h, abs_unpacked])
  rwa [habs]

theorem abs_of_not_isNegative (h : x.isFinite = true) (hx : isNegative x = false) : x.abs = x :=
  (counts_abs h).eq (counts_of_not_isNegative h hx)

theorem neg_abs_of_isNegative (h : x.isFinite = true) (hx : isNegative x = true) : -x.abs = x := by
  have hneg : x.abs.toModel.unpack.neg = x.toModel.unpack := by
    rw [(counts_abs h).unpack, neg_unpacked, unpack_eq h, sign_eq, hx]
    rfl
  exact (congrArg (fun u => Float.ofModel (Float.Model.pack u)) hneg).trans (ofModel_pack x)

theorem zero_le_iff (h : x.isFinite = true) : 0 ≤ x ↔ isNegative x = false ∨ units x = 0 := by
  have hzero : (0 : Float).toModel.unpack = .zero .positive := rfl
  have hle : 0 ≤ x ↔ UnpackedFloat.le (0 : Float).toModel.unpack x.toModel.unpack = true :=
    decide_eq_true_iff
  rw [hle, hzero, unpack_eq h, sign_eq]
  rcases Nat.eq_zero_or_pos (units x) with hz | hpos
  · rw [hz, unpacked_zero]
    cases isNegative x <;> simp [UnpackedFloat.le, UnpackedFloat.compare]
  · rw [unpacked_of_pos _ hpos]
    have hne : units x ≠ 0 := by omega
    cases isNegative x <;> simp [UnpackedFloat.le, UnpackedFloat.compare, hne]

theorem beq_zero_iff (h : x.isFinite = true) : (x == 0) = true ↔ units x = 0 := by
  have hzero : (0 : Float).toModel.unpack = .zero .positive := rfl
  show UnpackedFloat.beq x.toModel.unpack (0 : Float).toModel.unpack = true ↔ _
  rw [hzero, unpack_eq h]
  rcases Nat.eq_zero_or_pos (units x) with hz | hpos
  · rw [hz, unpacked_zero]
    exact iff_of_true rfl rfl
  · rw [unpacked_of_pos _ hpos]
    refine iff_of_false ?_ (by omega)
    cases sign x <;> simp [UnpackedFloat.beq, UnpackedFloat.compare]

theorem beq_self (h : x.isFinite = true) : (x == x) = true :=
  Float.beq_self_iff.mpr fun hnan => by
    rw [hnan] at h
    cases h

/-- The same number, the zero being the positive one. -/
def withPositiveZero (x : Float) : Float :=
  if x == 0 then 0 else x

theorem withPositiveZero_beq (h : x.isFinite = true) : (withPositiveZero x == x) = true := by
  unfold withPositiveZero
  cases hz : x == 0 with
  | true =>
    rw [if_pos rfl]
    exact BEq.symm hz
  | false =>
    rw [if_neg Bool.false_ne_true]
    exact beq_self h

/-- A double is put together again from its magnitude and its sign. -/
theorem withPositiveZero_eq (h : x.isFinite = true) :
    (if decide (0 ≤ x) then x.abs else -x.abs) = withPositiveZero x := by
  unfold withPositiveZero
  by_cases hz : units x = 0
  · have hle : 0 ≤ x := (zero_le_iff h).mpr (.inr hz)
    have habs := counts_abs h
    rw [hz] at habs
    rw [if_pos (decide_eq_true hle), if_pos ((beq_zero_iff h).mpr hz), habs.eq Counts.zero]
  · rw [if_neg fun hb => hz ((beq_zero_iff h).mp hb)]
    cases hneg : isNegative x with
    | false =>
      rw [if_pos (decide_eq_true ((zero_le_iff h).mpr (.inl hneg))), abs_of_not_isNegative h hneg]
    | true =>
      have hle : ¬0 ≤ x := fun hle => by
        rcases (zero_le_iff h).mp hle with hpos | hu
        · rw [hneg] at hpos
          cases hpos
        · exact hz hu
      rw [decide_eq_false hle, if_neg Bool.false_ne_true, neg_abs_of_isNegative h hneg]

end Signs

end Real64

open Real64

section RoundTrip

variable {dims : Extents} {coefficients : Array Float}

theorem counted_reals (hs : coefficients.size = dims.volume)
    (hf : ∀ c ∈ coefficients, c.isFinite = true) :
    Counted dims (coefficients.map Float.abs) fun i => units (coefficients.getD i 0) := by
  refine ⟨by rw [Array.size_map, hs], fun i hi => ?_⟩
  have hlt : i < coefficients.size := by omega
  have hfinite := hf _ (Array.getElem_mem hlt)
  rw [Array.getD_eq_getD_getElem?, Array.getElem?_map, Array.getD_eq_getD_getElem?,
    Array.getElem?_eq_getElem hlt]
  exact counts_abs hfinite

theorem zipWith_abs_signsOf (hf : ∀ c ∈ coefficients, c.isFinite = true) :
    (coefficients.map Float.abs).zipWith (fun m positive => if positive then m else -m)
      (signsOf coefficients) = coefficients.map withPositiveZero := by
  refine Array.ext (by simp [signsOf]) fun i hi hi' => ?_
  have hlt : i < coefficients.size := by rwa [Array.size_map] at hi'
  simp only [signsOf, Array.getElem_zipWith, Array.getElem_map]
  exact withPositiveZero_eq (hf _ (Array.getElem_mem hlt))

/-- The sign of a zero, which is not coded, is that of a non-negative number. -/
theorem InStep.reals_recovered (hs : coefficients.size = dims.volume)
    (hf : ∀ c ∈ coefficients, c.isFinite = true) {residuals : Array Float} {k : Sketch Float}
    (h : InStep dims (signsOf coefficients) (fun i => units (coefficients.getD i 0))
      (fun _ => bottom (coefficients.map Float.abs)) residuals k) :
    k.magnitudes = coefficients.map Float.abs ∧ k.signs = signsOf coefficients := by
  obtain ⟨hmagnitudes, hsize, hsigns⟩ := h.complete (counted_reals hs hf)
  refine ⟨hmagnitudes, Array.ext ?_ fun i hk hi => ?_⟩
  · rw [hsize, signsOf, Array.size_map, hs]
  · have hv : i < dims.volume := by rw [← hsize]; exact hk
    have hlt : i < coefficients.size := by omega
    have hsign := hsigns i hv
    simp only [signsOf, Array.getD_eq_getD_getElem?, Array.getElem?_eq_getElem hk,
      Array.getElem?_map, Array.getElem?_eq_getElem hlt, Option.getD_some, Option.map_some]
      at hsign
    simp only [signsOf, Array.getElem_map]
    rw [hsign]
    split
    next => rfl
    next hz =>
      have hle : 0 ≤ coefficients[i] :=
        (zero_le_iff (hf _ (Array.getElem_mem hlt))).mpr (.inr (Decidable.not_not.mp hz))
      exact (decide_eq_true hle).symm

end RoundTrip

section Exactness

variable {x : Float × Float}

theorem IsExactDifference.isExact (h : IsExactDifference x) :
    IsExact x (x.1 - x.2) (value x.1 - value x.2) := by
  obtain ⟨m, n, hsum, hn, hm⟩ := h
  have hsum : Counts x.1 (m + n) := hsum
  have hn : Counts x.2 n := hn
  have hm : Counts (x.1 - x.2) m := hm
  refine ⟨hsum.isFinite, hn.isFinite, hm.isFinite, ?_⟩
  rw [hm.value, hsum.value, hn.value, Nat.cast_add, add_div, add_sub_cancel_right]

theorem IsExactSum.isExact (h : IsExactSum x) :
    IsExact x (x.1 + x.2) (value x.1 + value x.2) := by
  obtain ⟨m, n, hm, hn, hsum⟩ := h
  have hm : Counts x.1 m := hm
  have hn : Counts x.2 n := hn
  have hsum : Counts (x.1 + x.2) (m + n) := hsum
  refine ⟨hm.isFinite, hn.isFinite, hsum.isFinite, ?_⟩
  rw [hm.value, hsum.value, hn.value, Nat.cast_add, add_div]

end Exactness

/-- Finite doubles of any size are coded without loss: the decoder reads the bits that were written
and returns every coefficient, but the zero for a negative zero. Read as dyadic numbers, all that is
subtracted and added on the way comes to numbers that are doubles themselves, and so it is exact. -/
theorem real_roundtrip {dims : Extents} {coefficients : Array Float}
    (hd : dims.validate = .ok ()) (hs : coefficients.size = dims.volume)
    (hf : ∀ c ∈ coefficients, c.isFinite = true) (t : Tape) :
    ∃ (info : Outline) (full : Tape) (r : Recovered),
      (encodeReals .unbounded coefficients dims .complete).on t = (.ok info, full) ∧
      ((decodeReals .unbounded info none).on full).1 = .ok r ∧
      r.bitCount = info.bitCount ∧ full.writePosition = info.bitCount ∧
      r.coefficients = coefficients.map withPositiveZero ∧
      r.signs = coefficients.map (fun c => decide (0 ≤ c)) ∧
      (∀ i < dims.volume, (r.coefficients.getD i 0 == coefficients.getD i 0) = true) ∧
      (∀ x ∈ Encoder.subtractions
          (⟨dims, coefficients.map (fun c => decide (0 ≤ c)), none, .never⟩ :
            Encoder.Task Float Unit) (coefficients.map Float.abs),
        IsExact x (x.1 - x.2) (value x.1 - value x.2)) ∧
      ∀ x ∈ Decoder.additions Float info info.bitCount full,
        IsExact x (x.1 + x.2) (value x.1 + value x.2) := by
  have hc := counted_reals hs hf
  obtain ⟨residuals, hin⟩ := follow_all_bits (signsOf coefficients) hd hc
  obtain ⟨hmagnitudes, hsigns⟩ := hin.reals_recovered hs hf
  obtain ⟨hsubtractions, hadditions⟩ := exact_written (signsOf coefficients) hd hc
  obtain ⟨-, hpos, hbit⟩ := Tape.recorded_spec t (realBits coefficients dims .complete)
  have hencode := encodeReals_on coefficients dims .complete t
  rw [checkReals_eq_ok_iff.mpr ⟨hd, hs, hf⟩] at hencode
  have hdecode :=
    decodeReals_on none hd (Nat.le_refl _) rfl (.inr rfl) (Nat.le_of_eq hpos.symm) hbit
  rw [List.take_length] at hdecode
  have hahead := Tape.ahead_seekRead (Nat.le_refl _) hbit
  rw [List.take_length] at hahead
  have hcoefficients : (recoveredFrom coefficients dims
      (realBits coefficients dims .complete)).coefficients = coefficients.map withPositiveZero := by
    rw [← zipWith_abs_signsOf hf]
    exact congrArg₂ (Array.zipWith fun m positive => if positive then m else -m) hmagnitudes hsigns
  refine ⟨_, _, _, hencode, hdecode, rfl, hpos, hcoefficients, hsigns, fun i hi => ?_,
    fun x hx => (hsubtractions x hx).isExact, fun x hx => ?_⟩
  · have hlt : i < coefficients.size := by omega
    rw [hcoefficients, Array.getD_eq_getD_getElem?, Array.getElem?_map,
      Array.getD_eq_getD_getElem?, Array.getElem?_eq_getElem hlt]
    exact withPositiveZero_beq (hf _ (Array.getElem_mem hlt))
  · change x ∈ Decoder.additions Float (realOutline coefficients dims .complete)
      (realBits coefficients dims .complete).length _ at hx
    rw [Decoder.additions_eq_turns hahead] at hx
    obtain ⟨turn, hturn, hx⟩ := List.mem_flatMap.mp hx
    exact (hadditions turn hturn x hx).isExact

/-- The case of the least subnormal, a negative zero and the greatest double, made negative. -/
theorem real_roundtrip_extremes :
    (Axes.row 3).validate = .ok () ∧ ∃ (info : Outline) (full : Tape) (r : Recovered),
      (encodeReals .unbounded #[Float.ofBits 1, Float.ofBits 0x8000000000000000,
        Float.ofBits 0xffefffffffffffff] (Axes.row 3) .complete).on .empty = (.ok info, full) ∧
      ((decodeReals .unbounded info none).on full).1 = .ok r ∧
      r.coefficients = #[Float.ofBits 1, 0, Float.ofBits 0xffefffffffffffff] := by
  have hfinite : ∀ c ∈ #[Float.ofBits 1, Float.ofBits 0x8000000000000000,
      Float.ofBits 0xffefffffffffffff], c.isFinite = true := by
    decide +kernel
  obtain ⟨info, full, r, hinfo, hr, -, -, hcoefficients, -⟩ :=
    @real_roundtrip (Axes.row 3) _ rfl rfl hfinite .empty
  refine ⟨rfl, info, full, r, hinfo, hr, hcoefficients.trans ?_⟩
  decide +kernel

end VolumeCodec
