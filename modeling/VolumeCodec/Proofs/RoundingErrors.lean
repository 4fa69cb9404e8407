import VolumeCodec.Proofs.ExactDoubles

namespace VolumeCodec

open Float.Model UnpackedFloat

namespace Real64

section Mantissas

variable {x : ExtendedMantissa} {v : ℚ}

/-- A mantissa is what is left of a number whose fraction was cut off. The two bits behind it tell
whether the fraction reaches a half, and whether there is something more. -/
def IsCut (x : ExtendedMantissa) (v : ℚ) : Prop :=
  ∃ low : ℚ, 0 ≤ low ∧ low < 1 / 2 ∧ (x.stickyBit = true ↔ 0 < low) ∧
    v = x.mantissa + x.roundBit.toNat / 2 + low

theorem IsCut.shiftRightOne (h : IsCut x v) : IsCut x.shiftRightOne (v / 2) := by
  obtain ⟨low, hnonneg, hlt, hsticky, rfl⟩ := h
  obtain ⟨m, r, s⟩ := x
  have hm : (m : ℚ) = 2 * (m / 2 : Nat) + (m % 2 : Nat) := by
    exact_mod_cast (Nat.div_add_mod m 2).symm
  have hbit : ((m % 2 != 0).toNat : ℚ) = (m % 2 : Nat) := by
    rcases Nat.mod_two_eq_zero_or_one m with h | h <;> simp [h]
  have hr : (r.toNat : ℚ) = if r then 1 else 0 := by cases r <;> rfl
  refine ⟨r.toNat / 4 + low / 2, ?_, ?_, ?_, ?_⟩
  · positivity
  · rw [hr]
    split <;> linarith
  · show (r || s) = true ↔ _
    rw [Bool.or_eq_true, hsticky, hr]
    cases r
    · simp
    · simp only [true_or, if_true, true_iff]
      linarith
  · show (m + r.toNat / 2 + low) / 2 =
      ((m / 2 : Nat) : ℚ) + (m % 2 != 0).toNat / 2 + (r.toNat / 4 + low / 2)
    rw [hbit]
    linarith

theorem IsCut.shift (h : IsCut x v) (n : Nat) : IsCut (x >>> n) (v / 2 ^ n) := by
  induction n with
  | zero =>
    rw [pow_zero, div_one]
    exact h
  | succ n ih =>
    rw [pow_succ, ← div_div]
    exact ih.shiftRightOne

/-- The bits that are kept are enough to round to the nearest integer. -/
theorem IsCut.nearest (h : IsCut x v) : |(x.roundedMantissa : ℚ) - v| ≤ 1 / 2 := by
  obtain ⟨low, hnonneg, hlt, hsticky, rfl⟩ := h
  obtain ⟨m, r, s⟩ := x
  rw [abs_le]
  cases r with
  | false =>
    have hdown : (⟨m, false, s⟩ : ExtendedMantissa).roundedMantissa = m := by cases s <;> rfl
    rw [hdown]
    simp only [Bool.toNat_false, Nat.cast_zero, zero_div]
    constructor <;> linarith
  | true =>
    cases s with
    | false =>
      have hz : low = 0 := by
        rcases hnonneg.eq_or_lt with hz | hpos
        · exact hz.symm
        · cases hsticky.mpr hpos
      have htie : (⟨m, true, false⟩ : ExtendedMantissa).roundedMantissa = m + m % 2 := rfl
      rw [htie, hz]
      rcases Nat.mod_two_eq_zero_or_one m with heven | hodd
      · rw [heven]
        norm_num
      · rw [hodd]
        norm_num
    | true =>
      have hup : (⟨m, true, true⟩ : ExtendedMantissa).roundedMantissa = m + 1 := rfl
      rw [hup]
      push_cast
      simp only [Bool.toNat_true, Nat.cast_one]
      constructor <;> linarith

theorem IsCut.bounds (h : IsCut x v) : (x.mantissa : ℚ) ≤ v ∧ v < x.mantissa + 1 := by
  obtain ⟨low, hnonneg, hlt, -, rfl⟩ := h
  have hr : (x.roundBit.toNat : ℚ) = if x.roundBit then 1 else 0 := by cases x.roundBit <;> rfl
  rw [hr]
  split <;> constructor <;> linarith

theorem isCut_exact (m : Nat) : IsCut (.ofMantissaAndAccuracy m .exact) m :=
  ⟨0, le_rfl, by norm_num, by simp [ExtendedMantissa.ofMantissaAndAccuracy], by
    simp [ExtendedMantissa.ofMantissaAndAccuracy]⟩

/-- A quotient, of which the remainder tells how it was cut off. -/
theorem isCut_div (m : Nat) {n : Nat} (hn : 0 < n) :
    IsCut (.ofMantissaAndAccuracy (m / n) (accuracyOfFraction (m % n) n)) (m / n) := by
  have hpos : (0 : ℚ) < n := by exact_mod_cast hn
  have hlt : ((m % n : Nat) : ℚ) < n := by exact_mod_cast Nat.mod_lt m hn
  have hsplit : (m : ℚ) / n = (m / n : Nat) + (m % n : Nat) / n := by
    have hm : (m : ℚ) = n * (m / n : Nat) + (m % n : Nat) := by
      exact_mod_cast (Nat.div_add_mod m n).symm
    field_simp
    linarith
  rw [hsplit]
  generalize m % n = rest at hlt
  unfold accuracyOfFraction
  by_cases hz : rest = 0
  · rw [if_pos hz, hz, Nat.cast_zero, zero_div, add_zero]
    exact isCut_exact _
  · have hrest : (0 : ℚ) < rest := by exact_mod_cast Nat.pos_of_ne_zero hz
    rw [if_neg hz]
    have hfraction : (0 : ℚ) < rest / n ∧ (rest : ℚ) / n < 1 :=
      ⟨div_pos hrest hpos, (div_lt_one hpos).mpr hlt⟩
    rcases Nat.lt_trichotomy (2 * rest) n with h | h | h
    · have hhalf : (rest : ℚ) / n < 1 / 2 := by
        rw [div_lt_div_iff₀ hpos two_pos]
        exact_mod_cast (by omega : rest * 2 < 1 * n)
      rw [Nat.compare_eq_lt.mpr h]
      exact ⟨rest / n, hfraction.1.le, hhalf, by simp [ExtendedMantissa.ofMantissaAndAccuracy, *],
        by simp [ExtendedMantissa.ofMantissaAndAccuracy]⟩
    · have hhalf : (rest : ℚ) / n = 1 / 2 := by
        rw [div_eq_div_iff hpos.ne' two_ne_zero]
        exact_mod_cast (by omega : rest * 2 = 1 * n)
      rw [Nat.compare_eq_eq.mpr h, hhalf]
      exact ⟨0, le_rfl, by norm_num, by simp [ExtendedMantissa.ofMantissaAndAccuracy],
        by simp [ExtendedMantissa.ofMantissaAndAccuracy]⟩
    · have hhalf : 1 / 2 < (rest : ℚ) / n := by
        rw [div_lt_div_iff₀ two_pos hpos]
        exact_mod_cast (by omega : 1 * n < rest * 2)
      rw [Nat.compare_eq_gt.mpr h]
      exact ⟨rest / n - 1 / 2, by linarith, by linarith,
        by simpa [ExtendedMantissa.ofMantissaAndAccuracy] using hhalf,
        by simp [ExtendedMantissa.ofMantissaAndAccuracy]⟩

end Mantissas

section Rounding

variable {q : Nat} {e : Int} {acc : Accuracy} {v : ℚ}

theorem excess_eq_tail (hq : 2 ^ 52 ≤ q) (he : -1021 ≤ e + q.log2) : excess q e = tail q := by
  have hlog : 52 ≤ q.log2 := (Nat.le_log2 (by omega)).mpr hq
  rw [excess_eq, tail]
  omega

/-- What has at least 53 bits is rounded to 53 bits, and no farther than by half a unit of the last
of them. -/
theorem roundWithAccuracy_error (h : IsCut (.ofMantissaAndAccuracy q acc) v) (hq : 2 ^ 52 ≤ q)
    (he : -1021 ≤ e + q.log2) :
    ∃ f k hf, roundWithAccuracy .binary64 .positive q e acc = .finite .positive f (e + (k : Nat)) hf ∧
      2 ^ 52 ≤ f ∧ f < 2 ^ 53 ∧ tail q ≤ k ∧ |(f : ℚ) * 2 ^ k - v| ≤ 2 ^ tail q / 2 := by
  have hlog : 52 ≤ q.log2 := (Nat.le_log2 (by omega)).mpr hq
  have htail : tail q = q.log2 - 52 := rfl
  have hcut := h.shift (tail q)
  have hnearest := hcut.nearest
  have hmantissa : (ExtendedMantissa.ofMantissaAndAccuracy q acc >>> tail q).mantissa =
      q / 2 ^ tail q := by
    rw [mantissa_shift, mantissa_ofMantissaAndAccuracy]
  have hrounded : 2 ^ 52 ≤
      (ExtendedMantissa.ofMantissaAndAccuracy q acc >>> tail q).roundedMantissa := by
    have hle := le_roundedMantissa (ExtendedMantissa.ofMantissaAndAccuracy q acc >>> tail q)
    rw [hmantissa] at hle
    exact Nat.le_trans (le_div_tail hq) hle
  have hcarry : (ExtendedMantissa.ofMantissaAndAccuracy q acc >>> tail q).roundedMantissa ≤
      2 ^ 53 := by
    have hlt : (q / 2 ^ tail q : Nat) + (1 : ℚ) ≤ 2 ^ 53 := by exact_mod_cast div_tail_lt q
    have hbound := hcut.bounds.2
    rw [hmantissa] at hbound
    have hclose := (abs_le.mp hnearest).2
    have hle : ((ExtendedMantissa.ofMantissaAndAccuracy q acc >>> tail q).roundedMantissa : ℚ) <
        (2 ^ 53 + 1 : Nat) := by
      push_cast
      linarith
    exact Nat.lt_succ_iff.mp (by exact_mod_cast hle)
  unfold roundWithAccuracy
  rw [shiftToTargetExponent_eq, excess_eq_tail hq he]
  dsimp only
  generalize (ExtendedMantissa.ofMantissaAndAccuracy q acc >>> tail q).roundedMantissa = r at *
  have hlogr : 52 ≤ r.log2 := (Nat.le_log2 (by omega)).mpr hrounded
  rw [shiftToTargetExponent_eq, excess_eq_tail hrounded (by omega)]
  have hfinal : (ExtendedMantissa.ofMantissaAndAccuracy r .exact >>> tail r).mantissa =
      r / 2 ^ tail r := by
    rw [mantissa_shift, mantissa_ofMantissaAndAccuracy]
  have hlow := le_div_tail hrounded
  -- The carry into one more bit leaves nothing but zeros behind it.
  have hunits : r / 2 ^ tail r * 2 ^ tail r = r := by
    rcases Nat.lt_or_ge r (2 ^ 53) with hlt | hge
    · exact (isUnits_of_lt hlt).div_mul
    · rw [Nat.le_antisymm hcarry hge]
      rfl
  dsimp only
  rw [dif_neg (by omega)]
  refine ⟨r / 2 ^ tail r, tail q + tail r, by omega, ?_, hlow, div_tail_lt r, by omega, ?_⟩
  · simp only [hfinal]
    congr 1
    push_cast
    omega
  · have hvalue : ((r / 2 ^ tail r : Nat) : ℚ) * 2 ^ (tail q + tail r) = r * 2 ^ tail q := by
      rw [pow_add, mul_comm ((2 : ℚ) ^ tail q), ← mul_assoc]
      exact_mod_cast congrArg (fun n : Nat => (n : ℚ) * 2 ^ tail q) hunits
    have hscale : (r : ℚ) * 2 ^ tail q - v = (r - v / 2 ^ tail q) * 2 ^ tail q := by
      field_simp
    rw [hvalue, hscale, abs_mul, abs_of_pos (by positivity : (0 : ℚ) < 2 ^ tail q)]
    calc |(r : ℚ) - v / 2 ^ tail q| * 2 ^ tail q
      _ ≤ 1 / 2 * 2 ^ tail q := mul_le_mul_of_nonneg_right hnearest (by positivity)
      _ = 2 ^ tail q / 2 := by ring

/-- Half a unit of the last bit that is kept is a small part of the number. -/
theorem IsCut.half_unit_le (h : IsCut (.ofMantissaAndAccuracy q acc) v) (hq : 2 ^ 52 ≤ q) :
    (2 : ℚ) ^ tail q / 2 ≤ v / 2 ^ 53 := by
  have hlow := h.bounds.1
  have hbits : (2 ^ 52 * 2 ^ tail q : Nat) ≤ (q : ℚ) := by
    have hle : 2 ^ 52 * 2 ^ tail q ≤ q :=
      (Nat.le_div_iff_mul_le (Nat.two_pow_pos _)).mp (le_div_tail hq)
    exact_mod_cast hle
  rw [mantissa_ofMantissaAndAccuracy] at hlow
  push_cast at hbits
  linarith

/-- The units of a double of which mantissa and exponent are given. -/
theorem units_div {f k : Nat} (he : 0 ≤ e + k + 1074) :
    ((f * 2 ^ (e + k + 1074).toNat : Nat) : ℚ) / 2 ^ 1074 = f * 2 ^ k * 2 ^ e := by
  have hpow : (2 : ℚ) ^ (e + k + 1074).toNat = 2 ^ k * 2 ^ e * 2 ^ 1074 := by
    have htwo : (2 : ℚ) ≠ 0 := two_ne_zero
    rw [← zpow_natCast, ← zpow_natCast, ← zpow_natCast, ← zpow_add₀ htwo, ← zpow_add₀ htwo]
    congr 1
    omega
  push_cast
  rw [hpow]
  field_simp

end Rounding

end Real64

end VolumeCodec
