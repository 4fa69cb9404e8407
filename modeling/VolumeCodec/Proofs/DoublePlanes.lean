import Mathlib.Data.Int.Log
import Mathlib.Order.Bounds.Basic
import VolumeCodec.Proofs.WholeDoubles

namespace VolumeCodec

/-- A positive number has bits from one plane up to another: it is a multiple of the lower power of
two and of none beyond it, and the upper one is the greatest that it reaches. -/
structure Spans (v : ℚ) (finest top : ℤ) : Prop where
  top_eq_iff : ∀ e : ℤ, top = e ↔ 2 ^ e ≤ v ∧ v < 2 ^ (e + 1)
  finest_greatest : IsGreatest {e : ℤ | ∃ m : ℤ, v = m * 2 ^ e} finest

/-- What is expected of the planes of a positive double. -/
structure HasExactPlanes (x : Float) : Prop where
  spans : Spans (Real64.value x) (Real64.finestPlane x).toInt (Real64.topPlane x).toInt
  le_finest : -1074 ≤ (Real64.finestPlane x).toInt
  finest_le_top : (Real64.finestPlane x).toInt ≤ (Real64.topPlane x).toInt
  top_le : (Real64.topPlane x).toInt ≤ 1023
  /-- There are at most 53 of them. -/
  top_le_finest : (Real64.topPlane x).toInt - (Real64.finestPlane x).toInt ≤ 52

section Powers

variable {x : Float} {n : Nat}

theorem zpow_units (k : Nat) : (2 : ℚ) ^ (-1074 + (k : Int)) = 2 ^ k / 2 ^ 1074 := by
  rw [zpow_add₀ two_ne_zero, zpow_natCast, zpow_neg, mul_comm]
  rfl

theorem log_value (h : Real64.Counts x n) (hn : 0 < n) :
    Int.log 2 (Real64.value x) = -1074 + (n.log2 : Int) := by
  have hpos : 0 < Real64.value x := by
    rw [h.value]
    positivity
  refine le_antisymm ?_ ?_
  · refine Int.lt_add_one_iff.mp ((Int.lt_zpow_iff_log_lt (by decide) hpos).mp ?_)
    rw [Nat.cast_ofNat, add_assoc, ← Nat.cast_succ, zpow_units, h.value]
    refine div_lt_div_of_pos_right ?_ (by positivity)
    exact_mod_cast Nat.lt_log2_self
  · refine (Int.zpow_le_iff_le_log (by decide) hpos).mp ?_
    rw [Nat.cast_ofNat, zpow_units, h.value]
    refine div_le_div_of_nonneg_right ?_ (by positivity)
    exact_mod_cast Nat.log2_self_le (by omega)

theorem value_pow2 {p : Int} (hlow : -1074 ≤ p) (hhigh : p ≤ 1023) :
    Real64.value (Real64.pow2 p) = 2 ^ p := by
  obtain ⟨k, rfl⟩ : ∃ k : Nat, p = -1074 + k := ⟨(p + 1074).toNat, by omega⟩
  rw [(Real64.counts_pow2 (by omega)).value, zpow_units, Nat.cast_pow, Nat.cast_ofNat]

end Powers

namespace Real64

section Planes

variable {x : Float} {n : Nat}

/-- The planes below the lowest one of the doubles are of no account: of the others, a number of
units is a multiple exactly if it is one in units. -/
theorem isMultiple_iff (hn : n ≠ 0) (e : ℤ) :
    (∃ m : ℤ, (n : ℚ) / 2 ^ 1074 = m * 2 ^ e) ↔ e ≤ -1074 + (lowestBit n : ℤ) := by
  have hunit : (2 : ℚ) ^ 1074 ≠ 0 := by positivity
  rcases lt_or_ge e (-1074) with hbelow | hfrom
  · obtain ⟨k, hk⟩ : ∃ k : Nat, -1074 + ((0 : Nat) : ℤ) = k + e := ⟨(-1074 - e).toNat, by omega⟩
    refine iff_of_true ⟨n * 2 ^ k, ?_⟩ (by omega)
    calc (n : ℚ) / 2 ^ 1074
      _ = n * 2 ^ (-1074 + ((0 : Nat) : ℤ)) := by rw [zpow_units, pow_zero, mul_one_div]
      _ = n * 2 ^ k * 2 ^ e := by rw [hk, zpow_add₀ two_ne_zero, zpow_natCast, mul_assoc]
      _ = ((n * 2 ^ k : ℤ) : ℚ) * 2 ^ e := by push_cast; rfl
  · obtain ⟨k, rfl⟩ : ∃ k : Nat, e = -1074 + k := ⟨(e + 1074).toNat, by omega⟩
    have hscaled : ∀ m : ℤ, (n : ℚ) / 2 ^ 1074 = m * 2 ^ (-1074 + (k : ℤ)) ↔
        (n : ℤ) = m * (2 ^ k : Nat) := fun m => by
      rw [zpow_units, ← mul_div_assoc, div_left_inj' hunit]
      exact_mod_cast Iff.rfl
    simp only [hscaled]
    have hdvd := two_pow_dvd_iff (e := k) hn
    constructor
    · rintro ⟨m, hm⟩
      have hle := hdvd.mp (Int.natCast_dvd_natCast.mp ⟨m, hm.trans (mul_comm _ _)⟩)
      omega
    · intro hle
      obtain ⟨m, hm⟩ := hdvd.mpr (by omega)
      refine ⟨m, ?_⟩
      rw [hm, mul_comm]
      push_cast
      rfl

theorem Counts.spans (h : Counts x n) (hn : n ≠ 0) :
    Spans (Real64.value x) (finestPlane x).toInt (topPlane x).toInt := by
  have hpos : 0 < Real64.value x := by
    rw [h.value]
    positivity
  have htop : (topPlane x).toInt = Int.log 2 (Real64.value x) := by
    rw [h.toInt_topPlane hn, log_value h (Nat.pos_of_ne_zero hn)]
  have hmultiple : ∀ e : ℤ, (∃ m : ℤ, Real64.value x = m * 2 ^ e) ↔ e ≤ (finestPlane x).toInt :=
    fun e => by
      rw [h.value, h.toInt_finestPlane hn]
      exact isMultiple_iff hn e
  refine ⟨fun e => ?_, (hmultiple _).mpr le_rfl, fun e he => (hmultiple e).mp he⟩
  have hle := Int.zpow_le_iff_le_log (R := ℚ) (by decide : 1 < 2) (x := e) hpos
  have hlt := Int.lt_zpow_iff_log_lt (R := ℚ) (by decide : 1 < 2) (x := e + 1) hpos
  rw [Nat.cast_ofNat] at hle hlt
  rw [hle, hlt, htop]
  omega

theorem Counts.hasExactPlanes (h : Counts x n) (hn : n ≠ 0) : HasExactPlanes x := by
  have hfinest := h.toInt_finestPlane hn
  have htop := h.toInt_topPlane hn
  have hle := lowestBit_le n
  -- Nothing stands behind the highest 53 bits, and so the lowest set bit is among them.
  have hbits : tail n ≤ lowestBit n := (two_pow_dvd_iff hn).mp h.isUnits.dvd
  unfold tail at hbits
  exact {
    spans := h.spans hn
    le_finest := by omega
    finest_le_top := by omega
    top_le := BoundedPlanes.topPlane_le x
    top_le_finest := by omega }

end Planes

end Real64

section Values

variable {v : ℚ} {finest top e : ℤ} {values : Array Float}

theorem Spans.isMultiple_of_le (h : Spans v finest top) (he : e ≤ finest) :
    ∃ m : ℤ, v = m * 2 ^ e := by
  obtain ⟨m, hm⟩ := h.finest_greatest.1
  obtain ⟨k, rfl⟩ : ∃ k : Nat, finest = k + e := ⟨(finest - e).toNat, by omega⟩
  refine ⟨m * 2 ^ k, ?_⟩
  rw [hm, zpow_add₀ two_ne_zero, zpow_natCast]
  push_cast
  ring

theorem Spans.lt_of_le (h : Spans v finest top) (he : top ≤ e) : v < 2 ^ (e + 1) := by
  obtain ⟨-, hlt⟩ := (h.top_eq_iff top).mp rfl
  exact hlt.trans_le (zpow_le_zpow_right₀ (by norm_num) (by omega))

theorem hasExactPlanes_of_pos {x : Float} (h : x.isFinite = true) (hpos : 0 < x) :
    HasExactPlanes x := by
  obtain ⟨hcounts, hunits⟩ := Real64.counts_of_zero_lt h hpos
  exact hcounts.hasExactPlanes (by omega)

/-- A power of two spans its own plane. -/
theorem planes_pow2 {p : Int} (hlow : -1074 ≤ p) (hhigh : p ≤ 1023) :
    (Real64.topPlane (Real64.pow2 p)).toInt = p ∧
      (Real64.finestPlane (Real64.pow2 p)).toInt = p := by
  obtain ⟨hfinite, hpos⟩ := Real64.pow2_positive hlow hhigh
  obtain ⟨hspans, -, hle, -, -⟩ := hasExactPlanes_of_pos hfinite hpos
  rw [value_pow2 hlow hhigh] at hspans
  have htop : (Real64.topPlane (Real64.pow2 p)).toInt = p :=
    (hspans.top_eq_iff p).mpr ⟨le_rfl, zpow_lt_zpow_right₀ (by norm_num) (by omega)⟩
  have hfinest : p ≤ (Real64.finestPlane (Real64.pow2 p)).toInt :=
    hspans.finest_greatest.2 ⟨1, by rw [Int.cast_one, one_mul]⟩
  exact ⟨htop, by omega⟩

/-- The planes of an array leave nothing out of any of its values. -/
theorem value_within_planes {x : Float} (hx : x ∈ values) (h : x.isFinite = true)
    (hnonneg : 0 ≤ x) : (∃ m : ℤ, Real64.value x = m * 2 ^ (lowestPlane values).toInt) ∧
      Real64.value x < 2 ^ ((topPlane values).toInt + 1) := by
  by_cases hz : Real64.units x = 0
  · have hvalue : Real64.value x = 0 := by
      rw [Real64.value, hz, Nat.cast_zero, zero_div, mul_zero]
    rw [hvalue]
    exact ⟨⟨0, by rw [Int.cast_zero, zero_mul]⟩, by positivity⟩
  · have hsign := ((Real64.zero_le_iff h).mp hnonneg).resolve_right hz
    have hspans := (Real64.counts_of_not_isNegative h hsign).spans hz
    exact ⟨hspans.isMultiple_of_le (lowestPlane_le hx), hspans.lt_of_le (le_topPlane hx)⟩

end Values

/-- The planes of a positive double are those of the number that it stands for, whichever of its two
forms the pattern has, and the powers of two within its range have exactly one. The planes of an
array of doubles, of which one is not zero, are as many as its values need. -/
theorem double_planes_exact :
    (∀ x : Float, x.isFinite = true → 0 < x → HasExactPlanes x) ∧
      (∀ p : Int, -1074 ≤ p → p ≤ 1023 →
        (Real64.pow2 p).isFinite = true ∧ Real64.value (Real64.pow2 p) = 2 ^ p ∧
          (Real64.topPlane (Real64.pow2 p)).toInt = p ∧
          (Real64.finestPlane (Real64.pow2 p)).toInt = p) ∧
      ∀ values : Array Float, (∀ x ∈ values, x.isFinite = true ∧ 0 ≤ x) →
        (∃ x ∈ values, 0 < x) →
        (lowestPlane values).toInt ≤ 0 ∧
          (lowestPlane values).toInt ≤ (topPlane values).toInt ∧
          ∀ x ∈ values, (∃ m : ℤ, Real64.value x = m * 2 ^ (lowestPlane values).toInt) ∧
            Real64.value x < 2 ^ ((topPlane values).toInt + 1) := by
  refine ⟨fun x hx hpos => hasExactPlanes_of_pos hx hpos, fun p hlow hhigh => ?_,
    fun values hvalues hsome => ⟨lowestPlane_nonpos values, ?_, fun x hx => ?_⟩⟩
  · exact ⟨(Real64.pow2_positive hlow hhigh).1, value_pow2 hlow hhigh, planes_pow2 hlow hhigh⟩
  · obtain ⟨x, hx, hpos⟩ := hsome
    have hle := (hasExactPlanes_of_pos (hvalues x hx).1 hpos).finest_le_top
    exact ((lowestPlane_le hx).trans hle).trans (le_topPlane hx)
  · exact value_within_planes hx (hvalues x hx).1 (hvalues x hx).2

/-- The greatest number without a leading one, the power of two below the least number with one, and
both forms in an array with a negative zero. -/
theorem double_planes_exact_boundary :
    let x := Float.ofBits 0x000fffffffffffff
    let values := #[Float.ofBits 0x8000000000000000, x, Float.ofBits 0x0010000000000001]
    (x.isFinite = true ∧ 0 < x ∧ HasExactPlanes x) ∧
      (Real64.topPlane x = -1023 ∧ Real64.finestPlane x = -1074) ∧
      ((-1074 : Int) ≤ -1023 ∧ (-1023 : Int) ≤ 1023 ∧
        Real64.value (Real64.pow2 (-1023)) = 2 ^ (-1023 : ℤ)) ∧
      (∀ y ∈ values, y.isFinite = true ∧ 0 ≤ y) ∧ (∃ y ∈ values, 0 < y) ∧
      (lowestPlane values = -1074 ∧ topPlane values = -1022) ∧
      ∀ y ∈ values, Real64.value y < 2 ^ ((topPlane values).toInt + 1) := by
  intro x values
  obtain ⟨hone, hpow, hall⟩ := double_planes_exact
  have hx : x.isFinite = true ∧ 0 < x := by decide +kernel
  have hvalues : ∀ y ∈ values, y.isFinite = true ∧ 0 ≤ y := by decide +kernel
  have hsome : ∃ y ∈ values, 0 < y := ⟨x, by simp [values], hx.2⟩
  obtain ⟨-, -, hwithin⟩ := hall values hvalues hsome
  exact ⟨⟨hx.1, hx.2, hone x hx.1 hx.2⟩, by decide +kernel,
    ⟨by decide, by decide, (hpow (-1023) (by decide) (by decide)).2.1⟩, hvalues, hsome,
    by decide +kernel, fun y hy => (hwithin y hy).2⟩

end VolumeCodec
