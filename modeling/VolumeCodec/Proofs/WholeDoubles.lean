import VolumeCodec.Corrections
import VolumeCodec.Proofs.RealRoundTrip
import VolumeCodec.Proofs.RoundingErrors

namespace VolumeCodec

open Float.Model UnpackedFloat

namespace Real64

/-- A double that is a whole number. -/
def IsWhole (x : Float) (k : Nat) : Prop :=
  Counts x (k * 2 ^ 1074)

section Integers

variable {x : Float} {k : Nat}

theorem isUnits_whole (hk : k < 2 ^ 53) : IsUnits (k * 2 ^ 1074) := by
  refine isUnits_mul hk ?_
  by_cases hz : k = 0
  · rw [hz, Nat.zero_mul]
    decide
  · have hlog : k.log2 < 53 := (Nat.log2_lt hz).mpr hk
    rw [log2_mul_two_pow hz]
    omega

/-- An integer that is a double is converted to that double. -/
theorem isWhole_ofNat (hk : k < 2 ^ 64) (hu : IsUnits (k * 2 ^ 1074)) : IsWhole (ofNat k) k := by
  have hword : (UInt64.ofNat k).toNat = k := UInt64.toNat_ofNat_of_lt' hk
  have hdiv : k * 2 ^ 1074 / 2 ^ 1074 = k := Nat.mul_div_cancel k (by positivity)
  obtain ⟨x, hx⟩ := exists_counts hu
  have hof : UnpackedFloat.ofUInt64 .binary64 (UInt64.ofNat k) =
      unpacked .positive (k * 2 ^ 1074) := by
    unfold UnpackedFloat.ofUInt64 UnpackedFloat.ofNat UnpackedFloat.ofInt
    rw [hword]
    rcases Nat.eq_zero_or_pos k with rfl | hpos
    · rw [Nat.zero_mul, unpacked_zero]
      rfl
    · have h := normalize_eq (t := 1074) hu (by positivity)
        (Nat.dvd_mul_left _ _) .positive
      rw [hdiv] at h
      exact h
  have heq : ofNat k = x := hx.ofModel hof
  rwa [IsWhole, heq]

/-- A whole number is not changed by the conversion to an integer. -/
theorem IsWhole.toUInt64 (h : IsWhole x k) (hk : k < 2 ^ 64) : x.toUInt64.toNat = k := by
  have hround : UnpackedFloat.toInt 0 (UInt64.size - 1) x.toModel.unpack = k := by
    rw [h.unpack]
    rcases Nat.eq_zero_or_pos k with rfl | hpos
    · rw [Nat.zero_mul, unpacked_zero]
      rfl
    · have hn : 0 < k * 2 ^ 1074 := by positivity
      have hsplit := h.isUnits.div_mul
      rw [unpacked_of_pos _ hn]
      show UnpackedFloat.roundToInt .positive _ _ = _
      generalize k * 2 ^ 1074 / 2 ^ tail (k * 2 ^ 1074) = m at hsplit ⊢
      generalize tail (k * 2 ^ 1074) = t at hsplit ⊢
      unfold UnpackedFloat.roundToInt decreaseExponent shiftToExponent
      dsimp only
      rw [Nat.shiftLeft_eq, mantissa_shift, mantissa_ofMantissaAndAccuracy]
      show ((_ : Nat) : Int) = k
      rcases Nat.le_total 1074 t with hle | hle
      · have hup : (-1074 + (t : Int) - 0).toNat = t - 1074 := by omega
        have hdown : (0 - (-1074 + (t : Int) - ((t - 1074 : Nat) : Int))).toNat = 0 := by omega
        have hpow : m * 2 ^ (t - 1074) = k := by
          refine Nat.eq_of_mul_eq_mul_right (show 0 < 2 ^ 1074 by positivity) ?_
          rw [Nat.mul_assoc, ← Nat.pow_add, Nat.sub_add_cancel hle, hsplit]
        rw [hup, hdown, Nat.pow_zero, Nat.div_one, hpow]
      · have hup : (-1074 + (t : Int) - 0).toNat = 0 := by omega
        have hdown : (0 - (-1074 + (t : Int) - ((0 : Nat) : Int))).toNat = 1074 - t := by omega
        have hpow : m = k * 2 ^ (1074 - t) := by
          refine Nat.eq_of_mul_eq_mul_right (Nat.two_pow_pos t) ?_
          rw [Nat.mul_assoc, ← Nat.pow_add, Nat.sub_add_cancel hle, hsplit]
        rw [hup, hdown, Nat.pow_zero, Nat.mul_one, hpow,
          Nat.mul_div_cancel _ (Nat.two_pow_pos _)]
  show (UInt64.ofNatClamp
    (UnpackedFloat.toInt 0 (UInt64.size - 1) x.toModel.unpack).toNat).toNat = k
  rw [hround, Int.toNat_natCast, UInt64.ofNatClamp]
  exact congrArg UInt64.toNat (dif_pos hk)

theorem IsWhole.ofNat_toUInt64 (h : IsWhole x k) (hk : k < 2 ^ 64) :
    ofNat x.toUInt64.toNat = x := by
  rw [h.toUInt64 hk]
  exact (isWhole_ofNat hk h.isUnits).eq h

end Integers

section Rounding

variable {x : Float} {n : Nat}

theorem halfEven_bounds (n k : Nat) :
    n / 2 ^ k ≤ halfEven n k ∧ halfEven n k ≤ n / 2 ^ k + 1 := by
  unfold halfEven
  rw [Nat.one_shiftLeft]
  dsimp only
  split <;> omega

theorem halfEven_error (n k : Nat) : |(halfEven n k : ℚ) - n / 2 ^ k| ≤ 1 / 2 := by
  have hpos : (0 : ℚ) < (2 ^ k : Nat) := by exact_mod_cast Nat.two_pow_pos k
  have hsplit : (n : ℚ) = (2 ^ k : Nat) * (n / 2 ^ k : Nat) + (n % 2 ^ k : Nat) := by
    exact_mod_cast (Nat.div_add_mod n (2 ^ k)).symm
  have hrest : n % 2 ^ k < 2 ^ k := Nat.mod_lt n (Nat.two_pow_pos k)
  have hquotient : (n : ℚ) / 2 ^ k = (n / 2 ^ k : Nat) + (n % 2 ^ k : Nat) / (2 ^ k : Nat) := by
    rw [hsplit]
    push_cast at hpos ⊢
    field_simp
  rw [hquotient]
  unfold halfEven
  rw [Nat.one_shiftLeft]
  dsimp only
  generalize 2 ^ k = unit at *
  generalize n % unit = rest at *
  generalize n / unit = down at *
  rw [abs_le]
  split
  next h =>
    have hhalf : (rest : ℚ) / unit ≤ 1 / 2 := by
      rw [div_le_div_iff₀ hpos two_pos]
      exact_mod_cast (by omega : rest * 2 ≤ 1 * unit)
    have hnonneg : (0 : ℚ) ≤ rest / unit := by positivity
    constructor <;> linarith
  next h =>
    have hhalf : 1 / 2 ≤ (rest : ℚ) / unit := by
      rw [div_le_div_iff₀ two_pos hpos]
      exact_mod_cast (by omega : 1 * unit ≤ rest * 2)
    have hlt : (rest : ℚ) / unit < 1 := (div_lt_one hpos).mpr (by exact_mod_cast hrest)
    push_cast
    constructor <;> linarith

/-- A double that is no smaller than one is rounded to a whole number that is not zero, and no
farther than by a half. -/
theorem roundToEven_of_one_le (h : Counts x n) (hn : 2 ^ 1074 ≤ n) :
    ∃ k, 0 < k ∧ IsWhole (roundToEven x) k ∧ |(k : ℚ) - n / 2 ^ 1074| ≤ 1 / 2 := by
  have hfraction := fraction_lt x
  have hunits := h.units
  have hfield : 1023 ≤ exponentField x := by
    by_contra hlow
    have hlt : units x < 2 ^ 1074 := by
      by_cases hz : exponentField x = 0
      · rw [units_of_subnormal hz]
        exact Nat.lt_of_lt_of_le hfraction (Nat.pow_le_pow_right (n := 2) (by decide) (by omega))
      · rw [units_of_normal hz]
        calc (2 ^ 52 + fraction x) * 2 ^ (exponentField x - 1)
          _ < 2 ^ 53 * 2 ^ (exponentField x - 1) :=
            Nat.mul_lt_mul_of_pos_right (by omega) (Nat.two_pow_pos _)
          _ = 2 ^ (53 + (exponentField x - 1)) := (Nat.pow_add 2 53 _).symm
          _ ≤ 2 ^ 1074 := Nat.pow_le_pow_right (n := 2) (by decide) (by omega)
    omega
  rw [units_of_normal (by omega)] at hunits
  unfold roundToEven
  dsimp only
  by_cases hlarge : 1075 ≤ exponentField x
  · rw [if_pos hlarge]
    have hwhole : (2 ^ 52 + fraction x) * 2 ^ (exponentField x - 1075) * 2 ^ 1074 = n := by
      rw [Nat.mul_assoc, ← Nat.pow_add, show exponentField x - 1075 + 1074 =
        exponentField x - 1 by omega, hunits]
    generalize hk : (2 ^ 52 + fraction x) * 2 ^ (exponentField x - 1075) = k at hwhole
    have hpos : 0 < k := hk ▸ Nat.mul_pos (by omega) (Nat.two_pow_pos _)
    have hexact : (n : ℚ) / 2 ^ 1074 = k := by
      rw [← hwhole]
      push_cast
      exact mul_div_cancel_right₀ _ (by positivity)
    refine ⟨k, hpos, by rwa [IsWhole, hwhole], ?_⟩
    rw [hexact, sub_self, abs_zero]
    norm_num
  · have hnonneg := h.isNegative
    rw [isNegative, decide_eq_false_iff_not] at hnonneg
    have hsign : ¬1 <<< 63 ≤ x.toBits.toNat := hnonneg
    have hone : (1 <<< 52 : Nat) = 2 ^ 52 := rfl
    rw [if_neg hlarge, if_neg hsign, if_neg (by omega), hone, Nat.max_eq_left (by omega)]
    obtain ⟨hdown, hup⟩ := halfEven_bounds (2 ^ 52 + fraction x) (1075 - exponentField x)
    have hshift : 2 ^ (1075 - exponentField x) ≤ 2 ^ 52 :=
      Nat.pow_le_pow_right (by decide) (by omega)
    have hquotient : 1 ≤ (2 ^ 52 + fraction x) / 2 ^ (1075 - exponentField x) :=
      (Nat.one_le_div_iff (Nat.two_pow_pos _)).mpr (by omega)
    have hhalf : (2 ^ 52 + fraction x) / 2 ^ (1075 - exponentField x) ≤
        (2 ^ 52 + fraction x) / 2 ^ 1 :=
      Nat.div_le_div_left (Nat.pow_le_pow_right (by decide) (by omega)) (by decide)
    have hscale : (n : ℚ) / 2 ^ 1074 =
        (2 ^ 52 + fraction x : Nat) / 2 ^ (1075 - exponentField x) := by
      have hpow : (2 : ℚ) ^ 1074 = 2 ^ (exponentField x - 1) * 2 ^ (1075 - exponentField x) := by
        rw [← pow_add]
        congr 1
        omega
      rw [← hunits, hpow, Nat.cast_mul, Nat.cast_pow, Nat.cast_ofNat,
        mul_comm ((2 ^ 52 + fraction x : Nat) : ℚ)]
      exact mul_div_mul_left _ _ (by positivity)
    refine ⟨_, by omega, isWhole_ofNat (by omega) (isUnits_whole (by omega)), ?_⟩
    rw [hscale]
    exact halfEven_error _ _

end Rounding

section Arithmetic

variable {a b : Float} {m n q : Nat} {e : Int}

theorem pack_large {f : Nat} {e : Int} (hf : 0 < f) (he : 972 ≤ e) :
    Float.ofModel (Float.Model.pack (.finite .positive f e hf)) =
      Float.ofBits 0x7ff0000000000000 := by
  simp only [Float.Model.pack, pack_infinite hf he]
  rfl

/-- A packed double of 53 bits has as many units as its exponent says. -/
theorem counts_pack {f : Nat} {e : Int} (hf : 0 < f) (hlow : 2 ^ 52 ≤ f) (hhigh : f < 2 ^ 53)
    (he : -1074 ≤ e) (he' : e < 972) :
    Counts (Float.ofModel (Float.Model.pack (.finite .positive f e hf)))
      (f * 2 ^ (e + 1074).toNat) := by
  have hlog : f.log2 = 52 := (Nat.log2_eq_iff (by omega)).mpr ⟨hlow, hhigh⟩
  have htail := tail_mul (k := (e + 1074).toNat) hlow hhigh
  have hunits : IsUnits (f * 2 ^ (e + 1074).toNat) := by
    refine isUnits_mul hhigh ?_
    rw [log2_mul_two_pow (by omega), hlog]
    omega
  obtain ⟨x, hx⟩ := exists_counts hunits
  have heq : unpacked .positive (f * 2 ^ (e + 1074).toNat) = .finite .positive f e hf := by
    refine unpacked_eq hf ?_ ?_
    · rw [htail, Nat.mul_div_cancel _ (Nat.two_pow_pos _)]
    · rw [htail]
      omega
  have hpack := hx.ofModel heq.symm
  rwa [hpack]

/-- The quotient of two mantissas is computed to 53 bits or more, and cut off behind them. -/
theorem divCore_of_le {m n : Nat} {t u : Nat} (hm : 0 < m) (hn : 0 < n)
    (hle : n * 2 ^ u ≤ m * 2 ^ t) : ∃ q e acc, ∃ v : ℚ,
    divCore .binary64 m (-1074 + t) n (-1074 + u) = (q, e, acc) ∧ 2 ^ 52 ≤ q ∧ 0 ≤ e + q.log2 ∧
      IsCut (.ofMantissaAndAccuracy q acc) v ∧
      v * 2 ^ e = ((m * 2 ^ t : Nat) : ℚ) / (n * 2 ^ u : Nat) := by
  have hlog : n.log2 + u ≤ m.log2 + t := by
    rw [← log2_mul_two_pow (by omega), ← log2_mul_two_pow (by omega)]
    exact log2_mono hle
  have htarget : min (-1074 + (t : Int) - (-1074 + u)) (Format.binary64.targetExponent
      (totalExponent m (-1074 + t) - totalExponent n (-1074 + u))) =
      min ((t : Int) - u) (m.log2 + t - (n.log2 + u) - 53) := by
    show min _ (max (_ - (53 : Int)) (-1074)) = _
    unfold totalExponent
    omega
  unfold divCore
  rw [htarget]
  dsimp only
  obtain ⟨e, he⟩ : ∃ e : Int, e = min ((t : Int) - u) (m.log2 + t - (n.log2 + u) - 53) := ⟨_, rfl⟩
  obtain ⟨s, hs⟩ : ∃ s : Nat, s = (-1074 + (t : Int) - (-1074 + u) - e).toNat := ⟨_, rfl⟩
  rw [← he, ← hs, Nat.shiftLeft_eq]
  have hhigh := Nat.lt_log2_self (n := n)
  have hlow := Nat.log2_self_le (n := m) (by omega)
  have hq : 2 ^ 52 ≤ m * 2 ^ s / n := by
    rw [Nat.le_div_iff_mul_le hn]
    calc 2 ^ 52 * n
      _ ≤ 2 ^ 52 * 2 ^ (n.log2 + 1) := Nat.mul_le_mul_left _ (Nat.le_of_lt hhigh)
      _ = 2 ^ (52 + (n.log2 + 1)) := (Nat.pow_add 2 _ _).symm
      _ ≤ 2 ^ (m.log2 + s) := Nat.pow_le_pow_right (by decide) (by omega)
      _ = 2 ^ m.log2 * 2 ^ s := Nat.pow_add 2 _ _
      _ ≤ m * 2 ^ s := Nat.mul_le_mul_right _ hlow
  refine ⟨_, e, _, _, rfl, hq, ?_, isCut_div (m * 2 ^ s) hn, ?_⟩
  · by_cases hneg : 0 ≤ e
    · omega
    · -- Of an exponent below zero the quotient has the bits that it takes to be one.
      have hone : 2 ^ (-e).toNat ≤ m * 2 ^ s / n := by
        rw [Nat.le_div_iff_mul_le hn]
        refine Nat.le_of_mul_le_mul_right ?_ (Nat.two_pow_pos u)
        calc 2 ^ (-e).toNat * n * 2 ^ u
          _ = n * 2 ^ u * 2 ^ (-e).toNat := by ring
          _ ≤ m * 2 ^ t * 2 ^ (-e).toNat := Nat.mul_le_mul_right _ hle
          _ = m * 2 ^ (t + (-e).toNat) := by rw [Nat.mul_assoc, ← Nat.pow_add]
          _ = m * 2 ^ (s + u) := by rw [show t + (-e).toNat = s + u by omega]
          _ = m * 2 ^ s * 2 ^ u := by rw [Nat.pow_add, Nat.mul_assoc]
      have hbits := (Nat.le_log2 (by omega)).mpr hone
      omega
  · have hexponent : (2 : ℚ) ^ s * 2 ^ e * 2 ^ u = 2 ^ t := by
      have htwo : (2 : ℚ) ≠ 0 := two_ne_zero
      rw [← zpow_natCast, ← zpow_natCast, ← zpow_natCast, ← zpow_add₀ htwo, ← zpow_add₀ htwo]
      congr 1
      omega
    have hn' : (n : ℚ) ≠ 0 := by positivity
    push_cast
    rw [← hexponent]
    field_simp

/-- A quotient of two doubles is no smaller than one if the first is no smaller than the second, and
it is off by no more than half a unit of its last bit. -/
theorem div_of_le (ha : Counts a m) (hb : Counts b n) (hn : 0 < n) (hle : n ≤ m) :
    a / b = Float.ofBits 0x7ff0000000000000 ∨ ∃ q, 2 ^ 1074 ≤ q ∧ Counts (a / b) q ∧
      |(q : ℚ) / 2 ^ 1074 - m / n| ≤ (m / n : ℚ) / 2 ^ 53 := by
  have hm : 0 < m := by omega
  have hdiv : a / b = Float.ofModel (Float.Model.pack
      (UnpackedFloat.div .binary64 (unpacked .positive m) (unpacked .positive n))) := by
    rw [← ha.unpack, ← hb.unpack]
    rfl
  rw [unpacked_of_pos _ hm, unpacked_of_pos _ hn] at hdiv
  obtain ⟨q, e, acc, v, hcore, hq, he, hcut, hvalue⟩ := divCore_of_le (div_tail_pos hm)
    (div_tail_pos hn) (t := tail m) (u := tail n) (by rwa [ha.isUnits.div_mul, hb.isUnits.div_mul])
  rw [ha.isUnits.div_mul, hb.isUnits.div_mul] at hvalue
  obtain ⟨f, k, hf, hround, hlow, hhigh, hk, herror⟩ :=
    roundWithAccuracy_error (e := e) hcut hq (by omega)
  have hlog : 52 ≤ q.log2 := (Nat.le_log2 (by omega)).mpr hq
  have htail : tail q = q.log2 - 52 := rfl
  have hquotient : a / b = Float.ofModel (Float.Model.pack (.finite .positive f (e + k) hf)) := by
    rw [hdiv, ← hround]
    unfold UnpackedFloat.div
    dsimp only
    rw [hcore]
    rfl
  by_cases hlarge : 972 ≤ e + k
  · exact .inl (hquotient.trans (pack_large hf hlarge))
  · refine .inr ⟨_, ?_, hquotient ▸ counts_pack hf hlow hhigh (by omega) (by omega), ?_⟩
    · calc 2 ^ 1074
        _ ≤ 2 ^ (52 + (e + k + 1074).toNat) := by gcongr <;> omega
        _ = 2 ^ 52 * 2 ^ (e + k + 1074).toNat := Nat.pow_add 2 _ _
        _ ≤ f * 2 ^ (e + k + 1074).toNat := Nat.mul_le_mul_right _ hlow
    · have hpos : (0 : ℚ) < 2 ^ e := by positivity
      rw [units_div (by omega), ← hvalue, ← sub_mul, abs_mul, abs_of_pos hpos]
      calc |(f : ℚ) * 2 ^ k - v| * 2 ^ e
        _ ≤ v / 2 ^ 53 * 2 ^ e :=
          mul_le_mul_of_nonneg_right (herror.trans (hcut.half_unit_le hq)) hpos.le
        _ = v * 2 ^ e / 2 ^ 53 := by ring

/-- What is packed as infinity is beyond the largest double, in units. -/
theorem le_of_large {f j : Nat} (hlow : 2 ^ 52 ≤ f) (he : 972 ≤ e + j) :
    2 ^ 53 * (2 : ℚ) ^ 2045 ≤ f * 2 ^ j * (2 ^ e * 2 ^ 1074) := by
  have hmantissa : (2 : ℚ) ^ 52 ≤ f := by exact_mod_cast hlow
  have hexponent : (2 : ℚ) ^ 2046 ≤ 2 ^ j * (2 ^ e * 2 ^ 1074) := by
    have htwo : (2 : ℚ) ≠ 0 := two_ne_zero
    rw [← zpow_natCast, ← zpow_natCast, ← zpow_natCast, ← zpow_add₀ htwo, ← zpow_add₀ htwo]
    exact zpow_le_zpow_right₀ one_le_two (by omega)
  calc 2 ^ 53 * (2 : ℚ) ^ 2045
    _ = 2 ^ 52 * 2 ^ 2046 := by rw [pow_succ' _ 2045, ← mul_assoc, ← pow_succ]
    _ ≤ f * (2 ^ j * (2 ^ e * 2 ^ 1074)) :=
      mul_le_mul hmantissa hexponent (by positivity) (by positivity)
    _ = f * 2 ^ j * (2 ^ e * 2 ^ 1074) := (mul_assoc _ _ _).symm

/-- In the range of the normal doubles a number of units is rounded to 53 bits. -/
theorem round_units_normal {p s : Nat} (hp : 2 ^ 52 ≤ p) (hs : p * 2 ^ s = n * 2 ^ 1074)
    (hnormal : 1127 ≤ s + p.log2) :
    let x := Float.ofModel (Float.Model.pack
      (roundWithAccuracy .binary64 .positive p (-2148 + s) .exact))
    (∃ d, Counts x d ∧ |(d : ℚ) - n| ≤ (n : ℚ) / 2 ^ 53) ∨
      x = Float.ofBits 0x7ff0000000000000 ∧ (2 ^ 53 - 1) * 2 ^ 2045 < (n : ℚ) := by
  intro x
  have hlog : 52 ≤ p.log2 := (Nat.le_log2 (by omega)).mpr hp
  have htail : tail p = p.log2 - 52 := rfl
  obtain ⟨e, he⟩ : ∃ e : Int, e = -2148 + s := ⟨_, rfl⟩
  obtain ⟨f, j, hf, hround, hlow, hhigh, hj, herror⟩ :=
    roundWithAccuracy_error (e := e) (isCut_exact p) hp (by omega)
  have hunits : (p : ℚ) * (2 ^ e * 2 ^ 1074) = n := by
    have hs' : (p : ℚ) * 2 ^ s = n * 2 ^ 1074 := by exact_mod_cast hs
    have hexponent : (2 : ℚ) ^ e * 2 ^ 1074 * 2 ^ 1074 = 2 ^ s := by
      have htwo : (2 : ℚ) ≠ 0 := two_ne_zero
      rw [← zpow_natCast, ← zpow_natCast, ← zpow_add₀ htwo, ← zpow_add₀ htwo]
      congr 1
      omega
    refine mul_right_cancel₀ (show (2 : ℚ) ^ 1074 ≠ 0 by positivity) ?_
    rw [mul_assoc, hexponent, hs']
  have hnear : |(f : ℚ) * 2 ^ j * (2 ^ e * 2 ^ 1074) - n| ≤ (n : ℚ) / 2 ^ 53 := by
    have hpos : (0 : ℚ) < 2 ^ e * 2 ^ 1074 := by positivity
    rw [← hunits, ← sub_mul, abs_mul, abs_of_pos hpos, mul_div_right_comm]
    exact mul_le_mul_of_nonneg_right (herror.trans ((isCut_exact p).half_unit_le hp)) hpos.le
  have hx : x = Float.ofModel (Float.Model.pack (.finite .positive f (e + j) hf)) := by
    rw [← hround, he]
  by_cases hinfinite : 972 ≤ e + j
  · refine .inr ⟨hx.trans (pack_large hf hinfinite), ?_⟩
    have hbeyond := le_of_large hlow hinfinite
    have hclose := (abs_le.mp hnear).2
    have hunit : (0 : ℚ) < 2 ^ 2045 := by positivity
    generalize (2 : ℚ) ^ 2045 = unit at *
    linarith
  · refine .inl ⟨_, hx ▸ counts_pack hf hlow hhigh (by omega) (by omega), ?_⟩
    have hvalue := units_div (f := f) (k := j) (e := e) (by omega)
    rw [div_eq_iff (by positivity), mul_assoc] at hvalue
    rwa [hvalue]

/-- Below the normal doubles a number of units has so few bits that all of them are kept. -/
theorem round_units_subnormal {p s : Nat} (hn : 0 < n) (hp : 2 ^ 52 ≤ p)
    (hs : p * 2 ^ s = n * 2 ^ 1074) (hlow : s + p.log2 < 1127) :
    Counts (Float.ofModel (Float.Model.pack
      (roundWithAccuracy .binary64 .positive p (-2148 + s) .exact))) n := by
  have hlog : 52 ≤ p.log2 := (Nat.le_log2 (by omega)).mpr hp
  have hsplit : p = n * 2 ^ (1074 - s) := by
    refine Nat.eq_of_mul_eq_mul_right (Nat.two_pow_pos s) ?_
    rw [hs, Nat.mul_assoc, ← Nat.pow_add, Nat.sub_add_cancel (by omega)]
  have hbits : p.log2 = n.log2 + (1074 - s) := by
    rw [hsplit, log2_mul_two_pow (by omega)]
  have hfew : n < 2 ^ 53 := (Nat.log2_lt (by omega)).mp (by omega)
  have hexcess : excess (n * 2 ^ (1074 - s)) (-2148 + s) = 1074 - s := by
    rw [← hsplit, excess_eq]
    omega
  have heq : unpacked .positive n = .finite .positive n (-1074) hn := by
    refine unpacked_eq hn ?_ ?_
    · rw [tail_of_lt hfew, Nat.pow_zero, Nat.div_one]
    · rw [tail_of_lt hfew]
      rfl
  obtain ⟨x, hx⟩ := exists_counts (isUnits_of_lt hfew)
  have hexponent : -2148 + (s : Int) + (1074 - s : Nat) = -1074 := by omega
  rw [hsplit, roundWithAccuracy_eq .positive hn hexcess hexponent (excess_of_le hfew (by omega)),
    hx.ofModel heq.symm]
  exact hx

/-- A product with a whole number is off by no more than half a unit of its last bit, unless it is
beyond the largest double. -/
theorem mul_whole {k : Nat} (ha : Counts a m) (hb : IsWhole b k) (hm : 0 < m) (hk : 0 < k) :
    (∃ d, Counts (a * b) d ∧ |(d : ℚ) - (m * k : Nat)| ≤ ((m * k : Nat) : ℚ) / 2 ^ 53) ∨
      a * b = Float.ofBits 0x7ff0000000000000 ∧ (2 ^ 53 - 1) * 2 ^ 2045 < ((m * k : Nat) : ℚ) := by
  have hlarge : 2 ^ 52 ≤ k * 2 ^ 1074 :=
    Nat.le_trans (by decide +kernel) (Nat.mul_le_mul_right (2 ^ 1074) hk)
  have hmul : a * b = Float.ofModel (Float.Model.pack
      (UnpackedFloat.mul .binary64 (unpacked .positive m) (unpacked .positive (k * 2 ^ 1074)))) := by
    rw [← ha.unpack, ← hb.unpack]
    rfl
  have hp : 2 ^ 52 ≤ m / 2 ^ tail m * (k * 2 ^ 1074 / 2 ^ tail (k * 2 ^ 1074)) :=
    Nat.le_trans (le_div_tail hlarge) (Nat.le_mul_of_pos_left _ (div_tail_pos hm))
  have hs : m / 2 ^ tail m * (k * 2 ^ 1074 / 2 ^ tail (k * 2 ^ 1074)) *
      2 ^ (tail m + tail (k * 2 ^ 1074)) = m * k * 2 ^ 1074 := by
    rw [Nat.pow_add, Nat.mul_mul_mul_comm, ha.isUnits.div_mul, IsUnits.div_mul hb.isUnits,
      Nat.mul_assoc]
  have hexponent : -1074 + (tail m : Int) + (-1074 + tail (k * 2 ^ 1074)) =
      -2148 + ((tail m + tail (k * 2 ^ 1074) : Nat) : Int) := by omega
  rw [unpacked_of_pos _ hm, unpacked_of_pos _ (by positivity)] at hmul
  change a * b = Float.ofModel (Float.Model.pack (roundWithAccuracy .binary64 .positive _ _ .exact))
    at hmul
  rw [hmul, hexponent]
  by_cases hnormal : 1127 ≤ tail m + tail (k * 2 ^ 1074) +
      (m / 2 ^ tail m * (k * 2 ^ 1074 / 2 ^ tail (k * 2 ^ 1074))).log2
  · exact round_units_normal hp hs hnormal
  · refine .inl ⟨m * k, round_units_subnormal (Nat.mul_pos hm hk) hp hs (by omega), ?_⟩
    rw [sub_self, abs_zero]
    positivity

theorem counts_of_zero_lt {x : Float} (h : x.isFinite = true) (hpos : 0 < x) :
    Counts x (units x) ∧ 0 < units x := by
  rw [zero_lt_iff, unpack_eq h, sign_eq] at hpos
  rcases Nat.eq_zero_or_pos (units x) with hz | hunits
  · rw [hz, unpacked_zero] at hpos
    cases hpos
  · rw [unpacked_of_pos _ hunits] at hpos
    cases hneg : isNegative x with
    | false => exact ⟨⟨h, hneg, rfl⟩, hunits⟩
    | true =>
      rw [hneg] at hpos
      cases hpos

end Arithmetic

end Real64

open Real64

theorem not_abs_lt_iff {tolerance error : Float} (ht : isTolerance tolerance = true)
    (he : error.isFinite = true) : ¬error.abs < tolerance ↔ tolerance ≤ error.abs := by
  rw [isTolerance, Bool.and_eq_true, decide_eq_true_eq] at ht
  obtain ⟨htolerance, -⟩ := counts_of_zero_lt ht.1 ht.2
  have herror := counts_abs he
  rw [herror.lt_iff htolerance, htolerance.le_iff herror, Nat.not_lt]

/-- The multiple of the tolerance that stands for an error is a whole number that is not zero: the
quotient is rounded to a double first, and that double to the nearest integer. -/
theorem Corrections.multiple_rounded {tolerance error : Float} (ht : isTolerance tolerance = true)
    (he : error.isFinite = true) (hle : tolerance ≤ error.abs)
    (hlt : ¬pow2 64 ≤ multiple tolerance error) :
    ∃ k q : Nat, 0 < k ∧ k < 2 ^ 64 ∧ IsWhole (multiple tolerance error) k ∧
      |(q : ℚ) / 2 ^ 1074 - units error / units tolerance| ≤
        (units error / units tolerance : ℚ) / 2 ^ 53 ∧
      |(k : ℚ) - q / 2 ^ 1074| ≤ 1 / 2 := by
  rw [isTolerance, Bool.and_eq_true, decide_eq_true_eq] at ht
  obtain ⟨htolerance, hpos⟩ := counts_of_zero_lt ht.1 ht.2
  have herror := counts_abs he
  have hunits := (htolerance.le_iff herror).mp hle
  rcases div_of_le herror htolerance hpos hunits with hinfinite | ⟨q, hq, hquotient, hclose⟩
  · exfalso
    apply hlt
    rw [multiple, hinfinite]
    decide +kernel
  · obtain ⟨k, hk, hwhole, hnearest⟩ := roundToEven_of_one_le hquotient hq
    have hlimit : Counts (pow2 64) (2 ^ (64 + 1074)) :=
      counts_pow2 (show 64 + 1074 ≤ 2097 by decide)
    have hsmall : k < 2 ^ 64 := by
      by_contra hlarge
      refine hlt ((hlimit.le_iff hwhole).mpr ?_)
      rw [Nat.pow_add]
      exact Nat.mul_le_mul_right (2 ^ 1074) (Nat.not_lt.mp hlarge)
    exact ⟨k, q, hk, hsmall, hwhole, hclose, hnearest⟩

/-- An error that is no smaller than the tolerance measures a whole number of tolerances that is not
zero, and none is lost when the number is kept as an integer. -/
theorem Corrections.multiple_spec {tolerance error : Float} (ht : isTolerance tolerance = true)
    (he : error.isFinite = true) (hle : tolerance ≤ error.abs)
    (hlt : ¬pow2 64 ≤ multiple tolerance error) :
    0 < (multiple tolerance error).toUInt64.toNat ∧
      Real64.ofNat (multiple tolerance error).toUInt64.toNat = multiple tolerance error := by
  obtain ⟨k, -, hk, hsmall, hwhole, -⟩ := multiple_rounded ht he hle hlt
  exact ⟨hwhole.toUInt64 hsmall ▸ hk, hwhole.ofNat_toUInt64 hsmall⟩

end VolumeCodec
