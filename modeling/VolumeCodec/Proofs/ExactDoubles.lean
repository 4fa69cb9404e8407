import VolumeCodec.Proofs.ExactPlanes
import VolumeCodec.Proofs.RealArithmetic

namespace VolumeCodec

open Float.Model UnpackedFloat

namespace Real64

/-- The magnitude of a double, as a number of units of `2 ^ -1074`. -/
def units (x : Float) : Nat :=
  if exponentField x = 0 then fraction x
  else (2 ^ 52 + fraction x) * 2 ^ (exponentField x - 1)

def isNegative (x : Float) : Bool :=
  decide (2 ^ 63 ≤ x.toBits.toNat)

/-- The number of bits behind the highest 53. -/
def tail (n : Nat) : Nat :=
  n.log2 - 52

/-- The magnitudes of finite doubles: there is nothing behind the highest 53 bits. -/
structure IsUnits (n : Nat) : Prop where
  dvd : 2 ^ tail n ∣ n
  log2_lt : n.log2 < 2098

section Units

variable {m n k : Nat}

theorem log2_mul_two_pow (hm : m ≠ 0) : (m * 2 ^ k).log2 = m.log2 + k := by
  have hpos := Nat.two_pow_pos k
  refine (Nat.log2_eq_iff (by positivity)).mpr ⟨?_, ?_⟩
  · rw [Nat.pow_add]
    exact Nat.mul_le_mul_right _ (Nat.log2_self_le hm)
  · rw [Nat.add_right_comm, Nat.pow_add]
    exact Nat.mul_lt_mul_of_pos_right Nat.lt_log2_self hpos

theorem log2_mono (h : m ≤ n) : m.log2 ≤ n.log2 := by
  rcases Nat.eq_zero_or_pos m with rfl | hpos
  · exact Nat.zero_le _
  · exact (Nat.le_log2 (by omega)).mpr (Nat.le_trans (Nat.log2_self_le (by omega)) h)

theorem isUnits_mul (hm : m < 2 ^ 53) (h : (m * 2 ^ k).log2 < 2098) : IsUnits (m * 2 ^ k) := by
  refine ⟨?_, h⟩
  by_cases hz : m = 0
  · rw [hz, Nat.zero_mul]
    exact Nat.dvd_zero _
  · have hlog : m.log2 < 53 := (Nat.log2_lt hz).mpr hm
    refine Nat.dvd_trans (Nat.pow_dvd_pow 2 ?_) (Nat.dvd_mul_left (2 ^ k) m)
    rw [tail, log2_mul_two_pow hz]
    omega

theorem tail_of_lt (hn : n < 2 ^ 53) : tail n = 0 := by
  by_cases hz : n = 0
  · rw [hz]
    rfl
  · have hlog : n.log2 < 53 := (Nat.log2_lt hz).mpr hn
    rw [tail]
    omega

theorem isUnits_of_lt (hn : n < 2 ^ 53) : IsUnits n := by
  refine ⟨?_, ?_⟩
  · rw [tail_of_lt hn]
    exact Nat.one_dvd n
  · by_cases hz : n = 0
    · rw [hz]
      decide
    · exact Nat.lt_trans ((Nat.log2_lt hz).mpr hn) (by decide)

theorem tail_mul (hlow : 2 ^ 52 ≤ m) (hhigh : m < 2 ^ 53) : tail (m * 2 ^ k) = k := by
  have hlog : m.log2 = 52 := (Nat.log2_eq_iff (by omega)).mpr ⟨hlow, hhigh⟩
  rw [tail, log2_mul_two_pow (by omega), hlog, Nat.add_sub_cancel_left]

theorem div_tail_lt (n : Nat) : n / 2 ^ tail n < 2 ^ 53 := by
  refine Nat.div_lt_of_lt_mul ?_
  rw [← Nat.pow_add]
  refine Nat.lt_of_lt_of_le Nat.lt_log2_self (Nat.pow_le_pow_right (by decide) ?_)
  rw [tail]
  omega

theorem le_div_tail (hn : 2 ^ 52 ≤ n) : 2 ^ 52 ≤ n / 2 ^ tail n := by
  have hlog : 52 ≤ n.log2 := (Nat.le_log2 (by omega)).mpr hn
  rw [Nat.le_div_iff_mul_le (Nat.two_pow_pos _), ← Nat.pow_add, tail, Nat.add_sub_cancel' hlog]
  exact Nat.log2_self_le (by omega)

theorem IsUnits.div_mul (h : IsUnits n) : n / 2 ^ tail n * 2 ^ tail n = n :=
  Nat.div_mul_cancel h.dvd

theorem IsUnits.tail_le (h : IsUnits n) : tail n ≤ 2045 :=
  Nat.sub_le_sub_right (Nat.le_of_lt_succ h.log2_lt) 52

/-- Cutting off bits above or below a plane leaves no more bits than before. -/
theorem IsUnits.cut (h : IsUnits n) (e : Nat) : IsUnits (n % 2 ^ e) ∧ IsUnits (n - n % 2 ^ e) := by
  have hlt := h.log2_lt
  have hsplit := h.div_mul
  have hmantissa := div_tail_lt n
  generalize n / 2 ^ tail n = m at hsplit hmantissa
  generalize tail n = k at hsplit
  subst hsplit
  rcases Nat.le_total e k with hek | hke
  · have hz : m * 2 ^ k % 2 ^ e = 0 :=
      Nat.mod_eq_zero_of_dvd (Nat.dvd_trans (Nat.pow_dvd_pow 2 hek) (Nat.dvd_mul_left _ _))
    rw [hz, Nat.sub_zero]
    exact ⟨⟨Nat.dvd_zero _, by decide⟩, h⟩
  · have hpow : 2 ^ e = 2 ^ (e - k) * 2 ^ k := by rw [← Nat.pow_add, Nat.sub_add_cancel hke]
    have hsmaller : ∀ m' ≤ m, IsUnits (m' * 2 ^ k) := fun m' hm' =>
      isUnits_mul (Nat.lt_of_le_of_lt hm' hmantissa)
        (Nat.lt_of_le_of_lt (log2_mono (Nat.mul_le_mul_right _ hm')) hlt)
    rw [hpow, Nat.mul_mod_mul_right, ← Nat.sub_mul]
    exact ⟨hsmaller _ (Nat.mod_le _ _), hsmaller _ (Nat.sub_le _ _)⟩

end Units

section Unpacked

variable {m n k : Nat} {s : Sign}

/-- The number with so many units of the lowest plane, as the model unpacks it. -/
def unpacked (s : Sign) (n : Nat) : UnpackedFloat :=
  if h : 0 < n / 2 ^ tail n then .finite s (n / 2 ^ tail n) (-1074 + tail n) h else .zero s

theorem div_tail_pos (hn : 0 < n) : 0 < n / 2 ^ tail n := by
  have hle : 2 ^ tail n ≤ n := by
    refine Nat.le_trans (Nat.pow_le_pow_right (by decide) ?_) (Nat.log2_self_le (by omega))
    exact Nat.sub_le _ _
  exact Nat.div_pos hle (Nat.two_pow_pos _)

@[simp] theorem unpacked_zero (s : Sign) : unpacked s 0 = .zero s := by
  simp [unpacked]

theorem unpacked_of_pos (s : Sign) (hn : 0 < n) :
    unpacked s n = .finite s (n / 2 ^ tail n) (-1074 + tail n) (div_tail_pos hn) :=
  dif_pos _

theorem unpacked_eq {e : Int} (h : 0 < m) (hm : n / 2 ^ tail n = m) (he : -1074 + tail n = e) :
    unpacked s n = .finite s m e h := by
  subst hm he
  exact dif_pos h

theorem unpacked_inj {s' : Sign} (hm : IsUnits m) (hn : IsUnits n)
    (h : unpacked s m = unpacked s' n) : s = s' ∧ m = n := by
  rcases Nat.eq_zero_or_pos m with rfl | hmpos <;> rcases Nat.eq_zero_or_pos n with rfl | hnpos
  · rw [unpacked_zero, unpacked_zero, UnpackedFloat.zero.injEq] at h
    exact ⟨h, rfl⟩
  · rw [unpacked_zero, unpacked_of_pos s' hnpos] at h
    cases h
  · rw [unpacked_zero, unpacked_of_pos s hmpos] at h
    cases h
  · rw [unpacked_of_pos s hmpos, unpacked_of_pos s' hnpos, UnpackedFloat.finite.injEq] at h
    obtain ⟨hsign, hmantissa, hexponent⟩ := h
    have htail : tail m = tail n := by omega
    refine ⟨hsign, ?_⟩
    rw [← hm.div_mul, ← hn.div_mul, hmantissa, htail]

end Unpacked

section Fields

variable {x : Float} {n : Nat}

theorem toNat_unpackMantissa (x : Float) : (unpackMantissa (pattern x)).toNat = fraction x := by
  simp only [unpackMantissa, BitVec.toNat_cast, BitVec.extractLsb_toNat, pattern, fraction]
  rfl

/-- The sign of a double, as the model has it. -/
def sign (x : Float) : Sign :=
  Sign.ofBitVec (unpackSign (pattern x))

theorem toNat_unpackSign (x : Float) : (unpackSign (pattern x)).toNat = x.toBits.toNat >>> 63 := by
  have hlt := x.toBits.toNat_lt
  simp only [unpackSign, BitVec.toNat_cast, BitVec.extractLsb_toNat, pattern]
  show x.toBits.toNat >>> 63 % 2 ^ 1 = _
  rw [Nat.shiftRight_eq_div_pow, Nat.mod_eq_of_lt (by omega)]

theorem sign_eq (x : Float) : sign x = if isNegative x then .negative else .positive := by
  have hbit := toNat_unpackSign x
  have hlt := x.toBits.toNat_lt
  have hzero : unpackSign (pattern x) = 0#1 ↔ isNegative x = false := by
    rw [← BitVec.toNat_inj, hbit, Nat.shiftRight_eq_div_pow, isNegative, decide_eq_false_iff_not]
    show x.toBits.toNat / 2 ^ 63 = 0 ↔ _
    omega
  unfold sign Sign.ofBitVec
  simp only [hzero]
  cases isNegative x <;> rfl

theorem units_of_subnormal (h : exponentField x = 0) : units x = fraction x :=
  if_pos h

theorem units_of_normal (h : exponentField x ≠ 0) :
    units x = (2 ^ 52 + fraction x) * 2 ^ (exponentField x - 1) :=
  if_neg h

theorem isUnits_units (h : x.isFinite = true) : IsUnits (units x) := by
  have hfield := exponentField_of_isFinite h
  have hfraction := fraction_lt x
  by_cases hz : exponentField x = 0
  · rw [units_of_subnormal hz]
    exact isUnits_of_lt (by omega)
  · have hlog : (2 ^ 52 + fraction x).log2 = 52 :=
      (Nat.log2_eq_iff (by omega)).mpr ⟨by omega, by omega⟩
    rw [units_of_normal hz]
    refine isUnits_mul (by omega) ?_
    rw [log2_mul_two_pow (by omega)]
    omega

/-- The model reads the number of units of a double off its fields. -/
theorem unpack_eq (h : x.isFinite = true) : x.toModel.unpack = unpacked (sign x) (units x) := by
  have hfield := exponentField_of_isFinite h
  have hfraction := fraction_lt x
  have hexponent := toNat_unpackExponent x
  have hmantissa := toNat_unpackMantissa x
  have hmax : unpackExponent (pattern x) ≠ -1#11 := fun he => by
    rw [he] at hexponent
    change 2047 = _ at hexponent
    omega
  show UnpackedFloat.unpack .binary64 (pattern x) = _
  by_cases hz : exponentField x = 0
  · have hsub : unpackExponent (pattern x) = 0#11 := BitVec.eq_of_toNat_eq (hexponent.trans hz)
    rw [units_of_subnormal hz]
    rcases Nat.eq_zero_or_pos (fraction x) with hnone | hsome
    · have hempty : unpackMantissa (pattern x) = 0#52 :=
        BitVec.eq_of_toNat_eq (hmantissa.trans hnone)
      rw [hnone, unpacked_zero]
      unfold UnpackedFloat.unpack
      dsimp only
      rw [if_neg hmax, if_pos hsub, dif_pos hempty]
      rfl
    · have htail := tail_of_lt (n := fraction x) (by omega)
      rw [unpack_subnormal hsub (by rw [hmantissa]; exact hsome)]
      refine (unpacked_eq _ ?_ ?_).symm
      · rw [htail, Nat.pow_zero, Nat.div_one, hmantissa]
      · rw [htail]
        rfl
  · have hnormal : unpackExponent (pattern x) ≠ 0#11 := fun he => hz (by
      rw [← hexponent, he]
      rfl)
    have htail := tail_mul (m := 2 ^ 52 + fraction x) (k := exponentField x - 1) (by omega)
      (by omega)
    rw [unpack_normal hnormal hmax, units_of_normal hz]
    refine (unpacked_eq _ ?_ ?_).symm
    · rw [htail, Nat.mul_div_cancel _ (Nat.two_pow_pos _), hmantissa]
    · rw [htail, hexponent]
      omega

theorem fields_of_unpack {s : Sign} (hn : IsUnits n) (h : x.toModel.unpack = unpacked s n) :
    x.isFinite = true ∧ sign x = s ∧ units x = n := by
  have hfinite : x.isFinite = true := by
    show x.toModel.unpack.isFinite = true
    rw [h, unpacked]
    split <;> rfl
  exact ⟨hfinite, unpacked_inj (isUnits_units hfinite) hn ((unpack_eq hfinite).symm.trans h)⟩

end Fields

/-- A double that is not negative, and so many units. -/
structure Counts (x : Float) (n : Nat) : Prop where
  isFinite : x.isFinite = true
  isNegative : isNegative x = false
  units : units x = n

section Patterns

variable {n : Nat}

/-- A double is given by its sign and its fields. -/
theorem fields_ofBits {s : Bool} {e f : Nat} {bits : UInt64} (he : e ≤ 2046) (hf : f < 2 ^ 52)
    (h : bits.toNat = s.toNat * 2 ^ 63 + (e * 2 ^ 52 + f)) :
    (Float.ofBits bits).isFinite = true ∧ isNegative (Float.ofBits bits) = s ∧
      exponentField (Float.ofBits bits) = e ∧ fraction (Float.ofBits bits) = f := by
  have hs : s.toNat ≤ 1 := Bool.toNat_le s
  have hexp : (@unpackExponent .binary64 bits.toBitVec).toNat = e := by
    simp only [unpackExponent, BitVec.toNat_cast, BitVec.extractLsb_toNat]
    show bits.toNat >>> 52 % 2 ^ 11 = e
    rw [h, Nat.shiftRight_eq_div_pow]
    omega
  have hmax : @unpackExponent .binary64 bits.toBitVec ≠ -1#11 := fun hm => by
    rw [hm] at hexp
    change 2047 = e at hexp
    omega
  have hbits : (Float.ofBits bits).toBits = bits := toBits_ofBits ⟨fun hm => absurd hm hmax⟩
  have hfield : exponentField (Float.ofBits bits) = e := by
    rw [exponentField, hbits, h, Nat.shiftRight_eq_div_pow]
    show (s.toNat * 2 ^ 63 + (e * 2 ^ 52 + f)) / 2 ^ 52 % 2 ^ 11 = e
    omega
  refine ⟨(isFinite_iff _).mpr (by omega), ?_, hfield, ?_⟩
  · rw [isNegative, hbits, h]
    cases s
    · exact decide_eq_false (by rw [Bool.toNat_false]; omega)
    · exact decide_eq_true (by rw [Bool.toNat_true]; omega)
  · rw [fraction, hbits, h]
    show (s.toNat * 2 ^ 63 + (e * 2 ^ 52 + f)) % 2 ^ 52 = f
    omega

/-- Every magnitude of a double is that of one of either sign. -/
theorem exists_units (s : Bool) (hn : IsUnits n) :
    ∃ x : Float, x.isFinite = true ∧ isNegative x = s ∧ units x = n := by
  have hs : s.toNat ≤ 1 := Bool.toNat_le s
  have htail := hn.tail_le
  have hhigh := div_tail_lt n
  by_cases hlow : 2 ^ 52 ≤ n
  · have hmantissa := le_div_tail hlow
    have hnat : (UInt64.ofNat (s.toNat * 2 ^ 63 +
        ((tail n + 1) * 2 ^ 52 + (n / 2 ^ tail n - 2 ^ 52)))).toNat = _ :=
      UInt64.toNat_ofNat_of_lt' (Nat.lt_of_lt_of_le (m := 2 ^ 64) (by omega) (by decide))
    obtain ⟨hfinite, hsign, hexponent, hfraction⟩ := fields_ofBits (by omega) (by omega) hnat
    refine ⟨_, hfinite, hsign, ?_⟩
    rw [units_of_normal (by omega), hexponent, hfraction, Nat.add_sub_cancel' hmantissa,
      Nat.add_sub_cancel, hn.div_mul]
  · have hnat : (UInt64.ofNat (s.toNat * 2 ^ 63 + (0 * 2 ^ 52 + n))).toNat = _ :=
      UInt64.toNat_ofNat_of_lt' (Nat.lt_of_lt_of_le (m := 2 ^ 64) (by omega) (by decide))
    obtain ⟨hfinite, hsign, hexponent, hfraction⟩ := fields_ofBits (by omega) (by omega) hnat
    refine ⟨_, hfinite, hsign, ?_⟩
    rw [units_of_subnormal hexponent, hfraction]

theorem exists_counts (hn : IsUnits n) : ∃ x, Counts x n := by
  obtain ⟨x, hfinite, hsign, hunits⟩ := exists_units false hn
  exact ⟨x, hfinite, hsign, hunits⟩

end Patterns

section Arithmetic

variable {m n k t : Nat} {x y : Float}

theorem ofModel_pack (x : Float) : Float.ofModel (Float.Model.pack x.toModel.unpack) = x :=
  Float.ofBits_toBits x

theorem excess_of_le {e : Int} (hm : m < 2 ^ 53) (he : -1074 ≤ e) : excess m e = 0 := by
  rw [excess_eq]
  by_cases hz : m = 0
  · rw [hz]
    change (max ((0 : Nat) + 1 + e - 53) (-1074) - e).toNat = 0
    omega
  · have hlog : m.log2 < 53 := (Nat.log2_lt hz).mpr hm
    omega

theorem shift_exact (m n : Nat) :
    (⟨m * 2 ^ n, false, false⟩ : ExtendedMantissa) >>> n = ⟨m, false, false⟩ := by
  induction n generalizing m with
  | zero => rw [Nat.pow_zero, Nat.mul_one]; rfl
  | succ n ih =>
    have hpow : m * 2 ^ (n + 1) = m * 2 * 2 ^ n := by rw [Nat.pow_succ']; ring
    show ((⟨m * 2 ^ (n + 1), false, false⟩ : ExtendedMantissa) >>> n).shiftRightOne = _
    rw [hpow, ih, ExtendedMantissa.shiftRightOne]
    simp

/-- Rounding takes off nothing but zeros if the bits that are kept are all there are. -/
theorem roundWithAccuracy_eq (s : Sign) {e e' : Int} (hm : 0 < m)
    (hexcess : excess (m * 2 ^ n) e = n) (he : e + n = e') (hrest : excess m e' = 0) :
    roundWithAccuracy .binary64 s (m * 2 ^ n) e .exact = .finite s m e' hm := by
  subst he
  have hshift : ∀ m' n', ExtendedMantissa.ofMantissaAndAccuracy (m' * 2 ^ n') .exact >>> n' =
      ⟨m', false, false⟩ := shift_exact
  have hnone : ExtendedMantissa.ofMantissaAndAccuracy m .exact >>> 0 = ⟨m, false, false⟩ := rfl
  have hrounded : (⟨m, false, false⟩ : ExtendedMantissa).roundedMantissa = m := rfl
  unfold roundWithAccuracy
  simp only [shiftToTargetExponent_eq, hexcess, hshift, hrounded, hrest, hnone, Nat.cast_zero,
    Int.add_zero]
  exact dif_neg (Nat.ne_of_gt hm)

/-- A number that has no more bits than a double keeps is not changed by rounding. -/
theorem round_eq (s : Sign) (hm : 0 < m) (hn : IsUnits (m * 2 ^ k)) :
    UnpackedFloat.round .binary64 s m (-1074 + k) = unpacked s (m * 2 ^ k) := by
  have htarget : Format.binary64.targetExponent (totalExponent m (-1074 + k)) =
      -1074 + (m.log2 + k - 52 : Nat) := by
    show max ((m.log2 : Int) + 1 + (-1074 + k) - 53) (-1074) = _
    omega
  have hpos := div_tail_pos (n := m * 2 ^ k) (by positivity)
  have hlt := div_tail_lt (m * 2 ^ k)
  have hsplit := hn.div_mul
  obtain ⟨t, ht⟩ : ∃ t, tail (m * 2 ^ k) = t := ⟨_, rfl⟩
  obtain ⟨r, hr⟩ : ∃ r, m * 2 ^ k / 2 ^ t = r := ⟨_, rfl⟩
  have htail : m.log2 + k - 52 = t := by
    rw [← ht, tail, log2_mul_two_pow (by omega)]
  rw [ht, hr] at hpos hlt hsplit
  rw [unpacked_eq hpos (by rw [ht, hr]) (by rw [ht])]
  unfold UnpackedFloat.round
  dsimp only
  rw [htarget, htail, decreaseExponent]
  dsimp only
  have hzero := excess_of_le (e := -1074 + t) hlt (by omega)
  rcases Nat.le_total t k with htk | hkt
  · have hshift : ((-1074 + k : Int) - (-1074 + t)).toNat = k - t := by omega
    have hexponent : (-1074 + k : Int) - (k - t : Nat) = -1074 + t := by omega
    have hm' : m <<< (k - t) = r * 2 ^ 0 := by
      rw [Nat.shiftLeft_eq, Nat.pow_zero, Nat.mul_one]
      refine Nat.eq_of_mul_eq_mul_right (Nat.two_pow_pos t) ?_
      rw [hsplit, Nat.mul_assoc, ← Nat.pow_add, Nat.sub_add_cancel htk]
    rw [hshift, hexponent, hm']
    exact roundWithAccuracy_eq s hpos (by rwa [Nat.pow_zero, Nat.mul_one]) (Int.add_zero _) hzero
  · have hshift : ((-1074 + k : Int) - (-1074 + t)).toNat = 0 := by omega
    have hexponent : (-1074 + k : Int) + (t - k : Nat) = -1074 + t := by omega
    have hm' : m = r * 2 ^ (t - k) := by
      refine Nat.eq_of_mul_eq_mul_right (Nat.two_pow_pos k) ?_
      rw [← hsplit, Nat.mul_assoc, ← Nat.pow_add, Nat.sub_add_cancel hkt]
    have hexcess : excess m (-1074 + k) = t - k := by
      rw [excess_eq]
      omega
    rw [hshift, Nat.cast_zero, Int.sub_zero, Nat.shiftLeft_zero]
    rw [hm'] at hexcess ⊢
    exact roundWithAccuracy_eq s hpos hexcess hexponent hzero

theorem IsUnits.dvd_of_le (hn : IsUnits n) (ht : t ≤ tail n) : 2 ^ t ∣ n :=
  Nat.dvd_trans (Nat.pow_dvd_pow 2 ht) hn.dvd

/-- Two numbers are brought to the lower one of their exponents before they are added. -/
theorem decreaseExponent_eq (hn : IsUnits n) (ht : t ≤ tail n) :
    decreaseExponent (n / 2 ^ tail n) (-1074 + tail n) (-1074 + t) =
      (n / 2 ^ t, (-1074 + t : Int)) := by
  have hshift : ((-1074 + tail n : Int) - (-1074 + t)).toNat = tail n - t := by omega
  have hquotient : n / 2 ^ t = n / 2 ^ tail n * 2 ^ (tail n - t) := by
    refine Nat.div_eq_of_eq_mul_left (Nat.two_pow_pos t) ?_
    rw [Nat.mul_assoc, ← Nat.pow_add, Nat.sub_add_cancel ht, hn.div_mul]
  unfold decreaseExponent
  dsimp only
  rw [hshift, Nat.shiftLeft_eq, ← hquotient, Prod.mk.injEq]
  exact ⟨rfl, by omega⟩

theorem normalize_eq (hn : IsUnits n) (hpos : 0 < n) (ht : 2 ^ t ∣ n) (s : Sign) :
    UnpackedFloat.normalize .binary64 ((n / 2 ^ t : Nat) : Int) (-1074 + t) s =
      unpacked .positive n := by
  have hquotient : 0 < n / 2 ^ t := Nat.div_pos (Nat.le_of_dvd hpos ht) (Nat.two_pow_pos t)
  have hcompare : compare ((n / 2 ^ t : Nat) : Int) 0 = .gt := compare_gt_iff_gt.mpr (by omega)
  have hround := round_eq (k := t) .positive hquotient (by rwa [Nat.div_mul_cancel ht])
  rw [Nat.div_mul_cancel ht] at hround
  unfold UnpackedFloat.normalize
  rw [hcompare]
  exact hround

theorem min_exponent (a b : Nat) :
    min (-1074 + (a : Int)) (-1074 + (b : Int)) = -1074 + ((min a b : Nat) : Int) := by
  omega

/-- The sum of two doubles is exact if it is a double. -/
theorem add_unpacked (hm : IsUnits m) (hn : IsUnits n) (hsum : IsUnits (m + n)) :
    UnpackedFloat.add .binary64 (unpacked .positive m) (unpacked .positive n) =
      unpacked .positive (m + n) := by
  rcases Nat.eq_zero_or_pos m with rfl | hmpos <;> rcases Nat.eq_zero_or_pos n with rfl | hnpos
  · rw [unpacked_zero]
    rfl
  · rw [unpacked_zero, Nat.zero_add, unpacked_of_pos _ hnpos]
    rfl
  · rw [unpacked_zero, Nat.add_zero, unpacked_of_pos _ hmpos]
    rfl
  · have hdm := hm.dvd_of_le (Nat.min_le_left (tail m) (tail n))
    have hdn := hn.dvd_of_le (Nat.min_le_right (tail m) (tail n))
    rw [unpacked_of_pos _ hmpos, unpacked_of_pos _ hnpos]
    simp only [UnpackedFloat.add, min_exponent, decreaseExponent_eq hm (Nat.min_le_left _ _),
      decreaseExponent_eq hn (Nat.min_le_right _ _), Sign.apply]
    rw [← Nat.cast_add, ← Nat.add_div_of_dvd_right hdm]
    exact normalize_eq hsum (by omega) (Nat.dvd_add hdm hdn) _

/-- The difference of two doubles is exact if it is a double. -/
theorem sub_unpacked (hm : IsUnits m) (hn : IsUnits n) (hsum : IsUnits (m + n)) :
    UnpackedFloat.sub .binary64 (unpacked .positive (m + n)) (unpacked .positive n) =
      unpacked .positive m := by
  rcases Nat.eq_zero_or_pos n with rfl | hnpos
  · rw [Nat.add_zero, unpacked_zero]
    rcases Nat.eq_zero_or_pos m with rfl | hmpos
    · rw [unpacked_zero]
      rfl
    · rw [unpacked_of_pos _ hmpos]
      rfl
  · have hdsum := hsum.dvd_of_le (Nat.min_le_left (tail (m + n)) (tail n))
    have hdn := hn.dvd_of_le (Nat.min_le_right (tail (m + n)) (tail n))
    have hdm := (Nat.dvd_add_left hdn).mp hdsum
    have hdifference : (((m + n) / 2 ^ min (tail (m + n)) (tail n) : Nat) : Int) -
        (n / 2 ^ min (tail (m + n)) (tail n) : Nat) =
        (m / 2 ^ min (tail (m + n)) (tail n) : Nat) := by
      rw [Nat.add_div_of_dvd_right hdm]
      omega
    rw [unpacked_of_pos _ (by omega), unpacked_of_pos _ hnpos]
    simp only [UnpackedFloat.sub, min_exponent, decreaseExponent_eq hsum (Nat.min_le_left _ _),
      decreaseExponent_eq hn (Nat.min_le_right _ _), Sign.apply]
    rw [hdifference]
    rcases Nat.eq_zero_or_pos m with rfl | hmpos
    · rw [Nat.zero_div, unpacked_zero]
      rfl
    · exact normalize_eq hm hmpos hdm _

theorem lt_of_tail_lt (h : tail m < tail n) : m < n := by
  by_contra hle
  exact Nat.not_le.mpr h (Nat.sub_le_sub_right (log2_mono (Nat.not_lt.mp hle)) 52)

/-- Doubles are compared by their exponents first, which orders them by their magnitudes. -/
theorem compare_unpacked (hm : IsUnits m) (hn : IsUnits n) :
    UnpackedFloat.compare (unpacked .positive m) (unpacked .positive n) = some (compare m n) := by
  rcases Nat.eq_zero_or_pos m with rfl | hmpos <;> rcases Nat.eq_zero_or_pos n with rfl | hnpos
  · rw [unpacked_zero]
    rfl
  · rw [unpacked_zero, unpacked_of_pos _ hnpos, Nat.compare_eq_lt.mpr hnpos]
    rfl
  · rw [unpacked_zero, unpacked_of_pos _ hmpos, Nat.compare_eq_gt.mpr hmpos]
    rfl
  · rw [unpacked_of_pos _ hmpos, unpacked_of_pos _ hnpos]
    simp only [UnpackedFloat.compare]
    rcases Nat.lt_trichotomy (tail m) (tail n) with hlt | heq | hgt
    · rw [compare_lt_iff_lt.mpr (by omega), Nat.compare_eq_lt.mpr (lt_of_tail_lt hlt)]
      rfl
    · have hunit : 0 < 2 ^ tail m := Nat.two_pow_pos _
      have hm' := hm.div_mul
      have hn' := hn.div_mul
      rw [← heq] at hn'
      rw [compare_eq_iff_eq.mpr (by omega), ← heq, Ordering.eq_then]
      conv_rhs => rw [← hm', ← hn']
      rcases Nat.lt_trichotomy (m / 2 ^ tail m) (n / 2 ^ tail m) with h | h | h
      · rw [Nat.compare_eq_lt.mpr h, Nat.compare_eq_lt.mpr (Nat.mul_lt_mul_of_pos_right h hunit)]
      · rw [h, Nat.compare_eq_eq.mpr rfl, Nat.compare_eq_eq.mpr rfl]
      · rw [Nat.compare_eq_gt.mpr h, Nat.compare_eq_gt.mpr (Nat.mul_lt_mul_of_pos_right h hunit)]
    · rw [compare_gt_iff_gt.mpr (by omega), Nat.compare_eq_gt.mpr (lt_of_tail_lt hgt)]
      rfl

end Arithmetic

namespace Counts

variable {x y : Float} {m n : Nat}

theorem isUnits (h : Counts x n) : IsUnits n :=
  h.units ▸ isUnits_units h.isFinite

theorem unpack (h : Counts x n) : x.toModel.unpack = unpacked .positive n := by
  rw [unpack_eq h.isFinite, sign_eq, h.isNegative, h.units]
  rfl

theorem of_unpack (hn : IsUnits n) (h : x.toModel.unpack = unpacked .positive n) : Counts x n := by
  obtain ⟨hfinite, hsign, hunits⟩ := fields_of_unpack hn h
  refine ⟨hfinite, ?_, hunits⟩
  rw [sign_eq] at hsign
  cases hneg : Real64.isNegative x with
  | false => rfl
  | true =>
    rw [hneg] at hsign
    cases hsign

theorem ofModel (h : Counts x n) {u : UnpackedFloat} (hu : u = unpacked .positive n) :
    Float.ofModel (Float.Model.pack u) = x := by
  rw [hu, ← h.unpack, ofModel_pack]

theorem eq (hx : Counts x n) (hy : Counts y n) : x = y := by
  rw [← hx.ofModel rfl, ← hy.ofModel rfl]

theorem compare (hx : Counts x m) (hy : Counts y n) :
    UnpackedFloat.compare x.toModel.unpack y.toModel.unpack = some (Ord.compare m n) := by
  rw [hx.unpack, hy.unpack, compare_unpacked hx.isUnits hy.isUnits]

theorem le_iff (hx : Counts x m) (hy : Counts y n) : x ≤ y ↔ m ≤ n := by
  have hle : x ≤ y ↔ UnpackedFloat.le x.toModel.unpack y.toModel.unpack = true :=
    decide_eq_true_iff
  rw [hle, UnpackedFloat.le, hx.compare hy]
  exact Nat.isLE_compare

theorem lt_iff (hx : Counts x m) (hy : Counts y n) : x < y ↔ m < n := by
  have hlt : x < y ↔ UnpackedFloat.lt x.toModel.unpack y.toModel.unpack = true :=
    decide_eq_true_iff
  rw [hlt, UnpackedFloat.lt, hx.compare hy, beq_iff_eq, Option.some_inj]
  exact Nat.compare_eq_lt

theorem zero : Counts 0 0 :=
  of_unpack (isUnits_of_lt (by decide)) rfl

theorem zero_lt (h : Counts x n) (hn : 0 < n) : 0 < x := by
  rw [zero_lt_iff, h.unpack, unpacked_of_pos _ hn]
  rfl

theorem isPositiveFinite (h : Counts x n) (hn : n ≠ 0) : isPositiveFinite x = true := by
  have hle : ¬x ≤ 0 := fun hle => hn (Nat.le_zero.mp ((h.le_iff zero).mp hle))
  simp [Real64.isPositiveFinite, hle, h.isFinite]

theorem toInt_topPlane (h : Counts x n) (hn : n ≠ 0) :
    (topPlane x).toInt = -1074 + (n.log2 : Int) := by
  have hfield := exponentField_of_isFinite h.isFinite
  have hfraction := fraction_lt x
  have hunits := h.units
  rw [topPlane, if_pos (h.isPositiveFinite hn)]
  by_cases hz : exponentField x = 0
  · have hlog := log2_fraction_le x
    rw [units_of_subnormal hz] at hunits
    rw [if_pos hz, Int32.toInt_ofInt_of_le (by omega) (by omega), hunits]
    omega
  · have hlog : (2 ^ 52 + fraction x).log2 = 52 :=
      (Nat.log2_eq_iff (by omega)).mpr ⟨by omega, by omega⟩
    rw [units_of_normal hz] at hunits
    rw [if_neg hz, Int32.toInt_ofInt_of_le (by omega) (by omega), ← hunits,
      log2_mul_two_pow (by omega), hlog]
    omega

theorem toInt_finestPlane (h : Counts x n) (hn : n ≠ 0) :
    (finestPlane x).toInt = -1074 + (lowestBit n : Int) := by
  have hfield := exponentField_of_isFinite h.isFinite
  have hunits := h.units
  rw [finestPlane, if_pos (h.isPositiveFinite hn)]
  by_cases hz : exponentField x = 0
  · have hlow := Nat.le_trans (lowestBit_le _) (log2_fraction_le x)
    rw [units_of_subnormal hz] at hunits
    rw [if_pos hz, Int32.toInt_ofInt_of_le (by omega) (by omega), hunits]
    omega
  · have hlow := Nat.le_trans (lowestBit_le _) (log2_significand_le x)
    have hone : (1 <<< 52 : Nat) = 2 ^ 52 := rfl
    rw [units_of_normal hz] at hunits
    rw [hone] at hlow
    rw [if_neg hz, hone, Int32.toInt_ofInt_of_le (by omega) (by omega), ← hunits,
      lowestBit_mul_two_pow (by omega)]
    omega

end Counts

section Thresholds

theorem toNat_ofInt {k : Nat} (h : k < 2 ^ 64) : (UInt64.ofInt k).toNat = k := by
  have hmod : ((k : Int) % 2 ^ 64).toNat = k := by omega
  rw [UInt64.ofInt, hmod, UInt64.toNat_ofNat_of_lt' h]

theorem toNat_pow2_pattern {k : Nat} (h : k < 2 ^ 11) :
    (UInt64.ofInt k <<< 52).toNat = k * 2 ^ 52 := by
  rw [UInt64.toNat_shiftLeft, toNat_ofInt (by omega)]
  show k <<< 52 % 2 ^ 64 = k * 2 ^ 52
  rw [Nat.shiftLeft_eq, Nat.mod_eq_of_lt (by omega)]

theorem counts_pow2 {e : Nat} (he : e ≤ 2097) : Counts (pow2 (-1074 + e)) (2 ^ e) := by
  unfold pow2
  by_cases hlow : e < 52
  · have hlt : 2 ^ e < 2 ^ 52 := Nat.pow_lt_pow_right (by decide) hlow
    have hplane : (-1074 + e + 1074 : Int) = e := by omega
    have hnat : (1 <<< UInt64.ofInt (-1074 + e + 1074) : UInt64).toNat =
        false.toNat * 2 ^ 63 + (0 * 2 ^ 52 + 2 ^ e) := by
      rw [hplane, UInt64.toNat_shiftLeft, toNat_ofInt (by omega)]
      show 1 <<< (e % 64) % 2 ^ 64 = _
      rw [Nat.mod_eq_of_lt (show e < 64 by omega), Nat.shiftLeft_eq, Nat.mod_eq_of_lt (by omega),
        Bool.toNat_false]
      omega
    obtain ⟨hfinite, hsign, hexponent, hfraction⟩ := fields_ofBits (by omega) hlt hnat
    rw [if_neg (by omega)]
    exact ⟨hfinite, hsign, by rw [units_of_subnormal hexponent, hfraction]⟩
  · obtain ⟨k, rfl⟩ := Nat.exists_eq_add_of_le (Nat.not_lt.mp hlow)
    have hnat : (UInt64.ofInt (k + 1 : Nat) <<< 52).toNat =
        false.toNat * 2 ^ 63 + ((k + 1) * 2 ^ 52 + 0) := by
      rw [toNat_pow2_pattern (by omega), Bool.toNat_false]
      omega
    obtain ⟨hfinite, hsign, hexponent, hfraction⟩ := fields_ofBits (by omega) (by decide) hnat
    have hplane : (-1074 + (52 + k : Nat) + 1023 : Int) = (k + 1 : Nat) := by omega
    rw [if_pos (by omega), hplane]
    refine ⟨hfinite, hsign, ?_⟩
    rw [units_of_normal (by omega), hexponent, hfraction, Nat.add_sub_cancel, Nat.pow_add]
    rfl

theorem pow2_positive {p : Int} (hlow : -1074 ≤ p) (hhigh : p ≤ 1023) :
    (pow2 p).isFinite = true ∧ 0 < pow2 p := by
  obtain ⟨e, rfl⟩ : ∃ e : Nat, p = -1074 + e := ⟨(p + 1074).toNat, by omega⟩
  have hcounts := counts_pow2 (e := e) (by omega)
  exact ⟨hcounts.isFinite, hcounts.zero_lt (Nat.two_pow_pos e)⟩

end Thresholds

end Real64

open Real64 in
/-- Doubles count units of `2 ^ -1074`. Of their arithmetic it is used only that a result that is a
double is not rounded. -/
instance : ExactPlanes Float where
  counts := Counts
  eq_of_counts hx hy := hx.eq hy
  zero := Counts.zero
  pow2 e he := counts_pow2 (by change (-1074 : Int) + e ≤ 1023 at he; omega)
  reaches hx hy := decide_eq_decide.mpr (hy.le_iff hx)
  sub {a b c m n} ha hb hc := by
    have hsub : a - b = c := hc.ofModel (by
      rw [← sub_unpacked hc.isUnits hb.isUnits ha.isUnits, ← ha.unpack, ← hb.unpack])
    show Counts (a - b) m
    rwa [hsub]
  add {a b c m n} ha hb hc := by
    have hadd : a + b = c := hc.ofModel (by
      rw [← add_unpacked ha.isUnits hb.isUnits hc.isUnits, ← ha.unpack, ← hb.unpack])
    show Counts (a + b) (m + n)
    rwa [hadd]
  cut e ha := by
    obtain ⟨hlow, hhigh⟩ := ha.isUnits.cut e
    exact ⟨exists_counts hlow, exists_counts hhigh⟩
  topPlane ha hn := ha.toInt_topPlane hn
  finestPlane {_ n} ha hn := ⟨lowestBit n, ha.toInt_finestPlane hn, two_pow_lowestBit_dvd hn⟩

end VolumeCodec
