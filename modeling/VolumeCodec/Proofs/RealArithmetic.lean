import Mathlib
import VolumeCodec.Proofs.Binary64
import VolumeCodec.Rounding

namespace VolumeCodec

open Float.Model UnpackedFloat

namespace Real64

section Packing

variable {s : Sign} {m : Nat} {e : Int}

theorem pack_infinite (hm : 0 < m) (he : 972 ≤ e) :
    UnpackedFloat.pack .binary64 (.finite s m e hm) = packedInfinity .binary64 s := by
  have hbias : ((Format.binary64.exponentBias : Nat) : Int) = 1023 := rfl
  unfold UnpackedFloat.pack
  dsimp only
  rw [hbias, if_pos (by change 2048 ≤ (e + 1023 + (52 : Nat)).toNat + 1; omega)]

theorem pack_normal (hm : 0 < m) (he : -1074 ≤ e) (he' : e < 972) (hlow : 2 ^ 52 ≤ m)
    (hhigh : m < 2 ^ 53) :
    UnpackedFloat.pack .binary64 (.finite s m e hm) =
      packComponents .binary64 s (BitVec.ofNat _ (e + 1075).toNat) (BitVec.ofNat _ m) := by
  have hbias : ((Format.binary64.exponentBias : Nat) : Int) = 1023 := rfl
  have hlog : m.log2 = 52 := (Nat.log2_eq_iff (by omega)).mpr ⟨hlow, hhigh⟩
  have hsum : e + 1023 + (52 : Nat) = e + 1075 := by omega
  unfold UnpackedFloat.pack
  dsimp only
  rw [hbias, hsum, if_neg (by change ¬2048 ≤ (e + 1075).toNat + 1; omega), hlog,
    if_pos (by decide)]

theorem pack_subnormal (hm : 0 < m) (he : e < 972) (hhigh : m < 2 ^ 52) :
    UnpackedFloat.pack .binary64 (.finite s m e hm) =
      packComponents .binary64 s 0#_ (BitVec.ofNat _ m) := by
  have hbias : ((Format.binary64.exponentBias : Nat) : Int) = 1023 := rfl
  have hlog : m.log2 < 52 := (Nat.log2_lt (by omega)).mpr hhigh
  have hsum : e + 1023 + (52 : Nat) = e + 1075 := by omega
  unfold UnpackedFloat.pack
  dsimp only
  rw [hbias, hsum, if_neg (by change ¬2048 ≤ (e + 1075).toNat + 1; omega),
    if_neg (by change ¬m.log2 + 1 = 53; omega)]

end Packing

section Unpacking

variable {b : BitVec Format.binary64.numBits}

theorem toNat_implicit_append (m : BitVec 52) : (1#1 ++ m).toNat = 2 ^ 52 + m.toNat := by
  rw [BitVec.toNat_append, ← Nat.shiftLeft_add_eq_or_of_lt m.isLt]
  rfl

theorem unpack_subnormal (he : unpackExponent b = 0#11) (hm : 0 < (unpackMantissa b).toNat) :
    UnpackedFloat.unpack .binary64 b =
      .finite (Sign.ofBitVec (unpackSign b)) (unpackMantissa b).toNat (-1074) hm := by
  have hne : unpackExponent b ≠ -1#11 := by
    rw [he]
    decide
  have hz : unpackMantissa b ≠ 0#52 := fun hz => by
    rw [hz] at hm
    cases hm
  unfold UnpackedFloat.unpack
  dsimp only
  rw [if_neg hne, if_pos he, dif_neg hz, he]
  rfl

theorem unpack_normal (he : unpackExponent b ≠ 0#11) (he' : unpackExponent b ≠ -1#11) :
    UnpackedFloat.unpack .binary64 b =
      .finite (Sign.ofBitVec (unpackSign b)) (2 ^ 52 + (unpackMantissa b).toNat)
        ((unpackExponent b).toNat - 1075) (by omega) := by
  unfold UnpackedFloat.unpack
  dsimp only
  rw [if_neg he', if_neg he]
  have hm := toNat_implicit_append (unpackMantissa b)
  congr

end Unpacking

theorem toBits_ofBits {bits : UInt64} (h : Format.binary64.Valid bits.toBitVec) :
    (Float.ofBits bits).toBits = bits :=
  UInt64.toBitVec_inj.mp (pack_unpack_of_valid h)

section Finiteness

theorem isFinite_iff (x : Float) : x.isFinite = true ↔ exponentField x ≠ 2047 := by
  constructor
  · intro h
    have := exponentField_of_isFinite h
    omega
  · intro h
    have hmax : unpackExponent (pattern x) ≠ -1#11 := fun he => h (by
      rw [← toNat_unpackExponent, he]
      rfl)
    show (UnpackedFloat.unpack .binary64 (pattern x)).isFinite = true
    unfold UnpackedFloat.unpack
    dsimp only
    rw [if_neg hmax]
    split
    next => split <;> rfl
    next => rfl

theorem isFinite_of_roundToEven {x : Float} (h : (roundToEven x).isFinite = true) :
    x.isFinite = true := by
  unfold roundToEven at h
  dsimp only at h
  split at h
  next => exact h
  next hlow => exact (isFinite_iff x).mpr (by omega)

theorem isFinite_pack {u : UnpackedFloat} (h : u.isFinite = false) :
    (Float.Model.pack u).unpack.isFinite = false := by
  cases u with
  | infinity s => cases s <;> rfl
  | notANumber => rfl
  | zero s => cases h
  | finite s m e hm => cases h

theorem isFinite_of_div {a b : Float} (h : (a / b).isFinite = true) : a.isFinite = true := by
  apply eq_true_of_ne_false
  intro ha
  change a.toModel.unpack.isFinite = false at ha
  have hdiv : (UnpackedFloat.div .binary64 a.toModel.unpack b.toModel.unpack).isFinite = false := by
    revert ha
    cases a.toModel.unpack with
    | infinity s => cases b.toModel.unpack <;> exact fun _ => rfl
    | notANumber => exact fun _ => rfl
    | zero s => exact fun ha => nomatch ha
    | finite s m e hm => exact fun ha => nomatch ha
  have hpack := isFinite_pack hdiv
  change (a / b).isFinite = false at hpack
  rw [h] at hpack
  cases hpack

theorem isFinite_of_sub {a b : Float} (h : (a - b).isFinite = true) : b.isFinite = true := by
  apply eq_true_of_ne_false
  intro hb
  change b.toModel.unpack.isFinite = false at hb
  have hsub : (UnpackedFloat.sub .binary64 a.toModel.unpack b.toModel.unpack).isFinite = false := by
    revert hb
    cases b.toModel.unpack with
    | infinity s =>
      cases a.toModel.unpack with
      | infinity s' => cases s <;> cases s' <;> exact fun _ => rfl
      | notANumber => exact fun _ => rfl
      | zero s' => exact fun _ => rfl
      | finite s' m e hm => exact fun _ => rfl
    | notANumber => cases a.toModel.unpack <;> exact fun _ => rfl
    | zero s => exact fun hb => nomatch hb
    | finite s m e hm => exact fun hb => nomatch hb
  have hpack := isFinite_pack hsub
  change (a - b).isFinite = false at hpack
  rw [h] at hpack
  cases hpack

end Finiteness

section Positivity

/-- Positive numbers, infinity among them. -/
def isPositive : UnpackedFloat → Bool
  | .finite .positive _ _ _ => true
  | .infinity .positive => true
  | _ => false

theorem zero_lt_iff (x : Float) : 0 < x ↔ isPositive x.toModel.unpack = true := by
  have hzero : (0 : Float).toModel.unpack = .zero .positive := rfl
  have hlt : 0 < x ↔ UnpackedFloat.lt (0 : Float).toModel.unpack x.toModel.unpack = true :=
    decide_eq_true_iff
  rw [hlt, hzero]
  cases x.toModel.unpack with
  | infinity s => cases s <;> decide
  | notANumber => decide
  | zero s => cases s <;> decide
  | finite s m e hm => cases s <;> simp [isPositive, UnpackedFloat.lt, UnpackedFloat.compare]

theorem isPositive_pack {m : Nat} {e : Int} (hm : 0 < m) (hhigh : m < 2 ^ 53) (he : -1074 ≤ e) :
    isPositive (Float.Model.pack (.finite .positive m e hm)).unpack = true := by
  show isPositive (UnpackedFloat.unpack .binary64
    (UnpackedFloat.pack .binary64 (.finite .positive m e hm))) = true
  by_cases hinf : 972 ≤ e
  · rw [pack_infinite hm hinf]
    rfl
  by_cases hlow : 2 ^ 52 ≤ m
  · rw [pack_normal hm he (by omega) hlow hhigh]
    have hfield : (BitVec.ofNat 11 (e + 1075).toNat).toNat = (e + 1075).toNat := by
      rw [BitVec.toNat_ofNat, Nat.mod_eq_of_lt (by omega)]
    have hz : BitVec.ofNat 11 (e + 1075).toNat ≠ 0#11 := fun h => by
      rw [h] at hfield
      change 0 = _ at hfield
      omega
    have hmax : BitVec.ofNat 11 (e + 1075).toNat ≠ -1#11 := fun h => by
      rw [h] at hfield
      change 2047 = _ at hfield
      omega
    rw [unpack_normal (by rwa [unpackExponent_packComponents])
      (by rwa [unpackExponent_packComponents]), unpackSign_packComponents]
    rfl
  · rw [pack_subnormal hm (by omega) (by omega)]
    have hfield : (BitVec.ofNat 52 m).toNat = m := by
      rw [BitVec.toNat_ofNat, Nat.mod_eq_of_lt (by omega)]
    rw [unpack_subnormal (by rw [unpackExponent_packComponents])
      (by rw [unpackMantissa_packComponents, hfield]; exact hm), unpackSign_packComponents]
    rfl

theorem mantissa_shift (x : ExtendedMantissa) (n : Nat) :
    (x >>> n).mantissa = x.mantissa / 2 ^ n := by
  induction n with
  | zero => exact (Nat.div_one _).symm
  | succ n ih =>
    show (x >>> n).shiftRightOne.mantissa = _
    rw [ExtendedMantissa.shiftRightOne, ih, Nat.div_div_eq_div_mul, Nat.pow_succ]

theorem le_roundedMantissa (x : ExtendedMantissa) : x.mantissa ≤ x.roundedMantissa := by
  unfold ExtendedMantissa.roundedMantissa ExtendedMantissa.accuracy
  obtain ⟨m, r, s⟩ := x
  cases r <;> cases s <;> simp [Accuracy.roundToNearestEven]

/-- The number of bits that rounding takes off a mantissa. -/
def excess (m : Nat) (e : Int) : Nat :=
  (Format.binary64.targetExponent (totalExponent m e) - e).toNat

theorem excess_eq (m : Nat) (e : Int) :
    excess m e = (max (m.log2 + 1 + e - 53) (-1074) - e).toNat := rfl

theorem excess_bounds {m : Nat} {e : Int} (hm : 0 < m) (h : -1074 ≤ e + m.log2) :
    0 < m / 2 ^ excess m e ∧ m / 2 ^ excess m e < 2 ^ 53 ∧ -1074 ≤ e + excess m e := by
  have hexcess := excess_eq m e
  have hle : 2 ^ m.log2 ≤ m := Nat.log2_self_le (by omega)
  have hlt : m < 2 ^ (m.log2 + 1) := Nat.lt_log2_self
  refine ⟨Nat.div_pos ?_ (Nat.two_pow_pos _), Nat.div_lt_of_lt_mul ?_, by omega⟩
  · exact Nat.le_trans (Nat.pow_le_pow_right (by decide) (by omega)) hle
  · rw [← Nat.pow_add]
    exact Nat.lt_of_lt_of_le hlt (Nat.pow_le_pow_right (by decide) (by omega))

theorem shiftToTargetExponent_eq (m : Nat) (e : Int) (a : Accuracy) :
    shiftToTargetExponent .binary64 m e a =
      (ExtendedMantissa.ofMantissaAndAccuracy m a >>> excess m e, e + excess m e) := rfl

theorem mantissa_ofMantissaAndAccuracy (m : Nat) (a : Accuracy) :
    (ExtendedMantissa.ofMantissaAndAccuracy m a).mantissa = m := by
  cases a with
  | exact => rfl
  | inexact o => cases o <;> rfl

/-- A positive number that is not below the least subnormal is rounded to a positive one. -/
theorem isPositive_round {m : Nat} {e : Int} (hm : 0 < m) (h : -1074 ≤ e + m.log2)
    (a : Accuracy) :
    isPositive (Float.Model.pack (roundWithAccuracy .binary64 .positive m e a)).unpack = true := by
  obtain ⟨hpos, -, hexp⟩ := excess_bounds hm h
  unfold roundWithAccuracy
  rw [shiftToTargetExponent_eq]
  dsimp only
  -- Rounding up may carry into one more bit, so the result is shifted a second time.
  have hrounded :
      0 < (ExtendedMantissa.ofMantissaAndAccuracy m a >>> excess m e).roundedMantissa := by
    have hle := le_roundedMantissa (ExtendedMantissa.ofMantissaAndAccuracy m a >>> excess m e)
    rw [mantissa_shift, mantissa_ofMantissaAndAccuracy] at hle
    omega
  generalize (ExtendedMantissa.ofMantissaAndAccuracy m a >>> excess m e).roundedMantissa = r at *
  obtain ⟨hpos', hlt', hexp'⟩ := excess_bounds (e := e + excess m e) hrounded (by omega)
  rw [shiftToTargetExponent_eq]
  dsimp only
  have hfinal : (ExtendedMantissa.ofMantissaAndAccuracy r .exact >>>
      excess r (e + excess m e)).mantissa = r / 2 ^ excess r (e + excess m e) := by
    rw [mantissa_shift, mantissa_ofMantissaAndAccuracy]
  rw [dif_neg (by omega)]
  exact isPositive_pack _ (by omega) hexp'

theorem le_exponent_of_unpack {b : BitVec Format.binary64.numBits} {s : Sign} {m : Nat} {e : Int}
    {hm : 0 < m} (h : UnpackedFloat.unpack .binary64 b = .finite s m e hm) : -1074 ≤ e := by
  by_cases hmax : unpackExponent b = -1#11
  · unfold UnpackedFloat.unpack at h
    dsimp only at h
    rw [if_pos hmax] at h
    split at h <;> cases h
  by_cases hsub : unpackExponent b = 0#11
  · by_cases hz : unpackMantissa b = 0#52
    · unfold UnpackedFloat.unpack at h
      dsimp only at h
      rw [if_neg hmax, if_pos hsub, dif_pos hz] at h
      cases h
    · have hpos : 0 < (unpackMantissa b).toNat := Nat.pos_of_ne_zero fun hn =>
        hz (BitVec.eq_of_toNat_eq (hn.trans rfl))
      rw [unpack_subnormal hsub hpos] at h
      cases h
      decide
  · have hpos : (unpackExponent b).toNat ≠ 0 :=
      fun hn => hsub (BitVec.eq_of_toNat_eq (hn.trans rfl))
    rw [unpack_normal hsub hmax] at h
    cases h
    omega

theorem zero_lt_mul {t : Float} (h : 0 < t) : 0 < 1.5 * t := by
  rw [zero_lt_iff] at h ⊢
  have hfactor :
      (1.5 : Float).toModel.unpack = .finite .positive (3 * 2 ^ 51) (-52) (by decide) := rfl
  show isPositive (Float.Model.pack (UnpackedFloat.mul .binary64 (1.5 : Float).toModel.unpack
    t.toModel.unpack)).unpack = true
  rw [hfactor]
  cases hu : t.toModel.unpack with
  | infinity s =>
    rw [hu] at h
    cases s with
    | negative => cases h
    | positive => rfl
  | notANumber =>
    rw [hu] at h
    cases h
  | zero s =>
    rw [hu] at h
    cases h
  | finite s m e hm =>
    rw [hu] at h
    cases s with
    | negative => cases h
    | positive =>
      have he := le_exponent_of_unpack hu
      have hlog : 52 ≤ (3 * 2 ^ 51 * m).log2 := (Nat.le_log2 (by omega)).mpr (by omega)
      exact isPositive_round (by omega) (by omega) .exact

end Positivity

end Real64

end VolumeCodec
