import Mathlib.Algebra.Order.Ring.Int
import VolumeCodec.Magnitude

namespace VolumeCodec

open Float.Model UnpackedFloat

namespace Real64

/-- The pattern of a double, as its model unpacks it. -/
def pattern (x : Float) : BitVec Format.binary64.numBits :=
  x.toBits.toBitVec

theorem toNat_unpackExponent (x : Float) :
    (unpackExponent (pattern x)).toNat = exponentField x := by
  simp only [unpackExponent, BitVec.toNat_cast, BitVec.extractLsb_toNat, pattern, exponentField]
  rfl

theorem exponentField_lt (x : Float) : exponentField x < 2 ^ 11 :=
  Nat.mod_lt _ (by decide)

theorem fraction_lt (x : Float) : fraction x < 2 ^ 52 :=
  Nat.mod_lt _ (by decide)

theorem exponentField_of_isFinite {x : Float} (h : x.isFinite = true) : exponentField x ≤ 2046 := by
  have hlt := exponentField_lt x
  by_cases hf : exponentField x = 2047
  · have he : unpackExponent (pattern x) = -1#_ := by
      apply BitVec.eq_of_toNat_eq
      rw [toNat_unpackExponent, hf]
      rfl
    have hu : (UnpackedFloat.unpack Format.binary64 (pattern x)).isFinite = true := h
    unfold UnpackedFloat.unpack at hu
    dsimp only at hu
    rw [if_pos he] at hu
    split at hu <;> cases hu
  · omega

end Real64

end VolumeCodec
