import VolumeCodec.Proofs.Binary64
import VolumeCodec.Width

namespace VolumeCodec

/-- The planes of the numbers of a type lie between its lowest and its highest plane. -/
class BoundedPlanes (α : Type) [Magnitude α] : Prop where
  topPlane_le : ∀ a : α, (Magnitude.topPlane a).toInt ≤ Magnitude.maxPlane α
  le_finestPlane : ∀ a : α, Magnitude.minPlane α ≤ (Magnitude.finestPlane a).toInt
  minPlane_range : -2 ^ 31 ≤ Magnitude.minPlane α ∧ Magnitude.minPlane α ≤ 0
  maxPlane_nonneg : 0 ≤ Magnitude.maxPlane α

theorem foldl_invariant {α β : Type} {P : β → Prop} {f : β → α → β} (values : Array α) {start : β}
    (h0 : P start) (hf : ∀ b a, P b → P (f b a)) : P (values.foldl f start) := by
  rw [← Array.foldl_toList]
  induction values.toList generalizing start with
  | nil => exact h0
  | cons a rest ih => exact ih (hf start a h0)

theorem max_of_both {P : Int32 → Prop} {a b : Int32} (ha : P a) (hb : P b) : P (max a b) := by
  show P (if a ≤ b then b else a)
  split
  next => exact hb
  next => exact ha

theorem min_of_both {P : Int32 → Prop} {a b : Int32} (ha : P a) (hb : P b) : P (min a b) := by
  show P (if a ≤ b then a else b)
  split
  next => exact ha
  next => exact hb

theorem toInt_max (a b : Int32) : (max a b).toInt = max a.toInt b.toInt := by
  show (if a ≤ b then b else a).toInt = _
  split
  next h =>
    rw [Int32.le_iff_toInt_le] at h
    omega
  next h =>
    rw [Int32.le_iff_toInt_le] at h
    omega

theorem toInt_min (a b : Int32) : (min a b).toInt = min a.toInt b.toInt := by
  show (if a ≤ b then a else b).toInt = _
  split
  next h =>
    rw [Int32.le_iff_toInt_le] at h
    omega
  next h =>
    rw [Int32.le_iff_toInt_le] at h
    omega

theorem lowestPlane_nonpos {α : Type} [Magnitude α] (values : Array α) :
    (lowestPlane values).toInt ≤ 0 := by
  have hzero : (0 : Int32).toInt = 0 := rfl
  unfold lowestPlane
  rw [toInt_min, hzero]
  exact min_le_right _ _

section BoundedPlanes

variable {α : Type} [Magnitude α] [BoundedPlanes α]

theorem topPlane_le_maxPlane (values : Array α) :
    (topPlane values).toInt ≤ Magnitude.maxPlane α := by
  unfold topPlane
  refine foldl_invariant (P := fun p : Int32 => p.toInt ≤ Magnitude.maxPlane α) values ?_
    fun b a hb => max_of_both (P := fun p : Int32 => p.toInt ≤ Magnitude.maxPlane α) hb
      (BoundedPlanes.topPlane_le a)
  have h := BoundedPlanes.maxPlane_nonneg (α := α)
  rw [Int32.toInt_minValue]
  omega

theorem minPlane_le_lowestPlane (values : Array α) :
    Magnitude.minPlane α ≤ (lowestPlane values).toInt := by
  obtain ⟨-, h⟩ := BoundedPlanes.minPlane_range (α := α)
  unfold lowestPlane
  refine min_of_both (P := fun p : Int32 => Magnitude.minPlane α ≤ p.toInt) ?_ (by simpa using h)
  refine foldl_invariant (P := fun p : Int32 => Magnitude.minPlane α ≤ p.toInt) values ?_
    fun b a hb => min_of_both (P := fun p : Int32 => Magnitude.minPlane α ≤ p.toInt) hb
      (BoundedPlanes.le_finestPlane a)
  rw [Int32.toInt_maxValue]
  omega

end BoundedPlanes

theorem lowestBit_le (n : Nat) : lowestBit n ≤ n.log2 := by
  unfold lowestBit
  cases h : (List.range (n.log2 + 1)).find? n.testBit with
  | none => exact Nat.zero_le _
  | some i =>
    have hm := List.mem_of_find?_eq_some h
    rw [List.mem_range] at hm
    exact Nat.le_of_lt_succ hm

theorem boundedPlanes_bitVec {n : Nat} (h0 : 0 < n) (hn : n < 2 ^ 31) :
    BoundedPlanes (BitVec n) where
  topPlane_le a := by
    show (if a = 0#n then Int32.minValue else Int32.ofNat a.toNat.log2).toInt ≤ (n : Int) - 1
    split
    next =>
      rw [Int32.toInt_minValue]
      omega
    next ha =>
      have hne : a.toNat ≠ 0 := fun he => ha (BitVec.eq_of_toNat_eq (by simpa using he))
      have hlog : a.toNat.log2 < n := (Nat.log2_lt hne).mpr a.isLt
      rw [Int32.toInt_ofNat_of_lt (by omega)]
      omega
  le_finestPlane a := by
    show 0 ≤ (if a = 0#n then Int32.maxValue else Int32.ofNat (lowestBit a.toNat)).toInt
    split
    next => rw [Int32.toInt_maxValue]; omega
    next ha =>
      have hne : a.toNat ≠ 0 := fun he => ha (BitVec.eq_of_toNat_eq (by simpa using he))
      have hlog : a.toNat.log2 < n := (Nat.log2_lt hne).mpr a.isLt
      have hlow := lowestBit_le a.toNat
      rw [Int32.toInt_ofNat_of_lt (by omega)]
      omega
  minPlane_range := ⟨by change (-2 ^ 31 : Int) ≤ 0; omega, Int.le_refl 0⟩
  maxPlane_nonneg := by
    show 0 ≤ (n : Int) - 1
    omega

instance (w : Width) : BoundedPlanes (BitVec w.bits) :=
  boundedPlanes_bitVec (by cases w <;> decide) (by cases w <;> decide)

theorem log2_fraction_le (x : Float) : (Real64.fraction x).log2 ≤ 51 := by
  have h := Real64.fraction_lt x
  by_cases h0 : Real64.fraction x = 0
  · rw [h0]
    decide
  · have := (Nat.log2_lt h0).mpr h
    omega

theorem log2_significand_le (x : Float) : ((1 <<< 52) + Real64.fraction x).log2 ≤ 52 := by
  have h := Real64.fraction_lt x
  have := (Nat.log2_lt (n := (1 <<< 52) + Real64.fraction x) (k := 53) (by omega)).mpr (by omega)
  omega

instance : BoundedPlanes Float where
  topPlane_le x := by
    show (Real64.topPlane x).toInt ≤ 1023
    unfold Real64.topPlane
    split
    next h =>
      have hf : x.isFinite = true := by
        unfold Real64.isPositiveFinite at h
        rw [Bool.and_eq_true] at h
        exact h.2
      have he := Real64.exponentField_of_isFinite hf
      have hlog := log2_fraction_le x
      split
      next =>
        rw [Int32.toInt_ofInt_of_le (by omega) (by omega)]
        omega
      next =>
        rw [Int32.toInt_ofInt_of_le (by omega) (by omega)]
        omega
    next =>
      rw [Int32.toInt_minValue]
      omega
  le_finestPlane x := by
    show -1074 ≤ (Real64.finestPlane x).toInt
    unfold Real64.finestPlane
    split
    next =>
      have he := Real64.exponentField_lt x
      have hlog := Nat.le_trans (lowestBit_le _) (log2_fraction_le x)
      have hlog' := Nat.le_trans (lowestBit_le _) (log2_significand_le x)
      split
      next =>
        rw [Int32.toInt_ofInt_of_le (by omega) (by omega)]
        omega
      next =>
        rw [Int32.toInt_ofInt_of_le (by omega) (by omega)]
        omega
    next =>
      rw [Int32.toInt_maxValue]
      omega
  minPlane_range := ⟨by change (-2 ^ 31 : Int) ≤ -1074; omega, by change (-1074 : Int) ≤ 0; omega⟩
  maxPlane_nonneg := by
    show (0 : Int) ≤ 1023
    omega

end VolumeCodec
