import VolumeCodec.Proofs.PlaneRange

namespace VolumeCodec

/-- Numbers that count units of the lowest plane, with arithmetic that is exact wherever its result
is a number of the type. -/
class ExactPlanes (α : Type) [Magnitude α] extends BoundedPlanes α where
  /-- The number is so many units of the lowest plane. -/
  counts : α → Nat → Prop
  eq_of_counts : ∀ {a b : α} {n : Nat}, counts a n → counts b n → a = b
  zero : counts (Magnitude.zero : α) 0
  pow2 : ∀ e : Nat, Magnitude.minPlane α + e ≤ Magnitude.maxPlane α →
    counts (Magnitude.pow2 (Magnitude.minPlane α + e) : α) (2 ^ e)
  reaches : ∀ {a b : α} {m n : Nat}, counts a m → counts b n →
    Magnitude.reaches a b = decide (n ≤ m)
  sub : ∀ {a b c : α} {m n : Nat}, counts a (m + n) → counts b n → counts c m →
    counts (Magnitude.sub a b) m
  add : ∀ {a b c : α} {m n : Nat}, counts a m → counts b n → counts c (m + n) →
    counts (Magnitude.add a b) (m + n)
  /-- Numbers stay numbers when the bits above or below a plane are cut off. -/
  cut : ∀ {a : α} {n : Nat} (e : Nat), counts a n →
    (∃ b : α, counts b (n % 2 ^ e)) ∧ ∃ b : α, counts b (n - n % 2 ^ e)
  topPlane : ∀ {a : α} {n : Nat}, counts a n → n ≠ 0 →
    (Magnitude.topPlane a).toInt = Magnitude.minPlane α + n.log2
  finestPlane : ∀ {a : α} {n : Nat}, counts a n → n ≠ 0 →
    ∃ e : Nat, (Magnitude.finestPlane a).toInt = Magnitude.minPlane α + e ∧ 2 ^ e ∣ n

theorem testBit_lowestBit {n : Nat} (h : n ≠ 0) :
    n.testBit (lowestBit n) = true ∧ ∀ j < lowestBit n, n.testBit j = false := by
  have hsome : ((List.range (n.log2 + 1)).find? n.testBit).isSome = true := by
    rw [List.find?_isSome]
    exact ⟨n.log2, by simp, Nat.testBit_log2 h⟩
  obtain ⟨i, hi⟩ := Option.isSome_iff_exists.mp hsome
  have hl : lowestBit n = i := by
    unfold lowestBit
    rw [hi]
    rfl
  obtain ⟨ht, -, hlow⟩ := List.find?_range_eq_some.mp hi
  rw [hl]
  exact ⟨ht, fun j hj => by simpa using hlow j hj⟩

theorem two_pow_lowestBit_dvd {n : Nat} (h : n ≠ 0) : 2 ^ lowestBit n ∣ n := by
  obtain ⟨-, hlow⟩ := testBit_lowestBit h
  refine Nat.dvd_of_mod_eq_zero (Nat.eq_of_testBit_eq fun j => ?_)
  rw [Nat.testBit_mod_two_pow, Nat.zero_testBit]
  by_cases hj : j < lowestBit n
  · simp [hlow j hj]
  · simp [hj]

theorem two_pow_dvd_iff {n e : Nat} (h : n ≠ 0) : 2 ^ e ∣ n ↔ e ≤ lowestBit n := by
  obtain ⟨hset, -⟩ := testBit_lowestBit h
  refine ⟨fun hdvd => ?_, fun hle =>
    Nat.dvd_trans (Nat.pow_dvd_pow 2 hle) (two_pow_lowestBit_dvd h)⟩
  by_contra hlt
  have hzero := congrArg (fun m => m.testBit (lowestBit n)) (Nat.mod_eq_zero_of_dvd hdvd)
  rw [Nat.testBit_mod_two_pow, hset, Nat.zero_testBit, Bool.and_true, decide_eq_false_iff_not]
    at hzero
  omega

theorem lowestBit_mul_two_pow {n : Nat} (h : n ≠ 0) (k : Nat) :
    lowestBit (n * 2 ^ k) = lowestBit n + k := by
  have hpos := Nat.two_pow_pos k
  have hne : n * 2 ^ k ≠ 0 := Nat.mul_ne_zero h (by omega)
  refine Nat.le_antisymm ?_ ?_
  · by_contra hlt
    have hdvd := (two_pow_dvd_iff (e := lowestBit n + 1 + k) hne).mpr (by omega)
    rw [Nat.pow_add] at hdvd
    have hle := (two_pow_dvd_iff h).mp (Nat.dvd_of_mul_dvd_mul_right hpos hdvd)
    omega
  · refine (two_pow_dvd_iff hne).mp ?_
    rw [Nat.pow_add]
    exact Nat.mul_dvd_mul_right (two_pow_lowestBit_dvd h) _

/-- Integers of a width count ones. -/
instance (w : Width) : ExactPlanes (BitVec w.bits) where
  counts a n := a.toNat = n
  eq_of_counts h h' := BitVec.eq_of_toNat_eq (h.trans h'.symm)
  zero := rfl
  pow2 e he := by
    have hlt : e < w.bits := by
      change (0 : Int) + e ≤ (w.bits : Int) - 1 at he
      omega
    show (BitVec.twoPow w.bits ((0 : Int) + e).toNat).toNat = 2 ^ e
    have hz : ((0 : Int) + e).toNat = e := by omega
    rw [hz, BitVec.toNat_twoPow, Nat.mod_eq_of_lt (Nat.pow_lt_pow_right (by decide) hlt)]
  reaches {a b m n} hm hn := by
    show decide (b ≤ a) = _
    rw [← hm, ← hn]
    exact decide_eq_decide.mpr BitVec.le_def
  sub {a b c m n} ha hb hc := by
    show (a - b).toNat = m
    rw [BitVec.toNat_sub_of_le (by rw [BitVec.le_def]; omega)]
    omega
  add {a b c m n} ha hb hc := by
    show (a + b).toNat = m + n
    have hlt := c.isLt
    rw [BitVec.toNat_add, ha, hb, Nat.mod_eq_of_lt (by omega)]
  cut {a n} e ha := by
    have hlt := a.isLt
    have hmod := Nat.mod_le n (2 ^ e)
    refine ⟨⟨BitVec.ofNat _ (n % 2 ^ e), ?_⟩, ⟨BitVec.ofNat _ (n - n % 2 ^ e), ?_⟩⟩
    · rw [BitVec.toNat_ofNat, Nat.mod_eq_of_lt (by omega)]
    · rw [BitVec.toNat_ofNat, Nat.mod_eq_of_lt (by omega)]
  topPlane {a n} ha hn := by
    have hne : a ≠ 0#w.bits := fun h => hn (by rw [← ha, h]; rfl)
    have hlog : n.log2 < w.bits := by
      rw [← ha] at hn ⊢
      exact (Nat.log2_lt hn).mpr a.isLt
    have hw : w.bits ≤ 64 := by cases w <;> decide
    show (if a = 0#w.bits then Int32.minValue else Int32.ofNat a.toNat.log2).toInt =
      (0 : Int) + n.log2
    rw [if_neg hne, ha, Int32.toInt_ofNat_of_lt (by omega), Int.zero_add]
  finestPlane {a n} ha hn := by
    have hne : a ≠ 0#w.bits := fun h => hn (by rw [← ha, h]; rfl)
    have hlog : n.log2 < w.bits := by
      rw [← ha] at hn ⊢
      exact (Nat.log2_lt hn).mpr a.isLt
    have hlow := lowestBit_le n
    have hw : w.bits ≤ 64 := by cases w <;> decide
    refine ⟨lowestBit n, ?_, two_pow_lowestBit_dvd hn⟩
    show (if a = 0#w.bits then Int32.maxValue else Int32.ofNat (lowestBit a.toNat)).toInt =
      (0 : Int) + lowestBit n
    rw [if_neg hne, ha, Int32.toInt_ofNat_of_lt (by omega), Int.zero_add]

end VolumeCodec
