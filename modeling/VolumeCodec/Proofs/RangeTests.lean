import Mathlib.Algebra.Order.Ring.Nat
import VolumeCodec.IndexSet
import VolumeCodec.Tape

namespace VolumeCodec

section Words

variable {word : Nat → Word} {start stop k j : Nat}

theorem Word.ne_zero_iff (w : Word) : w ≠ 0 ↔ ∃ j < 64, w.bit j = true := by
  constructor
  · intro h
    by_contra hnone
    refine h (Word.ext_bit fun j hj => ?_)
    rw [Word.bit_zero]
    exact eq_false_of_ne_true fun hset => hnone ⟨j, hj, hset⟩
  · rintro ⟨j, -, hset⟩ rfl
    rw [Word.bit_zero] at hset
    cases hset

theorem Word.between_ne_zero_iff (w : Word) (below above : Nat) :
    w &&& (ones above &&& ~~~ones below) ≠ 0 ↔
      ∃ j < 64, below ≤ j ∧ j < above ∧ w.bit j = true := by
  rw [Word.ne_zero_iff]
  refine exists_congr fun j => and_congr_right fun hj => ?_
  simp only [bit_and, bit_not, bit_ones, hj, decide_true, Bool.true_and, Bool.and_eq_true,
    decide_eq_true_eq, Bool.not_eq_true', decide_eq_false_iff_not, Nat.not_lt]
  exact ⟨fun ⟨hset, habove, hbelow⟩ => ⟨hbelow, habove, hset⟩,
    fun ⟨hbelow, habove, hset⟩ => ⟨hset, habove, hbelow⟩⟩

/-- The places of a word that are tested are those of the range: the first word and the last one,
which may be the same, are cut at the ends of it. -/
theorem cut_iff (hk : start / 64 ≤ k) (hk' : k ≤ (stop - 1) / 64) (hj : j < 64)
    (h : start < stop) :
    ((if k = start / 64 then start % 64 else 0) ≤ j ∧
      j < if k = (stop - 1) / 64 then stop - 64 * k else 64) ↔
    start ≤ 64 * k + j ∧ 64 * k + j < stop := by
  split <;> split <;> omega

theorem anyBitSet_iff (word : Nat → Word) (start stop : Nat) : anyBitSet word start stop = true ↔
    ∃ i, start ≤ i ∧ i < stop ∧ (word (i / 64)).bit (i % 64) = true := by
  unfold anyBitSet
  split
  next hempty =>
    refine iff_of_false Bool.false_ne_true ?_
    rintro ⟨i, hlow, hhigh, -⟩
    omega
  next hne =>
    have h : start < stop := Nat.not_le.mp hne
    simp only [anyFrom_eq, List.any_eq_true, List.mem_range'_1, bne_iff_ne,
      Word.between_ne_zero_iff]
    constructor
    · rintro ⟨k, hk, j, hj, hlow, hhigh, hset⟩
      obtain ⟨hlow, hhigh⟩ := (cut_iff hk.1 (by omega) hj h).mp ⟨hlow, hhigh⟩
      have hq : (64 * k + j) / 64 = k := by omega
      have hr : (64 * k + j) % 64 = j := by omega
      exact ⟨64 * k + j, hlow, hhigh, by rwa [hq, hr]⟩
    · rintro ⟨i, hlow, hhigh, hset⟩
      have hj : i % 64 < 64 := Nat.mod_lt i (by decide)
      have hi : 64 * (i / 64) + i % 64 = i := Nat.div_add_mod i 64
      obtain ⟨hbelow, habove⟩ :=
        (cut_iff (k := i / 64) (j := i % 64) (by omega) (by omega) hj h).mpr
          (by rw [hi]; exact ⟨hlow, hhigh⟩)
      exact ⟨i / 64, by omega, i % 64, hj, hbelow, habove, hset⟩

end Words

theorem IndexSet.test?_eq_some_iff (s : IndexSet) (i : Nat) :
    s.test? i = some true ↔ i < s.bound ∧ s.test i = true := by
  unfold IndexSet.test?
  split
  next h => simp [h]
  next h => simp [h]

theorem IndexSet.anyIn_iff (s : IndexSet) (start length : Nat) : s.anyIn start length = true ↔
    ∃ i, start ≤ i ∧ i < start + length ∧ s.test? i = some true := by
  simp only [anyIn, anyBitSet_iff, test?_eq_some_iff, Nat.lt_min]
  exact exists_congr fun i => and_congr_right fun _ => and_assoc

/-- Whether a bit is set in a range is told exactly, for a tape as well as for a set. A range may be
empty or go beyond the bits that there are; for a set it is clipped, so that it does not matter
where a sum that is too large is cut off. -/
theorem range_tests_exact :
    (∀ (t : Tape) (start length : Nat), t.anySet start length = true ↔
      ∃ i, start ≤ i ∧ i < start + length ∧ t.bit i = true) ∧
    (∀ (s : IndexSet) (start length : Nat), s.anyIn start length = true ↔
      ∃ i, start ≤ i ∧ i < start + length ∧ s.test? i = some true) ∧
    ∀ (s : IndexSet) (start length greatest : Nat), s.bound ≤ greatest →
      anyBitSet s.word start (min (min (start + length) greatest) s.bound) =
        s.anyIn start length := by
  refine ⟨fun t start length => anyBitSet_iff _ _ _, IndexSet.anyIn_iff,
    fun s start length greatest hgreatest => ?_⟩
  rw [IndexSet.anyIn, Nat.min_assoc, Nat.min_eq_right hgreatest]

/-- A pending bit in the second word of a range, and the last number of a set in a range whose end
is no machine word. -/
theorem range_tests_exact_ends :
    let t := Tape.ofBits [0, 0, 0, 0, 0, 0, 0, 0, 4] 72
    let s := (IndexSet.empty 70).insert 69
    (t.anySet 60 7 = true ∧ ¬∃ i, 60 ≤ i ∧ i < 60 + 6 ∧ t.bit i = true) ∧
      s.bound ≤ 2 ^ 64 - 1 ∧ s.anyIn 69 (2 ^ 64 - 1) = true ∧
      anyBitSet s.word 69 (min (min (69 + (2 ^ 64 - 1)) (2 ^ 64 - 1)) s.bound) = true := by
  intro t s
  obtain ⟨htape, hset, hclipped⟩ := range_tests_exact
  have hnone : t.anySet 60 6 = false := by decide +kernel
  have hlast : s.anyIn 69 (2 ^ 64 - 1) = true :=
    (hset s _ _).mpr ⟨69, by decide, by decide, by decide +kernel⟩
  have hbound : s.bound ≤ 2 ^ 64 - 1 := by decide
  refine ⟨⟨(htape t 60 7).mpr ⟨66, by decide, by decide, by decide +kernel⟩, fun hsome => ?_⟩,
    hbound, hlast, (hclipped s 69 _ _ hbound).trans hlast⟩
  rw [← htape t 60 6, hnone] at hsome
  cases hsome

end VolumeCodec
