import VolumeCodec.Proofs.TapeBytes

namespace VolumeCodec

/-- A word with bits below a place only, and the lowest bits of another one put on top of them. -/
theorem Word.bit_or_shiftUp {w : Word} {place : Nat} (hw : w.low place = w) (value : Word)
    (n : Nat) {i : Nat} (hi : i < 64) :
    (w ||| shiftUp (value.low n) place).bit i =
      if i < place then w.bit i else decide (i < place + n) && value.bit (i - place) := by
  have hlow := (low_eq_self_iff _ _).mp hw i
  rw [bit_or, bit_shiftUp, bit_low]
  split
  next hb => simp [Nat.not_le.mpr hb]
  next hb =>
    have hc : i - place < n ↔ i < place + n := by omega
    simp [hlow (Nat.not_lt.mp hb), hi, Nat.not_lt.mp hb, hc]

theorem Word.high_or_low (w : Word) (n : Nat) : (w &&& ~~~ones n) ||| w.low n = w := by
  apply ext_bit
  intro i hi
  by_cases hn : i < n
  · simp [hn, hi]
  · simp [hn, hi]

namespace Tape

section Content

/-- The bits of a short piece end in the word in which they begin. -/
theorem bit_pushBits_of_fits (t : Tape) (value : Word) {n : Nat} (hn : n ≤ 64)
    (hfits : t.writePosition % 64 + n < 64) (i : Nat) :
    (t.pushBits value n).bit i =
      if t.writePosition ≤ i ∧ i < t.writePosition + n then value.bit (i - t.writePosition)
      else t.bit i := by
  have hword := Word.bit_or_shiftUp t.pending_low value n (Nat.mod_lt i (by decide))
  have hq : (t.writePosition + n) / 64 = t.writePosition / 64 := by omega
  have hr : (t.writePosition + n) % 64 = t.writePosition % 64 + n := by omega
  rw [bit_eq, bit_eq]
  unfold pushBits
  simp only [Nat.min_eq_left hn, dif_pos hfits, hq, hr, hword]
  show (if _ then _ else (t.storedWord (i / 64)).bit (i % 64)) = _
  by_cases hk : i / 64 = t.writePosition / 64
  · by_cases hb : i % 64 < t.writePosition % 64
    · rw [if_pos ⟨hk, by omega⟩, if_pos hb, if_neg (by omega), if_pos ⟨hk, hb⟩]
    · by_cases hc : i % 64 < t.writePosition % 64 + n
      · have hs : i % 64 - t.writePosition % 64 = i - t.writePosition := by omega
        rw [if_pos ⟨hk, hc⟩, if_neg hb, if_pos (by omega), hs]
        simp [hc]
      · rw [if_neg (by omega), if_neg (by omega), if_neg (by omega)]
  · rw [if_neg (by omega), if_neg (by omega), if_neg (by omega)]

/-- The bits of a longer piece fill one word, which is stored, and go on in the next one. -/
theorem bit_pushBits_of_over (t : Tape) (value : Word) {n : Nat} (hn : n ≤ 64)
    (hover : ¬t.writePosition % 64 + n < 64) (h : t.writePosition / 64 < t.words.size) (i : Nat) :
    (t.pushBits value n).bit i =
      if t.writePosition ≤ i ∧ i < t.writePosition + n then value.bit (i - t.writePosition)
      else t.bit i := by
  have hword := Word.bit_or_shiftUp t.pending_low value n (Nat.mod_lt i (by decide))
  have hstored := storedWord_store t
    (t.pending ||| Word.shiftUp (value.low n) (t.writePosition % 64)) h (i / 64)
  have hq : (t.writePosition + n) / 64 = t.writePosition / 64 + 1 := by omega
  have hr : (t.writePosition + n) % 64 = t.writePosition % 64 + n - 64 := by omega
  rw [bit_eq, bit_eq]
  unfold pushBits
  simp only [Nat.min_eq_left hn, dif_neg hover, hq, hr]
  show (if _ then _ else ((t.store _).storedWord (i / 64)).bit (i % 64)) = _
  rw [hstored]
  by_cases hk : i / 64 = t.writePosition / 64
  · rw [if_neg (by omega), if_pos hk, hword]
    by_cases hb : i % 64 < t.writePosition % 64
    · rw [if_pos hb, if_neg (by omega), if_pos ⟨hk, hb⟩]
    · have hs : i % 64 - t.writePosition % 64 = i - t.writePosition := by omega
      have hc : i % 64 < t.writePosition % 64 + n := by omega
      rw [if_neg hb, if_pos (by omega), hs]
      simp [hc]
  · rw [if_neg hk]
    by_cases hnext : i / 64 = t.writePosition / 64 + 1 ∧ i % 64 < t.writePosition % 64 + n - 64
    · have hs : 64 - t.writePosition % 64 + i % 64 = i - t.writePosition := by omega
      have hc : i - t.writePosition < n := by omega
      rw [if_pos hnext, if_pos (by omega), Word.bit_shiftDown, Word.bit_low, hs]
      simp [hc]
    · rw [if_neg hnext, if_neg (by omega), if_neg (by omega)]

theorem bit_pushBits (t : Tape) (value : Word) {n : Nat} (hn : n ≤ 64)
    (h : t.writePosition / 64 < t.words.size) (i : Nat) :
    (t.pushBits value n).bit i =
      if t.writePosition ≤ i ∧ i < t.writePosition + n then value.bit (i - t.writePosition)
      else t.bit i := by
  by_cases hfits : t.writePosition % 64 + n < 64
  · exact bit_pushBits_of_fits t value hn hfits i
  · exact bit_pushBits_of_over t value hn hfits h i

/-- The whole content is in the storage. -/
def IsStored (t : Tape) : Prop :=
  ∀ k, t.storedWord k = t.word k

theorem isStored_commit {t : Tape} (h : t.IsBacked) : t.commit.IsStored := fun k => by
  rw [storedWord_commit h, word_commit]

theorem IsStored.widen {t : Tape} (h : t.IsStored) (count : Nat) : (t.widen count).IsStored :=
  fun k => by
    rw [storedWord_widen, h k]
    unfold word
    rw [storedWord_widen]
    rfl

theorem storedWord_setBit (t : Tape) {position : Nat} (h : position / 64 < t.words.size) (b : Bool)
    (k : Nat) : (t.setBit position b).storedWord k =
      if k = position / 64 then (t.storedWord k).setBit (position % 64) b else t.storedWord k := by
  unfold setBit seekRead storedWord
  by_cases hk : k = position / 64
  · subst hk
    simp [Array.getD, h]
  · by_cases hs : k < t.words.size
    · simp [Array.getD, hs, hk, Ne.symm hk]
    · simp [Array.getD, hs, hk]

theorem word_setBit {t : Tape} {position : Nat} (hs : t.IsStored)
    (h : position / 64 < t.words.size) (b : Bool) (k : Nat) :
    (t.setBit position b).word k =
      if k = position / 64 then (t.word k).setBit (position % 64) b else t.word k := by
  rw [word, storedWord_setBit t h]
  by_cases hk : k = position / 64
  · subst hk
    rw [if_pos rfl, if_pos rfl, ← hs]
    split
    next hw =>
      have hpending : (t.setBit position b).pending =
          ((t.storedWord (position / 64)).setBit (position % 64) b).low
            ((t.setBit position b).writePosition % 64) := if_pos hw.1
      rw [hpending, Word.high_or_low]
    next => rfl
  · rw [if_neg hk, if_neg hk]
    by_cases hw : k = t.writePosition / 64
    · have hpending : (t.setBit position b).pending = t.pending :=
        if_neg fun he => hk (hw.trans he.symm)
      rw [hpending]
      rfl
    · have hw' : ¬(k = t.writePosition / 64 ∧ t.writePosition % 64 ≠ 0) := fun he => hw he.1
      rw [word, if_neg hw']
      exact if_neg hw'

theorem bit_setBit {t : Tape} {position : Nat} (hs : t.IsStored)
    (h : position / 64 < t.words.size) (b : Bool) (i : Nat) :
    (t.setBit position b).bit i = if i = position then b else t.bit i := by
  have hlt : i % 64 < 64 := Nat.mod_lt i (by decide)
  rw [bit, word_setBit hs h]
  by_cases hk : i / 64 = position / 64
  · have hp : i % 64 = position % 64 ↔ i = position := by omega
    rw [if_pos hk, Word.bit_setBit]
    simp only [hp, hlt, and_true]
    rfl
  · rw [if_neg hk, if_neg fun he => hk (congrArg (· / 64) he)]
    rfl

end Content

section Room

variable {t : Tape}

theorem widen_of_le {count : Nat} (h : count ≤ t.words.size) : t.widen count = t := by
  simp [widen, Nat.sub_eq_zero_of_le h]

theorem doubledPast_doubledPast {i j : Nat} (h : i ≤ j) (count : Nat) :
    doubledPast j (doubledPast i count) = doubledPast j count := by
  fun_induction doubledPast i count with
  | case1 count hc ih =>
    rw [ih]
    conv_rhs => rw [doubledPast, if_pos ⟨hc.1, by omega⟩]
  | case2 count hc => rfl

/-- A number is doubled as often as it takes to exceed an index, and no more often. -/
theorem doubledPast_spec (index : Nat) {count : Nat} (h : 0 < count) :
    ∃ k, doubledPast index count = count * 2 ^ k ∧ index < count * 2 ^ k ∧
      ∀ j < k, count * 2 ^ j ≤ index := by
  fun_induction doubledPast index count with
  | case1 count hc ih =>
    obtain ⟨k, heq, hlt, hle⟩ := ih (by omega)
    have hstep : ∀ j, 2 * count * 2 ^ j = count * 2 ^ (j + 1) := fun j => by
      rw [Nat.pow_succ, Nat.mul_comm 2, Nat.mul_assoc, Nat.mul_comm 2]
    rw [hstep] at heq hlt
    refine ⟨k + 1, heq, hlt, fun j hj => ?_⟩
    cases j with
    | zero => simpa using hc.2
    | succ j => exact hstep j ▸ hle j (by omega)
  | case2 count hc => exact ⟨0, by simp, by omega, fun j hj => absurd hj (Nat.not_lt_zero j)⟩

theorem isBacked_of_lt (h : t.writePosition / 64 < t.words.size) : t.IsBacked :=
  fun hle => absurd h (Nat.not_lt.mpr hle)

/-- At the start of a word nothing is pending. -/
theorem isBacked_of_aligned (h : t.writePosition % 64 = 0) : t.IsBacked := fun _ => by
  rw [← t.pending_low, h]
  exact Word.ext_bit fun i _ => by simp

theorem isBacked_seekWrite (t : Tape) (position : Nat) : (t.seekWrite position).IsBacked := by
  intro h
  have hs : t.commit.storedWord (position / 64) = 0 := by
    simp only [storedWord, Array.getD]
    exact dif_neg (Nat.not_lt.mpr h)
  simp only [seekWrite, hs]
  exact Word.ext_bit fun i _ => by simp

theorem bit_of_capacity_le (h : t.IsBacked) {i : Nat} (hi : t.capacity ≤ i) : t.bit i = false := by
  have hsize : t.words.size ≤ i / 64 := by
    unfold capacity at hi
    omega
  have hstored : t.storedWord (i / 64) = 0 := by
    simp only [storedWord, Array.getD]
    exact dif_neg (Nat.not_lt.mpr hsize)
  rw [bit_eq, hstored]
  split
  next hk => rw [h (hk.1 ▸ hsize), Word.bit_zero]
  next => exact Word.bit_zero _

end Room

end Tape

end VolumeCodec
