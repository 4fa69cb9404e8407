import VolumeCodec.Encoder
import VolumeCodec.Proofs.ActionRuns

namespace VolumeCodec

namespace Tape

/-- A bit before the write position in its word is pending, and every other one is stored. -/
theorem bit_eq (t : Tape) (i : Nat) :
    t.bit i = if i / 64 = t.writePosition / 64 ∧ i % 64 < t.writePosition % 64 then
      t.pending.bit (i % 64) else (t.storedWord (i / 64)).bit (i % 64) := by
  have hp := (Word.low_eq_self_iff _ _).mp t.pending_low (i % 64)
  have hi : i % 64 < 64 := Nat.mod_lt _ (by decide)
  unfold bit word
  by_cases hk : i / 64 = t.writePosition / 64 ∧ t.writePosition % 64 ≠ 0
  · rw [if_pos hk]
    by_cases hlt : i % 64 < t.writePosition % 64
    · simp [hk.1, hlt, hi]
    · simp [hlt, hi, hp (Nat.not_lt.mp hlt)]
  · have hn : ¬(i / 64 = t.writePosition / 64 ∧ i % 64 < t.writePosition % 64) :=
      fun h => hk ⟨h.1, by omega⟩
    rw [if_neg hk, if_neg hn]

theorem storedWord_store (t : Tape) (w : Word) (h : t.writePosition / 64 < t.words.size)
    (k : Nat) :
    (t.store w).storedWord k = if k = t.writePosition / 64 then w else t.storedWord k := by
  by_cases hk : k = t.writePosition / 64
  · subst hk
    simp [store, storedWord, Array.getD, h]
  · by_cases hs : k < t.words.size
    · simp [store, storedWord, Array.getD, hs, hk, Ne.symm hk]
    · simp [store, storedWord, Array.getD, hs, hk]

theorem bit_push (t : Tape) (b : Bool) (h : t.writePosition / 64 < t.words.size) (i : Nat) :
    (t.push b).bit i = if i = t.writePosition then b else t.bit i := by
  rw [bit_eq, bit_eq]
  unfold push
  split
  next hw =>
    have hz : (t.writePosition + 1) % 64 = 0 := by omega
    have hs := storedWord_store t (t.pending.setBit 63 b) h (i / 64)
    simp only [hz, Nat.not_lt_zero, and_false, if_false]
    show ((t.store _).storedWord (i / 64)).bit (i % 64) = _
    rw [hs]
    by_cases hk : i / 64 = t.writePosition / 64
    · rw [if_pos hk, Word.bit_setBit]
      by_cases hi : i = t.writePosition
      · subst hi; simp [hw]
      · have hlt : i % 64 < t.writePosition % 64 := by omega
        have hne : ¬(i % 64 = 63 ∧ i % 64 < 64) := by omega
        rw [if_neg hne, if_neg hi, if_pos ⟨hk, hlt⟩]
    · have hi : i ≠ t.writePosition := fun e => hk (by rw [e])
      simp [hk, hi]
  next hw =>
    have hq : (t.writePosition + 1) / 64 = t.writePosition / 64 := by omega
    have hr : (t.writePosition + 1) % 64 = t.writePosition % 64 + 1 := by omega
    simp only [hq, hr]
    by_cases hi : i = t.writePosition
    · subst hi
      have hm : t.writePosition % 64 < 64 := Nat.mod_lt _ (by decide)
      simp [hm]
    · have hne : ¬(i / 64 = t.writePosition / 64 ∧ i % 64 = t.writePosition % 64) := by omega
      rw [if_neg hi]
      by_cases hk : i / 64 = t.writePosition / 64 ∧ i % 64 < t.writePosition % 64
      · have hb : ¬(i % 64 = t.writePosition % 64 ∧ i % 64 < 64) := by omega
        rw [if_pos hk, if_pos ⟨hk.1, by omega⟩, Word.bit_setBit, if_neg hb]
      · rw [if_neg hk, if_neg (by omega)]
        rfl

@[simp] theorem writePosition_push (t : Tape) (b : Bool) :
    (t.push b).writePosition = t.writePosition + 1 := by
  unfold push
  split <;> rfl

theorem lt_doubledPast (index count : Nat) (h : 0 < count) : index < doubledPast index count := by
  fun_induction doubledPast index count with
  | case1 count hc ih => exact ih (by omega)
  | case2 count hc => omega

/-- A tape with its storage extended by zero words to at least a number of words. -/
def widen (t : Tape) (count : Nat) : Tape :=
  { t with words := t.words ++ Array.replicate (count - t.words.size) 0 }

theorem storedWord_widen (t : Tape) (count k : Nat) :
    (t.widen count).storedWord k = t.storedWord k := by
  unfold storedWord widen
  by_cases hk : k < t.words.size
  · simp [Array.getD, hk, Nat.lt_add_right]
  · simp only [Array.getD, hk, dif_neg, not_false_eq_true]
    split
    next h => simp [Array.getElem_append, hk]
    next => rfl

@[simp] theorem bit_widen (t : Tape) (count i : Nat) : (t.widen count).bit i = t.bit i := by
  rw [bit_eq, bit_eq, storedWord_widen]
  rfl

theorem size_widen (t : Tape) (count : Nat) :
    (t.widen count).words.size = max t.words.size count := by
  simp only [widen, Array.size_append, Array.size_replicate]
  omega

/-- A tape with room for the word at the write position. -/
def withRoom (t : Tape) : Tape :=
  if t.writePosition / 64 < t.words.size then t
  else t.widen (doubledPast (t.writePosition / 64) (max t.words.size 1))

theorem makeRoom_on (t : Tape) : (makeRoom .unbounded).on t = (.ok (), t.withRoom) := by
  unfold makeRoom withRoom Update.on
  simp only [Action.run_bind, Action.run_get, Action.run_ite, Action.run_pure]
  split <;> rfl

theorem lt_size_withRoom (t : Tape) : t.writePosition / 64 < t.withRoom.words.size := by
  unfold withRoom
  split
  next h => exact h
  next =>
    have := lt_doubledPast (t.writePosition / 64) (max t.words.size 1) (by omega)
    rw [size_widen]
    omega

@[simp] theorem writePosition_withRoom (t : Tape) :
    t.withRoom.writePosition = t.writePosition := by
  unfold withRoom
  split <;> rfl

@[simp] theorem bit_withRoom (t : Tape) (i : Nat) : t.withRoom.bit i = t.bit i := by
  unfold withRoom
  split
  next => rfl
  next => exact bit_widen t _ i

@[simp] theorem writePosition_commit (t : Tape) : t.commit.writePosition = t.writePosition := by
  unfold commit
  split <;> rfl

@[simp] theorem readPosition_commit (t : Tape) : t.commit.readPosition = t.readPosition := by
  unfold commit
  split <;> rfl

@[simp] theorem pending_commit (t : Tape) : t.commit.pending = t.pending := by
  unfold commit
  split <;> rfl

@[simp] theorem size_commit (t : Tape) : t.commit.words.size = t.words.size := by
  unfold commit
  split
  next => rfl
  next => exact Array.size_setIfInBounds

@[simp] theorem bit_commit (t : Tape) (i : Nat) : t.commit.bit i = t.bit i := by
  rw [bit, word_commit, bit]

theorem writeBit_on (t : Tape) (b : Bool) :
    (writeBit .unbounded b).on t = (.ok (), t.withRoom.push b) := by
  have h := makeRoom_on t
  unfold Update.on at h
  unfold writeBit Update.on
  simp only [Action.run_bind, h, Action.run_modify]

/-- Bits written one after the other stand in a row from the write position on. -/
theorem writeAll_on (bits : List Bool) (t : Tape) :
    ∃ t', (writeAll .unbounded bits).on t = (.ok (), t') ∧
      t'.writePosition = t.writePosition + bits.length ∧
      ∀ i, t'.bit i = if t.writePosition ≤ i then bits.getD (i - t.writePosition) (t.bit i)
        else t.bit i := by
  induction bits generalizing t with
  | nil => exact ⟨t, rfl, rfl, fun i => by simp⟩
  | cons b rest ih =>
    obtain ⟨t', hrun, hpos, hbit⟩ := ih (t.withRoom.push b)
    have hroom := lt_size_withRoom t
    refine ⟨t', ?_, ?_, fun i => ?_⟩
    · have hb := writeBit_on t b
      unfold Update.on at hb hrun
      unfold writeAll Update.on
      simp only [Action.run_bind, hb]
      exact hrun
    · rw [hpos]
      simp
      omega
    · rw [hbit i, bit_push _ _ (by simpa using hroom)]
      simp only [writePosition_push, writePosition_withRoom, bit_withRoom]
      by_cases hlt : t.writePosition ≤ i
      · rw [if_pos hlt]
        by_cases he : i = t.writePosition
        · subst he
          rw [if_neg (by omega), if_pos rfl, Nat.sub_self, List.getD_cons_zero]
        · have hs : i - t.writePosition = i - (t.writePosition + 1) + 1 := by omega
          rw [if_pos (by omega), if_neg he, hs, List.getD_cons_succ]
      · rw [if_neg hlt, if_neg (by omega), if_neg (by omega)]

/-- The loaded bits are those of the content. A later write to their word would spoil that. -/
def IsFresh (t : Tape) : Prop :=
  t.readPosition % 64 ≠ 0 →
    t.loaded = Word.shiftDown (t.word (t.readPosition / 64)) (t.readPosition % 64)

theorem isFresh_seekRead (t : Tape) (position : Nat) : (t.seekRead position).IsFresh := by
  intro h
  simp only [seekRead] at h
  simp only [seekRead, if_neg h]
  rfl

@[simp] theorem bit_seekRead (t : Tape) (position i : Nat) :
    (t.seekRead position).bit i = t.bit i :=
  rfl

@[simp] theorem bit_readBit (t : Tape) (i : Nat) : t.readBit.2.bit i = t.bit i := rfl

@[simp] theorem readPosition_readBit (t : Tape) : t.readBit.2.readPosition = t.readPosition + 1 :=
  rfl

/-- The word that is read from holds the rest of the word of the content. -/
theorem IsFresh.source {t : Tape} (h : t.IsFresh) (i : Nat) :
    (if t.readPosition % 64 = 0 then t.word (t.readPosition / 64) else t.loaded).bit i =
      (t.word (t.readPosition / 64)).bit (t.readPosition % 64 + i) := by
  split
  next hz => rw [hz, Nat.zero_add]
  next hz => rw [h hz, Word.bit_shiftDown]

theorem readBit_fst {t : Tape} (h : t.IsFresh) : t.readBit.1 = t.bit t.readPosition :=
  h.source 0

theorem isFresh_readBit {t : Tape} (h : t.IsFresh) : t.readBit.2.IsFresh := by
  intro hp
  simp only [readPosition_readBit] at hp ⊢
  have hq : (t.readPosition + 1) / 64 = t.readPosition / 64 := by omega
  have hr : (t.readPosition + 1) % 64 = t.readPosition % 64 + 1 := by omega
  apply Word.ext_bit
  intro i _
  simp only [readBit, Word.bit_shiftDown, hq, hr]
  rw [h.source (1 + i), ← Nat.add_assoc]
  rfl

/-- The next bits to be read. -/
def ahead (t : Tape) (n : Nat) : List Bool :=
  (List.range n).map fun i => t.bit (t.readPosition + i)

@[simp] theorem length_ahead (t : Tape) (n : Nat) : (t.ahead n).length = n := by
  simp [ahead]

@[simp] theorem ahead_zero (t : Tape) : t.ahead 0 = [] := rfl

theorem ahead_succ {t : Tape} (h : t.IsFresh) (n : Nat) :
    t.ahead (n + 1) = t.readBit.1 :: t.readBit.2.ahead n := by
  unfold ahead
  rw [List.range_succ_eq_map, List.map_cons, List.map_map, readBit_fst h, Nat.add_zero]
  congr 1
  apply List.map_congr_left
  intro i _
  simp only [Function.comp_apply, bit_readBit, readPosition_readBit]
  congr 1
  omega

/-- A tape from which `n` more bits have been read, and which is otherwise the same. -/
structure HasMoved (t : Tape) (n : Nat) (t' : Tape) : Prop where
  words : t'.words = t.words
  writePosition : t'.writePosition = t.writePosition
  pending : t'.pending = t.pending
  readPosition : t'.readPosition = t.readPosition + n

theorem HasMoved.refl (t : Tape) : t.HasMoved 0 t := ⟨rfl, rfl, rfl, rfl⟩

theorem HasMoved.readBit (t : Tape) : t.HasMoved 1 t.readBit.2 := ⟨rfl, rfl, rfl, rfl⟩

theorem HasMoved.trans {t t' t'' : Tape} {m n : Nat} (h : t.HasMoved m t')
    (h' : t'.HasMoved n t'') : t.HasMoved (n + m) t'' :=
  ⟨h'.words.trans h.words, h'.writePosition.trans h.writePosition, h'.pending.trans h.pending, by
    rw [h'.readPosition, h.readPosition]; omega⟩

theorem HasMoved.bit {t t' : Tape} {n : Nat} (h : t.HasMoved n t') (i : Nat) :
    t'.bit i = t.bit i := by
  rw [bit_eq, bit_eq, h.writePosition, h.pending]
  simp only [storedWord, h.words]

end Tape

end VolumeCodec
