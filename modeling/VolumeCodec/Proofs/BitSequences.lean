import Mathlib.Data.Nat.Find
import VolumeCodec.Proofs.TapeOperations

namespace VolumeCodec

theorem exists_lt_doubled (words index : Nat) : ∃ k, index < max words 1 * 2 ^ k :=
  ⟨index, Nat.lt_of_lt_of_le Nat.lt_two_pow_self (Nat.le_mul_of_pos_left _ (by omega))⟩

/-- The number of words after as few doublings as make room for one more index, from one word on if
there are none. -/
def doubledFor (words index : Nat) : Nat :=
  max words 1 * 2 ^ Nat.find (exists_lt_doubled words index)

/-- A plain sequence of bits without end, with a place for writing, one for reading, and a number of
words that there is room for. -/
@[ext] structure BitSequence where
  bit : Nat → Bool
  writePosition : Nat
  readPosition : Nat
  room : Nat

namespace BitSequence

def blank (room : Nat) : BitSequence :=
  ⟨fun _ => false, 0, 0, room⟩

/-- Puts `n` bits at the place for writing, which moves behind them. -/
def write (s : BitSequence) (n : Nat) (value : Nat → Bool) : BitSequence :=
  if n = 0 then s
  else
    { s with
      bit := fun i =>
        if s.writePosition ≤ i ∧ i < s.writePosition + n then value (i - s.writePosition)
        else s.bit i
      writePosition := s.writePosition + n
      room := doubledFor s.room ((s.writePosition + n - 1) / 64) }

/-- Puts one bit at some position. -/
def put (s : BitSequence) (position : Nat) (b : Bool) : BitSequence :=
  { s with
    bit := fun i => if i = position then b else s.bit i
    room := max s.room (wordsFor (position + 1)) }

end BitSequence

namespace Tape

/-- What an operation does to a plain sequence. -/
def Operation.effect : Operation → BitSequence → BitSequence
  | writeBit b, s => s.write 1 fun _ => b
  | writeBits value n, s => s.write n value.bit
  | writeBitAt position b, s => s.put position b
  | commit, s => s
  | rewind, s => { s with writePosition := 0, readPosition := 0 }
  | seekWrite position, s => { s with writePosition := position }
  | seekRead position, s => { s with readPosition := position }
  | readBit, s => { s with readPosition := s.readPosition + 1 }
  | readBits n, s => { s with readPosition := s.readPosition + n }
  | reserve n, s => { s with room := max s.room (wordsFor n) }
  | load bytes n, _ => ⟨fun i => decide (i < n) && bitOfBytes bytes i, n, 0, wordsFor n⟩

/-- The positions that an operation writes to. -/
def Operation.Writes : Operation → BitSequence → Nat → Prop
  | writeBit _, s, i => i = s.writePosition
  | writeBits _ n, s, i => s.writePosition ≤ i ∧ i < s.writePosition + n
  | writeBitAt position _, _, i => i = position
  | load _ n, _, i => i < n
  | _, _, _ => False

end Tape

/-- A sequence after some operations. -/
def BitSequence.after (s : BitSequence) (ops : List Tape.Operation) : BitSequence :=
  ops.foldl (fun s op => op.effect s) s

namespace Tape

/-- A tape as a plain sequence. -/
def view (t : Tape) : BitSequence :=
  ⟨t.bit, t.writePosition, t.readPosition, t.words.size⟩

section Doubling

theorem doubledPast_max_one (words index : Nat) :
    doubledPast index (max words 1) = doubledFor words index := by
  obtain ⟨k, heq, hlt, hle⟩ := doubledPast_spec index (Nat.le_max_right words 1)
  have hfind : Nat.find (exists_lt_doubled words index) = k :=
    (Nat.find_eq_iff _).mpr ⟨hlt, fun j hj => Nat.not_lt.mpr (hle j hj)⟩
  rw [heq, doubledFor, hfind]

theorem doubledFor_of_lt {words index : Nat} (h : index < words) :
    doubledFor words index = words := by
  have hmax : max words 1 = words := by omega
  rw [← doubledPast_max_one, hmax, doubledPast, if_neg (by omega)]

theorem lt_doubledFor (words index : Nat) : index < doubledFor words index :=
  Nat.find_spec (exists_lt_doubled words index)

theorem le_doubledFor (words index : Nat) : words ≤ doubledFor words index :=
  Nat.le_trans (Nat.le_max_left words 1) (Nat.le_mul_of_pos_right _ (Nat.two_pow_pos _))

/-- Room made for one word and then for a later one is room made for the later one. -/
theorem doubledFor_doubledFor {i j : Nat} (h : i ≤ j) (words : Nat) :
    doubledFor (doubledFor words i) j = doubledFor words j := by
  have hpos := lt_doubledFor words i
  have hmax : max (doubledFor words i) 1 = doubledFor words i := by omega
  rw [← doubledPast_max_one, hmax, ← doubledPast_max_one, doubledPast_doubledPast h,
    doubledPast_max_one]

theorem size_withRoom (t : Tape) :
    t.withRoom.words.size = doubledFor t.words.size (t.writePosition / 64) := by
  unfold withRoom
  split
  next h => rw [doubledFor_of_lt h]
  next h => rw [size_widen, doubledPast_max_one, Nat.max_eq_right (le_doubledFor _ _)]

end Doubling

section Views

variable {t : Tape}

theorem view_writeBit (t : Tape) (b : Bool) :
    (t.withRoom.push b).view = t.view.write 1 fun _ => b := by
  have hroom := lt_size_withRoom t
  rw [← writePosition_withRoom] at hroom
  unfold BitSequence.write
  rw [if_neg (by decide)]
  refine BitSequence.ext (funext fun i => ?_) ?_ ?_ ?_
  · have hi : i = t.writePosition ↔ t.writePosition ≤ i ∧ i < t.writePosition + 1 := by omega
    show (t.withRoom.push b).bit i = _
    rw [bit_push _ b hroom, writePosition_withRoom, bit_withRoom]
    exact if_congr hi rfl rfl
  · simp [view]
  · simp [view]
  · simp [view, size_withRoom]

theorem view_withBits (t : Tape) (value : Word) {n : Nat} (hn : n ≤ 64) :
    (t.withBits value n).view = t.view.write n value.bit := by
  by_cases hzero : n = 0
  · rw [withBits, if_pos hzero, BitSequence.write, if_pos hzero]
  have hroom := lt_size_withRoom t
  rw [← writePosition_withRoom] at hroom
  have hbit : ∀ i, (t.withRoom.pushBits value n).bit i = (t.view.write n value.bit).bit i := by
    intro i
    rw [bit_pushBits t.withRoom value hn hroom, writePosition_withRoom, bit_withRoom,
      BitSequence.write, if_neg hzero]
    rfl
  have hposition := writePosition_pushBits t.withRoom value hn
  rw [writePosition_withRoom] at hposition
  rw [withBits, if_neg hzero]
  split
  next hz =>
    -- The bits end with the word in which they begin.
    have hword : t.writePosition / 64 = (t.writePosition + n - 1) / 64 := by omega
    refine BitSequence.ext (funext hbit) ?_ ?_ ?_
    · simp [view, BitSequence.write, hzero, hposition]
    · simp [view, BitSequence.write, hzero]
    · simp [view, BitSequence.write, hzero, size_withRoom, hword]
  next hz =>
    have hword : (t.writePosition + n) / 64 = (t.writePosition + n - 1) / 64 := by omega
    have hle : t.writePosition / 64 ≤ (t.writePosition + n - 1) / 64 := by omega
    refine BitSequence.ext (funext fun i => (bit_withRoom _ i).trans (hbit i)) ?_ ?_ ?_
    · simp [view, BitSequence.write, hzero, hposition]
    · simp [view, BitSequence.write, hzero]
    · simp [view, BitSequence.write, hzero, size_withRoom, hposition, hword,
        doubledFor_doubledFor hle]

theorem view_rewind (h : t.IsBacked) :
    t.rewind.view = { t.view with writePosition := 0, readPosition := 0 } := by
  refine BitSequence.ext (funext fun i => ?_) rfl rfl (size_commit t)
  show t.rewind.bit i = t.bit i
  have hstored : t.rewind.storedWord (i / 64) = t.word (i / 64) := storedWord_commit h (i / 64)
  rw [bit_eq, hstored]
  exact if_neg fun hk => Nat.not_lt_zero _ hk.2

theorem view_seekWrite (h : t.IsBacked) (position : Nat) :
    (t.seekWrite position).view = { t.view with writePosition := position } :=
  BitSequence.ext (funext fun i => bit_seekWrite h position i) rfl (readPosition_commit t)
    (size_commit t)

theorem view_readBits (t : Tape) {n : Nat} (hn : n ≤ 64) :
    (t.readBits n).2.view = { t.view with readPosition := t.readPosition + n } := by
  have hmoved := hasMoved_readBits t hn
  exact BitSequence.ext (funext hmoved.bit) hmoved.writePosition hmoved.readPosition
    (congrArg Array.size hmoved.words)

theorem view_writeBitAt (h : t.IsBacked) (position : Nat) (b : Bool) :
    ((t.commit.widen (wordsFor (position + 1))).setBit position b).view =
      t.view.put position b := by
  have hroom : position / 64 < (t.commit.widen (wordsFor (position + 1))).words.size := by
    rw [size_widen]
    unfold wordsFor
    omega
  refine BitSequence.ext (funext fun i => ?_) ?_ ?_ ?_
  · show ((t.commit.widen _).setBit position b).bit i = if i = position then b else t.bit i
    rw [bit_setBit ((isStored_commit h).widen _) hroom, bit_widen, bit_commit]
  · exact writePosition_commit t
  · exact readPosition_commit t
  · show ((t.commit.widen _).setBit position b).words.size = max t.words.size _
    rw [size_setBit, size_widen, size_commit]

theorem view_ofBits (bytes : List UInt8) (n : Nat) :
    (ofBits bytes n).view = ⟨fun i => decide (i < n) && bitOfBytes bytes i, n, 0, wordsFor n⟩ := by
  refine BitSequence.ext (funext fun i => bit_ofBits bytes n i) rfl rfl ?_
  show (ofBits bytes n).words.size = wordsFor n
  simp [ofBits, seekWrite, length_wordsOfBytes]

/-- An operation that succeeds does to a tape what it does to a plain sequence. -/
theorem view_result (h : t.IsBacked) (op : Operation) :
    (op.result t).view = op.effect t.view := by
  cases op with
  | writeBit b => exact view_writeBit t b
  | writeBits value n => exact view_withBits t value (Nat.le_of_lt_succ n.isLt)
  | writeBitAt position b => exact view_writeBitAt h position b
  | commit =>
    exact BitSequence.ext (funext fun i => bit_commit t i) (writePosition_commit t)
      (readPosition_commit t) (size_commit t)
  | rewind => exact view_rewind h
  | seekWrite position => exact view_seekWrite h position
  | seekRead position => rfl
  | readBit => rfl
  | readBits n => exact view_readBits t (Nat.le_of_lt_succ n.isLt)
  | reserve n =>
    exact BitSequence.ext (funext fun i => bit_widen t _ i) rfl rfl (size_widen t _)
  | load bytes n => exact view_ofBits bytes n

end Views

end Tape

namespace BitSequence

theorem bit_write (s : BitSequence) (n : Nat) (value : Nat → Bool) (i : Nat) :
    (s.write n value).bit i =
      if s.writePosition ≤ i ∧ i < s.writePosition + n then value (i - s.writePosition)
      else s.bit i := by
  by_cases hn : n = 0
  · rw [write, if_pos hn, if_neg (by omega)]
  · rw [write, if_neg hn]

theorem bit_effect_of_not_writes {op : Tape.Operation} {s : BitSequence} {i : Nat}
    (h : ¬op.Writes s i) (hclear : s.bit i = false) : (op.effect s).bit i = false := by
  cases op with
  | writeBit b =>
    have hi : ¬(s.writePosition ≤ i ∧ i < s.writePosition + 1) := fun hi =>
      h (show i = s.writePosition by omega)
    exact (bit_write s 1 (fun _ => b) i).trans ((if_neg hi).trans hclear)
  | writeBits value n => exact (bit_write s n value.bit i).trans ((if_neg h).trans hclear)
  | writeBitAt position b => exact (if_neg h).trans hclear
  | load bytes n =>
    have hi : ¬i < n := h
    show (decide (i < n) && _) = false
    simp [hi]
  | _ => exact hclear

/-- Some operation of a row writes to a position. -/
def IsWritten (s : BitSequence) : List Tape.Operation → Nat → Prop
  | [], _ => False
  | op :: rest, i => op.Writes s i ∨ (op.effect s).IsWritten rest i

theorem bit_after_of_not_written {s : BitSequence} {ops : List Tape.Operation} {i : Nat}
    (h : ¬s.IsWritten ops i) (hclear : s.bit i = false) : (s.after ops).bit i = false := by
  induction ops generalizing s with
  | nil => exact hclear
  | cons op rest ih =>
    obtain ⟨hop, hrest⟩ := not_or.mp h
    exact ih hrest (bit_effect_of_not_writes hop hclear)

/-- Only loading can take room away. -/
theorem room_le_effect {op : Tape.Operation} (h : ∀ bytes n, op ≠ .load bytes n)
    (s : BitSequence) : s.room ≤ (op.effect s).room := by
  have hwrite : ∀ n value, s.room ≤ (s.write n value).room := by
    intro n value
    unfold write
    split
    next => exact Nat.le_refl _
    next => exact Tape.le_doubledFor _ _
  cases op with
  | writeBit b => exact hwrite _ _
  | writeBits value n => exact hwrite _ _
  | writeBitAt position b => exact Nat.le_max_left _ _
  | reserve n => exact Nat.le_max_left _ _
  | load bytes n => exact absurd rfl (h bytes n)
  | _ => exact Nat.le_refl _

end BitSequence

section Runs

variable {memory : Memory} {start t : Tape} {ops : List Tape.Operation}

theorem Tape.view_performAll (h : start.IsBacked)
    (hrun : (Tape.performAll memory ops).on start = (.ok (), t)) :
    t.IsBacked ∧ t.view = start.view.after ops := by
  induction ops generalizing start with
  | nil =>
    cases hrun
    exact ⟨h, rfl⟩
  | cons op rest ih =>
    obtain ⟨_, r, hop, hrest⟩ := Tape.on_bind_eq_ok.mp hrun
    obtain rfl := Tape.Operation.result_of_perform hop
    obtain ⟨hbacked, hview⟩ := ih (Tape.isBacked_result h op) hrest
    rw [Tape.view_result h op] at hview
    exact ⟨hbacked, hview⟩

theorem Tape.allocate_eq_ok {n : Nat} (h : Tape.allocate memory n = .ok start) :
    start = Tape.empty.widen (wordsFor n) := by
  unfold Tape.allocate at h
  split at h
  next r hr =>
    cases h
    exact Tape.reserve_eq_ok hr
  next => cases h

theorem Tape.view_widen_empty (count : Nat) :
    (Tape.empty.widen count).view = .blank (Tape.empty.widen count).words.size :=
  have hclear : ∀ i, (Tape.empty.widen count).bit i = false := fun i => by
    rw [bit_widen]
    exact bit_of_capacity_le (fun _ => rfl) (Nat.zero_le i)
  BitSequence.ext (funext hclear) rfl rfl rfl

/-- A new tape, whatever it has room for, does what a plain sequence of clear bits does, operation
by operation. What was not written is clear, and so is all that there is no room for. -/
theorem tape_is_sequence
    (hstart : start = .empty ∨ ∃ n, Tape.allocate memory n = .ok start)
    (hrun : (Tape.performAll memory ops).on start = (.ok (), t)) :
    t.view = (BitSequence.blank start.words.size).after ops ∧
      (∀ op t', (Tape.Operation.perform memory op).on t = (.ok (), t') →
        t'.view = op.effect t.view ∧
          ((∀ bytes n, op ≠ .load bytes n) → t.capacity ≤ t'.capacity)) ∧
      (∀ i, t.capacity ≤ i ∨ ¬(BitSequence.blank start.words.size).IsWritten ops i →
        t.bit i = false) ∧
      64 ∣ t.capacity := by
  obtain ⟨count, rfl⟩ : ∃ count, start = Tape.empty.widen count := by
    obtain rfl | ⟨n, hn⟩ := hstart
    · exact ⟨0, (Tape.widen_of_le (Nat.zero_le _)).symm⟩
    · exact ⟨_, Tape.allocate_eq_ok hn⟩
  obtain ⟨hbacked, hview⟩ := Tape.view_performAll (fun _ => rfl) hrun
  rw [Tape.view_widen_empty] at hview
  refine ⟨hview, fun op t' hop => ?_, fun i hi => ?_, Nat.dvd_mul_right 64 _⟩
  · obtain rfl := Tape.Operation.result_of_perform hop
    have heffect := Tape.view_result hbacked op
    refine ⟨heffect, fun hload => Nat.mul_le_mul_left 64 ?_⟩
    have hroom := BitSequence.room_le_effect hload t.view
    rwa [← heffect] at hroom
  · obtain hcapacity | hwritten := hi
    · exact Tape.bit_of_capacity_le hbacked hcapacity
    · show t.view.bit i = false
      rw [hview]
      exact BitSequence.bit_after_of_not_written hwritten rfl

/-- Bits that begin before there is storage and go on in a second word, and two more after that. -/
theorem tape_is_sequence_across_words :
    let ops : List Tape.Operation :=
      [.seekWrite 60, .writeBits 0xA5 8, .rewind, .writeBitAt 130 true, .writeBit true]
    ∃ t, (Tape.performAll .unbounded ops).on .empty = (.ok (), t) ∧
      t.view = (BitSequence.blank 0).after ops ∧ t.capacity = 192 ∧
      (List.range 192).filter t.bit = [0, 60, 62, 65, 67, 130] ∧ t.bit 192 = false := by
  intro ops
  have hfed : ∀ op ∈ ops, op.IsFed := by simp [ops, Tape.Operation.IsFed]
  have hrun := Tape.performAll_unbounded hfed .empty
  obtain ⟨hview, -, hclear, -⟩ := tape_is_sequence (.inl rfl) hrun
  have hcapacity : Tape.capacity _ = 64 * 3 :=
    congrArg (64 * ·) ((congrArg BitSequence.room hview).trans (by decide +kernel))
  refine ⟨_, hrun, hview, hcapacity, ?_, hclear 192 (.inl (Nat.le_of_eq hcapacity))⟩
  exact (congrArg (fun s : BitSequence => (List.range 192).filter s.bit) hview).trans rfl

end Runs

end VolumeCodec
