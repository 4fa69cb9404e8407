import VolumeCodec.Proofs.TapeWrites

namespace VolumeCodec

namespace Tape

/-- What can be done with a tape. -/
inductive Operation
  | writeBit (b : Bool)
  | writeBits (value : Word) (n : Fin 65)
  | writeBitAt (position : Nat) (b : Bool)
  | commit
  | rewind
  | seekWrite (position : Nat)
  | seekRead (position : Nat)
  | readBit
  | readBits (n : Fin 65)
  | reserve (n : Nat)
  | load (bytes : List UInt8) (n : Nat)

def Operation.perform (memory : Memory) : Operation → Update Unit
  | writeBit b => Tape.writeBit memory b
  | writeBits value n => Tape.writeBits memory value n
  | writeBitAt position b => Tape.writeBitAt memory position b
  | commit => modify Tape.commit
  | rewind => modify Tape.rewind
  | seekWrite position => modify (Tape.seekWrite position)
  | seekRead position => modify (Tape.seekRead position)
  | readBit => modify fun t => t.readBit.2
  | readBits n => modify fun t => (t.readBits n).2
  | reserve n => Tape.reserve memory n
  | load bytes n => Tape.load memory bytes n

/-- Operations one after the other, up to the first one that fails. -/
def performAll (memory : Memory) : List Operation → Update Unit
  | [] => pure ()
  | op :: rest => do
    op.perform memory
    performAll memory rest

/-- The bytes to load are there. -/
def Operation.IsFed : Operation → Prop
  | load bytes n => bytesFor n ≤ bytes.length
  | _ => True

/-- A tape with bits of a word written to it, and with room where writing goes on inside a word. -/
def withBits (t : Tape) (value : Word) (n : Nat) : Tape :=
  if n = 0 then t
  else if (t.withRoom.pushBits value n).writePosition % 64 = 0 then t.withRoom.pushBits value n
  else (t.withRoom.pushBits value n).withRoom

/-- What a tape becomes when an operation succeeds. -/
def Operation.result : Operation → Tape → Tape
  | writeBit b, t => t.withRoom.push b
  | writeBits value n, t => t.withBits value n
  | writeBitAt position b, t => (t.commit.widen (wordsFor (position + 1))).setBit position b
  | commit, t => t.commit
  | rewind, t => t.rewind
  | seekWrite position, t => t.seekWrite position
  | seekRead position, t => t.seekRead position
  | readBit, t => t.readBit.2
  | readBits n, t => (t.readBits n).2
  | reserve n, t => t.widen (wordsFor n)
  | load bytes n, _ => ofBits bytes n

section Results

variable {memory : Memory} {t t' : Tape}

theorem on_bind_eq_ok {α β : Type} {u : Update α} {f : α → Update β} {b : β} :
    (u >>= f).on t = (.ok b, t') ↔ ∃ a r, u.on t = (.ok a, r) ∧ (f a).on r = (.ok b, t') :=
  Action.run_bind_eq_ok

theorem on_modify_eq_ok {f : Tape → Tape} {u : PUnit} :
    (modify f : Update PUnit).on t = (.ok u, t') ↔ t' = f t := by
  constructor
  · intro h
    cases h
    rfl
  · rintro rfl
    rfl

theorem on_lift_eq_ok {α : Type} {e : Except Fault α} {a : α}
    (h : (liftM e : Update α).on t = (.ok a, t')) : t' = t :=
  (Prod.mk.inj ((Action.run_lift e t).symm.trans h)).2.symm

theorem extend_eq_ok {count : Nat} (h : (extend memory count).on t = (.ok (), t')) :
    t' = t.widen count := by
  obtain ⟨_, r, hrequest, h⟩ := on_bind_eq_ok.mp h
  rw [on_lift_eq_ok hrequest] at h
  exact on_modify_eq_ok.mp h

theorem reserve_eq_ok {n : Nat} (h : (reserve memory n).on t = (.ok (), t')) :
    t' = t.widen (wordsFor n) := by
  obtain ⟨_, _, hget, h⟩ := on_bind_eq_ok.mp h
  cases hget
  by_cases hsize : t.words.size < wordsFor n
  · rw [if_pos hsize] at h
    exact extend_eq_ok h
  · rw [if_neg hsize] at h
    cases h
    exact (widen_of_le (Nat.not_lt.mp hsize)).symm

theorem makeRoom_eq_ok (h : (makeRoom memory).on t = (.ok (), t')) : t' = t.withRoom := by
  obtain ⟨_, _, hget, h⟩ := on_bind_eq_ok.mp h
  cases hget
  unfold withRoom
  by_cases hsize : t.writePosition / 64 < t.words.size
  · rw [if_pos hsize] at h ⊢
    cases h
    rfl
  · rw [if_neg hsize] at h ⊢
    exact extend_eq_ok h

theorem writeBits_eq_ok {value : Word} {n : Nat}
    (h : (writeBits memory value n).on t = (.ok (), t')) : t' = t.withBits value n := by
  unfold writeBits at h
  unfold withBits
  by_cases hn : n = 0
  · rw [if_pos hn] at h ⊢
    cases h
    rfl
  · rw [if_neg hn] at h ⊢
    obtain ⟨_, _, hroom, h⟩ := on_bind_eq_ok.mp h
    obtain ⟨_, _, hpush, h⟩ := on_bind_eq_ok.mp h
    obtain ⟨_, _, hget, h⟩ := on_bind_eq_ok.mp h
    cases hget
    obtain rfl := makeRoom_eq_ok hroom
    obtain rfl := on_modify_eq_ok.mp hpush
    split at h
    next hz =>
      rw [if_pos hz]
      cases h
      rfl
    next hz =>
      rw [if_neg hz]
      exact makeRoom_eq_ok h

theorem load_eq_ok {bytes : List UInt8} {n : Nat}
    (h : (load memory bytes n).on t = (.ok (), t')) : t' = ofBits bytes n := by
  unfold load at h
  by_cases hshort : bytes.length < bytesFor n
  · rw [if_pos hshort] at h
    cases h
  · rw [if_neg hshort] at h
    obtain ⟨_, _, hget, h⟩ := on_bind_eq_ok.mp h
    obtain ⟨_, _, hdrop, h⟩ := on_bind_eq_ok.mp h
    split at h
    next =>
      obtain ⟨_, _, hrequest, h⟩ := on_bind_eq_ok.mp h
      cases h
      rfl
    next =>
      cases h
      rfl

theorem Operation.result_of_perform {op : Operation}
    (h : (op.perform memory).on t = (.ok (), t')) : t' = op.result t := by
  cases op with
  | writeBit b =>
    obtain ⟨_, _, hroom, h⟩ := on_bind_eq_ok.mp h
    rw [on_modify_eq_ok.mp h, makeRoom_eq_ok hroom]
    rfl
  | writeBits value n => exact writeBits_eq_ok h
  | writeBitAt position b =>
    obtain ⟨_, _, hcommit, h⟩ := on_bind_eq_ok.mp h
    obtain ⟨_, _, hroom, h⟩ := on_bind_eq_ok.mp h
    rw [on_modify_eq_ok.mp h, reserve_eq_ok hroom, on_modify_eq_ok.mp hcommit]
    rfl
  | commit => exact on_modify_eq_ok.mp h
  | rewind => exact on_modify_eq_ok.mp h
  | seekWrite position => exact on_modify_eq_ok.mp h
  | seekRead position => exact on_modify_eq_ok.mp h
  | readBit => exact on_modify_eq_ok.mp h
  | readBits n => exact on_modify_eq_ok.mp h
  | reserve n => exact reserve_eq_ok h
  | load bytes n => exact load_eq_ok h

theorem reserve_on (t : Tape) (n : Nat) :
    (reserve .unbounded n).on t = (.ok (), t.widen (wordsFor n)) := by
  refine on_bind_eq_ok.mpr ⟨_, _, rfl, ?_⟩
  split
  next => rfl
  next h =>
    rw [widen_of_le (Nat.not_lt.mp h)]
    rfl

theorem writeBits_on (t : Tape) (value : Word) (n : Nat) :
    (writeBits .unbounded value n).on t = (.ok (), t.withBits value n) := by
  unfold writeBits withBits
  by_cases hn : n = 0
  · rw [if_pos hn, if_pos hn]
    rfl
  · rw [if_neg hn, if_neg hn]
    refine on_bind_eq_ok.mpr ⟨_, _, makeRoom_on t, on_bind_eq_ok.mpr ⟨_, _, rfl,
      on_bind_eq_ok.mpr ⟨_, _, rfl, ?_⟩⟩⟩
    split
    next => rfl
    next => exact makeRoom_on _

/-- With memory enough, an operation fails only where there are too few bytes to load. -/
theorem Operation.perform_unbounded {op : Operation} (h : op.IsFed) (t : Tape) :
    (op.perform .unbounded).on t = (.ok (), op.result t) := by
  cases op with
  | writeBit b => exact writeBit_on t b
  | writeBits value n => exact writeBits_on t value n
  | writeBitAt position b =>
    exact on_bind_eq_ok.mpr ⟨_, _, rfl, on_bind_eq_ok.mpr ⟨_, _, reserve_on _ _, rfl⟩⟩
  | commit => rfl
  | rewind => rfl
  | seekWrite position => rfl
  | seekRead position => rfl
  | readBit => rfl
  | readBits n => rfl
  | reserve n => exact reserve_on t n
  | load bytes n => exact load_on h t

/-- With memory enough, operations go on to the last one, unless there are too few bytes to load. -/
theorem performAll_unbounded {ops : List Operation} (h : ∀ op ∈ ops, op.IsFed) (t : Tape) :
    (performAll .unbounded ops).on t = (.ok (), ops.foldl (fun t op => op.result t) t) := by
  induction ops generalizing t with
  | nil => rfl
  | cons op rest ih =>
    have hop := Operation.perform_unbounded (h op List.mem_cons_self) t
    exact on_bind_eq_ok.mpr
      ⟨_, _, hop, ih (fun op' hop' => h op' (List.mem_cons_of_mem op hop')) (op.result t)⟩

end Results

section Fields

variable {t : Tape}

@[simp] theorem readPosition_withRoom (t : Tape) : t.withRoom.readPosition = t.readPosition := by
  unfold withRoom
  split <;> rfl

@[simp] theorem readPosition_push (t : Tape) (b : Bool) :
    (t.push b).readPosition = t.readPosition := by
  unfold push
  split <;> rfl

@[simp] theorem size_push (t : Tape) (b : Bool) : (t.push b).words.size = t.words.size := by
  unfold push
  split
  next => exact Array.size_setIfInBounds
  next => rfl

theorem writePosition_pushBits (t : Tape) (value : Word) {n : Nat} (hn : n ≤ 64) :
    (t.pushBits value n).writePosition = t.writePosition + n := by
  unfold pushBits
  simp only [Nat.min_eq_left hn]
  split <;> rfl

@[simp] theorem readPosition_pushBits (t : Tape) (value : Word) (n : Nat) :
    (t.pushBits value n).readPosition = t.readPosition := by
  unfold pushBits
  dsimp only
  split <;> rfl

@[simp] theorem size_pushBits (t : Tape) (value : Word) (n : Nat) :
    (t.pushBits value n).words.size = t.words.size := by
  unfold pushBits
  dsimp only
  split
  next => rfl
  next => exact Array.size_setIfInBounds

@[simp] theorem size_setBit (t : Tape) (position : Nat) (b : Bool) :
    (t.setBit position b).words.size = t.words.size :=
  Array.size_setIfInBounds

@[simp] theorem loaded_push (t : Tape) (b : Bool) : (t.push b).loaded = t.loaded := by
  unfold push
  split <;> rfl

@[simp] theorem loaded_pushBits (t : Tape) (value : Word) (n : Nat) :
    (t.pushBits value n).loaded = t.loaded := by
  unfold pushBits
  dsimp only
  split <;> rfl

@[simp] theorem loaded_withRoom (t : Tape) : t.withRoom.loaded = t.loaded := by
  unfold withRoom
  split <;> rfl

theorem isBacked_writeBitAt (h : t.IsBacked) (position : Nat) (b : Bool) :
    ((t.commit.widen (wordsFor (position + 1))).setBit position b).IsBacked := by
  intro hle
  rw [size_setBit, size_widen, size_commit] at hle
  have hroom : max t.words.size (wordsFor (position + 1)) ≤ t.writePosition / 64 :=
    writePosition_commit t ▸ hle
  -- The word at the write position has no storage, and so it is not the one that was written.
  have hne : ¬position / 64 = t.commit.writePosition / 64 := by
    rw [writePosition_commit]
    unfold wordsFor at hroom
    omega
  have hpending : ((t.commit.widen (wordsFor (position + 1))).setBit position b).pending =
      t.commit.pending := if_neg hne
  exact hpending.trans ((pending_commit t).trans (h (by omega)))

theorem isBacked_result (h : t.IsBacked) (op : Operation) : (op.result t).IsBacked := by
  cases op with
  | writeBit b =>
    by_cases hz : (t.withRoom.push b).writePosition % 64 = 0
    · exact isBacked_of_aligned hz
    · have hroom := lt_size_withRoom t
      refine isBacked_of_lt ?_
      rw [writePosition_push, writePosition_withRoom] at hz
      show (t.withRoom.push b).writePosition / 64 < (t.withRoom.push b).words.size
      rw [size_push, writePosition_push, writePosition_withRoom]
      omega
  | writeBits value n =>
    show (t.withBits value n).IsBacked
    unfold withBits
    split
    next => exact h
    next =>
      split
      next hz => exact isBacked_of_aligned hz
      next =>
        refine isBacked_of_lt ?_
        rw [writePosition_withRoom]
        exact lt_size_withRoom _
  | writeBitAt position b => exact isBacked_writeBitAt h position b
  | commit =>
    intro hle
    have hroom : t.words.size ≤ t.writePosition / 64 := by simpa [Operation.result] using hle
    exact (pending_commit t).trans (h hroom)
  | rewind => exact fun _ => rfl
  | seekWrite position => exact isBacked_seekWrite t position
  | seekRead position => exact h
  | readBit => exact h
  | readBits n =>
    show (t.readBits n).2.IsBacked
    unfold readBits
    dsimp only
    split <;> exact h
  | reserve n =>
    intro hle
    have hroom : max t.words.size (wordsFor n) ≤ t.writePosition / 64 := by
      rw [← size_widen]
      exact hle
    exact h (by omega)
  | load bytes n => exact isBacked_seekWrite _ n

end Fields

section Reading

variable {t : Tape} {n : Nat}

theorem hasMoved_readBits (t : Tape) (hn : n ≤ 64) : t.HasMoved n (t.readBits n).2 := by
  unfold readBits
  simp only [Nat.min_eq_left hn]
  split <;> exact ⟨rfl, rfl, rfl, rfl⟩

/-- Bits that are all loaded already. -/
theorem readBits_of_held (h : n ≤ (64 - t.readPosition % 64) % 64) :
    (t.readBits n).1 = t.loaded.low n ∧
      (t.readBits n).2.loaded = Word.shiftDown t.loaded n := by
  have hmin : min n 64 = n := by omega
  simp only [readBits, hmin, dif_pos h, and_self]

/-- Bits that reach beyond what is loaded. -/
theorem readBits_of_beyond (hn : n ≤ 64) (h : (64 - t.readPosition % 64) % 64 < n) :
    (t.readBits n).1 = t.loaded ||| Word.shiftUp
        ((t.word ((t.readPosition + 63) / 64)).low (n - (64 - t.readPosition % 64) % 64))
        ((64 - t.readPosition % 64) % 64) ∧
      (t.readBits n).2.loaded = Word.shiftDown (t.word ((t.readPosition + 63) / 64))
        (n - (64 - t.readPosition % 64) % 64) := by
  simp only [readBits, Nat.min_eq_left hn, dif_neg (Nat.not_le.mpr h), and_self]

/-- The loaded bits come first, and behind them those of the next word. -/
theorem bit_readBits (t : Tape) (hn : n ≤ 64) (i : Nat) :
    (t.readBits n).1.bit i = (decide (i < n) &&
      if i < (64 - t.readPosition % 64) % 64 then t.loaded.bit i
      else (t.word ((t.readPosition + 63) / 64)).bit (i - (64 - t.readPosition % 64) % 64)) := by
  have hloaded := (Word.low_eq_self_iff _ _).mp t.loaded_low i
  by_cases h : n ≤ (64 - t.readPosition % 64) % 64
  · rw [(readBits_of_held h).1, Word.bit_low]
    by_cases hi : i < n
    · rw [if_pos (by omega)]
    · simp [hi]
  · rw [(readBits_of_beyond hn (Nat.not_le.mp h)).1, Word.bit_or, Word.bit_shiftUp, Word.bit_low]
    by_cases hheld : i < (64 - t.readPosition % 64) % 64
    · have hi : i < n := by omega
      simp [hheld, hi, Nat.not_le.mpr hheld]
    · have hless : i - (64 - t.readPosition % 64) % 64 <
          n - (64 - t.readPosition % 64) % 64 ↔ i < n := by omega
      rw [hloaded (by omega), Bool.false_or, if_neg hheld]
      simp only [hless]
      by_cases hi : i < n
      · have hlt : i < 64 := by omega
        simp [hi, hlt, Nat.not_lt.mp hheld]
      · simp [hi]

end Reading

end Tape

end VolumeCodec
