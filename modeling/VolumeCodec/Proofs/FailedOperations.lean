import VolumeCodec.Proofs.TapeOperations

namespace VolumeCodec

variable {memory : Memory} {e : Fault}

theorem Memory.request_eq_error {bytes : Nat} (h : memory.request bytes = .error e) :
    e = .allocation bytes := by
  unfold request at h
  split at h
  next => cases h
  next => exact (Except.error.inj h).symm

namespace Tape

/-- A step of somebody who reads on, perhaps at another place. -/
inductive Reading
  | bit
  | bits (n : Nat)
  | seek (position : Nat)

/-- What is read from a tape, step by step. -/
def reads : List Reading → Tape → List Word
  | [], _ => []
  | .bit :: rest, t => t.readBit.1.toUInt64 :: reads rest t.readBit.2
  | .bits n :: rest, t => (t.readBits n).1 :: reads rest (t.readBits n).2
  | .seek position :: rest, t => reads rest (t.seekRead position)

/-- Two tapes that cannot be told apart by looking at them or reading on. -/
structure LooksLike (t' t : Tape) : Prop where
  bit : ∀ i, t'.bit i = t.bit i
  writePosition : t'.writePosition = t.writePosition
  readPosition : t'.readPosition = t.readPosition
  capacity : t'.capacity = t.capacity
  reads : ∀ readings, reads readings t' = reads readings t

section Looks

variable {t t' : Tape}

theorem LooksLike.refl (t : Tape) : t.LooksLike t := ⟨fun _ => rfl, rfl, rfl, rfl, fun _ => rfl⟩

theorem reads_congr (hword : t'.word = t.word) (hposition : t'.readPosition = t.readPosition)
    (hloaded : t'.loaded = t.loaded) (readings : List Reading) :
    reads readings t' = reads readings t := by
  induction readings generalizing t t' with
  | nil => rfl
  | cons reading rest ih =>
    cases reading with
    | bit =>
      have hw := congrFun hword (t.readPosition / 64)
      have hbit : t'.readBit.1 = t.readBit.1 := by simp only [readBit, hposition, hloaded, hw]
      have hrest : reads rest t'.readBit.2 = reads rest t.readBit.2 :=
        ih hword (congrArg (· + 1) hposition) (by simp only [readBit, hposition, hloaded, hw])
      simp only [reads, hbit, hrest]
    | bits n =>
      have hw := congrFun hword ((t.readPosition + 63) / 64)
      have hbits : (t'.readBits n).1 = (t.readBits n).1 := by
        simp only [readBits, hposition, hloaded, hw]
        split <;> rfl
      have hrest : reads rest (t'.readBits n).2 = reads rest (t.readBits n).2 := by
        refine ih ?_ ?_ ?_
        · funext k
          rw [word_readBits, word_readBits, hword]
        · simp only [readBits, hposition]
          split <;> rfl
        · simp only [readBits, hposition, hloaded, hw]
          split <;> rfl
      simp only [reads, hbits, hrest]
    | seek position =>
      exact ih hword rfl (by simp only [seekRead, hword])

@[simp] theorem loaded_commit (t : Tape) : t.commit.loaded = t.loaded := by
  unfold commit
  split <;> rfl

/-- Storing the pending bits is not seen. -/
theorem looksLike_commit (t : Tape) : t.commit.LooksLike t where
  bit := bit_commit t
  writePosition := writePosition_commit t
  readPosition := readPosition_commit t
  capacity := congrArg (64 * ·) (size_commit t)
  reads := reads_congr (funext (word_commit t)) (readPosition_commit t) (loaded_commit t)

end Looks

section Failures

variable {t t' : Tape}

/-- Two steps fail exactly if the first one does, or the second one does from there. -/
theorem on_bind_eq_error {α β : Type} {u : Update α} {f : α → Update β} :
    (u >>= f).on t = (.error e, t') ↔
      u.on t = (.error e, t') ∨ ∃ a r, u.on t = (.ok a, r) ∧ (f a).on r = (.error e, t') := by
  unfold Update.on
  rw [Action.run_bind]
  rcases u.run.run t with ⟨_ | a, r⟩ <;> simp

theorem on_get_bind {α : Type} (f : Tape → Update α) : (get >>= f).on t = (f t).on t := rfl

theorem on_modify_bind {α : Type} (g : Tape → Tape) (f : PUnit → Update α) :
    (modify g >>= f).on t = (f ⟨⟩).on (g t) := rfl

theorem on_modify_ne_error {f : Tape → Tape} : (modify f : Update PUnit).on t ≠ (.error e, t') := by
  rintro ⟨⟩

theorem extend_eq_error {count : Nat} (h : (extend memory count).on t = (.error e, t')) :
    t' = t ∧ e = .allocation (8 * count) := by
  obtain h | ⟨_, _, _, h⟩ := on_bind_eq_error.mp h
  · obtain ⟨hrequest, rfl⟩ := Prod.mk.inj ((Action.run_lift _ t).symm.trans h)
    exact ⟨rfl, Memory.request_eq_error hrequest⟩
  · exact absurd h on_modify_ne_error

theorem reserve_eq_error {n : Nat} (h : (reserve memory n).on t = (.error e, t')) :
    t' = t ∧ ∃ bytes, e = .allocation bytes := by
  rw [reserve, on_get_bind] at h
  split at h
  next => exact (extend_eq_error h).imp_right fun he => ⟨_, he⟩
  next => cases h

theorem makeRoom_eq_error (h : (makeRoom memory).on t = (.error e, t')) :
    t' = t ∧ ∃ bytes, e = .allocation bytes := by
  rw [makeRoom, on_get_bind] at h
  split at h
  next => cases h
  next => exact (extend_eq_error h).imp_right fun he => ⟨_, he⟩

/-- Writing bits fails before any of them is written, or after all of them are. -/
theorem writeBits_eq_error {value : Word} {n : Nat}
    (h : (writeBits memory value n).on t = (.error e, t')) :
    (∃ bytes, e = .allocation bytes) ∧
      ((makeRoom memory).on t = (.error e, t) ∧ t' = t ∨
        (makeRoom memory).on t = (.ok (), t.withRoom) ∧ n ≠ 0 ∧
          t' = t.withRoom.pushBits value n) := by
  unfold writeBits at h
  split at h
  next => cases h
  next hn =>
    obtain hroom | ⟨_, _, hroom, h⟩ := on_bind_eq_error.mp h
    · obtain ⟨rfl, he⟩ := makeRoom_eq_error hroom
      exact ⟨he, .inl ⟨hroom, rfl⟩⟩
    · obtain rfl := makeRoom_eq_ok hroom
      rw [on_modify_bind, on_get_bind] at h
      split at h
      next => cases h
      next =>
        obtain ⟨rfl, he⟩ := makeRoom_eq_error h
        exact ⟨he, .inr ⟨hroom, hn, rfl⟩⟩

/-- Loading fails for want of bytes, and then at once, or for want of memory, and then without the
words that were there. -/
theorem load_eq_error {bytes : List UInt8} {n : Nat}
    (h : (load memory bytes n).on t = (.error e, t')) :
    bytes.length < bytesFor n ∧ t' = t ∧ e = .truncated (8 * bytes.length) n ∨
      bytesFor n ≤ bytes.length ∧ t' = { t with words := #[] } ∧
        e = .allocation (8 * wordsFor n) := by
  unfold load at h
  split at h
  next hshort =>
    cases h
    exact .inl ⟨hshort, rfl, rfl⟩
  next hfed =>
    dsimp only at h
    rw [on_get_bind, on_modify_bind] at h
    split at h
    next =>
      obtain h | ⟨_, _, _, h⟩ := on_bind_eq_error.mp h
      · obtain ⟨hrequest, rfl⟩ := Prod.mk.inj ((Action.run_lift _ _).symm.trans h)
        exact .inr ⟨Nat.not_lt.mp hfed, rfl, Memory.request_eq_error hrequest⟩
      · cases h
    next => cases h

/-- An operation that fails does so before it has changed anything one can see. Bits are written
before room is made for those to come, and the old words are given up before there is memory for
the loaded ones. -/
def Operation.FailsUnseen (memory : Memory) (t : Tape) : Operation → Prop
  | writeBits _ _ => ∃ e, (makeRoom memory).on t = (.error e, t)
  | load bytes n => bytes.length < bytesFor n ∨ t.capacity = 0
  | _ => True

theorem looksLike_drop_iff (t : Tape) :
    ({ t with words := #[] } : Tape).LooksLike t ↔ t.capacity = 0 := by
  constructor
  · intro h
    exact h.capacity.symm
  · intro h
    have hwords : t.words = #[] := Array.size_eq_zero_iff.mp (by unfold capacity at h; omega)
    rw [← hwords]
    exact .refl t

/-- A failed operation is for want of memory or of bytes. It leaves a tape that looks as it did and
is read as it was, unless it is a write of several bits that had room for the first, or a load that
had bytes enough. -/
theorem failure_unseen_iff {op : Operation} (h : (op.perform memory).on t = (.error e, t')) :
    ((∃ bytes, e = .allocation bytes) ∨ ∃ available required, e = .truncated available required) ∧
      (t'.LooksLike t ↔ op.FailsUnseen memory t) := by
  cases op with
  | writeBit b =>
    obtain h | ⟨_, _, _, h⟩ := on_bind_eq_error.mp h
    · obtain ⟨rfl, he⟩ := makeRoom_eq_error h
      exact ⟨.inl he, iff_of_true (.refl _) trivial⟩
    · exact absurd h on_modify_ne_error
  | writeBits value n =>
    obtain ⟨he, ⟨hroom, rfl⟩ | ⟨hroom, hn, rfl⟩⟩ := writeBits_eq_error h
    · exact ⟨.inl he, iff_of_true (.refl _) ⟨_, hroom⟩⟩
    · have hmoved : (t.withRoom.pushBits value n).writePosition = t.writePosition + n := by
        rw [writePosition_pushBits _ _ (by omega), writePosition_withRoom]
      refine ⟨.inl he, iff_of_false (fun hlike => ?_) ?_⟩
      · have hsame := hlike.writePosition
        omega
      · rintro ⟨e', he'⟩
        cases hroom.symm.trans he'
  | writeBitAt position b =>
    rw [Operation.perform, writeBitAt, on_modify_bind] at h
    obtain h | ⟨_, _, _, h⟩ := on_bind_eq_error.mp h
    · obtain ⟨rfl, he⟩ := reserve_eq_error h
      exact ⟨.inl he, iff_of_true (looksLike_commit t) trivial⟩
    · exact absurd h on_modify_ne_error
  | reserve n =>
    obtain ⟨rfl, he⟩ := reserve_eq_error h
    exact ⟨.inl he, iff_of_true (.refl _) trivial⟩
  | load bytes n =>
    obtain ⟨hshort, rfl, rfl⟩ | ⟨hfed, rfl, rfl⟩ := load_eq_error h
    · exact ⟨.inr ⟨_, _, rfl⟩, iff_of_true (.refl _) (.inl hshort)⟩
    · refine ⟨.inl ⟨_, rfl⟩, (looksLike_drop_iff t).trans ?_⟩
      exact ⟨.inr, fun hor => hor.resolve_left (Nat.not_lt.mpr hfed)⟩
  | _ => exact absurd h on_modify_ne_error

/-- There is memory for one word, and one bit is left in it. A second word is refused to a bit at a
position there, and that is not seen. It is refused to two bits at once as well, and those are
written. -/
theorem failure_unseen_pair :
    let memory : Memory := ⟨fun bytes => decide (bytes ≤ 8)⟩
    let t := (empty.widen 1).pushBits 5 63
    (performAll memory [.writeBits 5 63]).on empty = (.ok (), t) ∧
      ((Operation.writeBitAt 64 true).perform memory).on t = (.error (.allocation 16), t.commit) ∧
      t.commit.LooksLike t ∧
      ((Operation.writeBits 3 2).perform memory).on t =
        (.error (.allocation 16), t.pushBits 3 2) ∧
      ¬(t.pushBits 3 2).LooksLike t := by
  intro memory t
  have hat : ((Operation.writeBitAt 64 true).perform memory).on t =
      (.error (.allocation 16), t.commit) := by with_unfolding_all rfl
  have hbits : ((Operation.writeBits 3 2).perform memory).on t =
      (.error (.allocation 16), t.pushBits 3 2) := by with_unfolding_all rfl
  refine ⟨by with_unfolding_all rfl, hat, (failure_unseen_iff hat).2.mpr trivial, hbits, ?_⟩
  intro hlike
  obtain ⟨e, he⟩ := (failure_unseen_iff hbits).2.mp hlike
  have hroom : (makeRoom memory).on t = (.ok (), t) := by with_unfolding_all rfl
  cases hroom.symm.trans he

/-- Two failures for want of the same 16 bytes that are seen. The bits of the one are written and
counted, and the other leaves nothing of the bit that was there. -/
theorem failures_seen :
    let memory : Memory := ⟨fun bytes => decide (bytes ≤ 8)⟩
    ∃ t t₁ t₂, (performAll memory [.writeBits 1 63]).on empty = (.ok (), t) ∧
      ((Operation.writeBits 3 2).perform memory).on t = (.error (.allocation 16), t₁) ∧
      (t.writePosition = 63 ∧ t.bit 63 = false) ∧ (t₁.writePosition = 65 ∧ t₁.bit 63 = true) ∧
      ((Operation.load (List.replicate 16 0) 128).perform memory).on (t.rewind) =
        (.error (.allocation 16), t₂) ∧
      (t.rewind.capacity = 64 ∧ t.rewind.bit 0 = true) ∧ (t₂.capacity = 0 ∧ t₂.bit 0 = false) := by
  intro memory
  let t := (empty.widen 1).pushBits 1 63
  exact ⟨t, t.pushBits 3 2, { t.rewind with words := #[] }, by with_unfolding_all rfl,
    by with_unfolding_all rfl, by decide, by decide, by with_unfolding_all rfl, by decide,
    by decide⟩

end Failures

end Tape

end VolumeCodec
