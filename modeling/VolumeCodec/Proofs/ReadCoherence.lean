import VolumeCodec.Proofs.BitSequences
import VolumeCodec.Proofs.FailedOperations

namespace VolumeCodec

namespace Tape

/-- What an operation makes of a tape if there is memory enough. Too few bytes are not loaded, and
the tape stays as it is. -/
def Operation.onto (op : Operation) (t : Tape) : Tape :=
  ((op.perform .unbounded).on t).2

/-- Does an operation load the rest of the word in which reading goes on? It does so, too, if it puts
reading at the start of a word, of which nothing is loaded yet. -/
def Operation.loads (t : Tape) : Operation → Bool
  | seekRead _ | writeBitAt _ _ | rewind => true
  | load bytes n => decide (bytesFor n ≤ bytes.length)
  | readBit => decide (t.readPosition % 64 = 0)
  | readBits n => decide ((64 - t.readPosition % 64) % 64 < n)
  | _ => false

/-- Does an operation write at the write position? -/
def Operation.isSequential : Operation → Bool
  | writeBit _ | writeBits _ _ => true
  | _ => false

/-- A tape that is watched as operations are performed on it. -/
structure Watch where
  tape : Tape
  /-- The bits as they were when the word was loaded in which reading goes on. -/
  seen : Nat → Bool
  /-- Where writing at the write position has changed a bit since then. -/
  changed : Nat → Prop

namespace Watch

def start : Watch :=
  ⟨.empty, fun _ => false, fun _ => False⟩

def after (w : Watch) (op : Operation) : Watch :=
  let tape := op.onto w.tape
  if op.loads w.tape then ⟨tape, tape.bit, fun _ => False⟩
  else ⟨tape, w.seen, fun i => w.changed i ∨ op.isSequential ∧ tape.bit i ≠ w.tape.bit i⟩

def afterAll (w : Watch) (ops : List Operation) : Watch :=
  ops.foldl after w

/-- What a reader is to be shown at a position: in the word that is loaded the bit as it was then,
and beyond it the bit as it is. -/
def shown (w : Watch) (i : Nat) : Bool :=
  if i / 64 = w.tape.readPosition / 64 ∧ w.tape.readPosition % 64 ≠ 0 then w.seen i
  else w.tape.bit i

/-- The loaded bits are those that were seen, and a bit that was not changed since is as it was. -/
structure IsCoherent (w : Watch) : Prop where
  backed : w.tape.IsBacked
  loaded : ∀ j, w.tape.readPosition % 64 ≠ 0 → w.tape.readPosition % 64 + j < 64 →
    w.tape.loaded.bit j = w.seen (w.tape.readPosition + j)
  kept : ∀ i, ¬w.changed i → w.seen i = w.tape.bit i

end Watch

section Operations

variable {t : Tape}

theorem Operation.onto_of_fed {op : Operation} (h : op.IsFed) (t : Tape) :
    op.onto t = op.result t :=
  congrArg Prod.snd (perform_unbounded h t)

theorem Operation.onto_of_not_fed {op : Operation} (h : ¬op.IsFed) (t : Tape) : op.onto t = t := by
  cases op with
  | load bytes n =>
    have hshort : bytes.length < bytesFor n := Nat.not_le.mp h
    show ((Tape.load .unbounded bytes n).on t).2 = t
    unfold Tape.load
    rw [if_pos hshort]
    rfl
  | _ => exact absurd trivial h

theorem Operation.isBacked_onto (h : t.IsBacked) (op : Operation) : (op.onto t).IsBacked := by
  by_cases hfed : op.IsFed
  · rw [onto_of_fed hfed]
    exact isBacked_result h op
  · rw [onto_of_not_fed hfed]
    exact h

theorem isFresh_of_aligned (h : t.readPosition % 64 = 0) : t.IsFresh := fun hne => absurd h hne

theorem IsFresh.loaded_bit (h : t.IsFresh) (hposition : t.readPosition % 64 ≠ 0) {j : Nat}
    (hj : t.readPosition % 64 + j < 64) : t.loaded.bit j = t.bit (t.readPosition + j) := by
  have hq : (t.readPosition + j) / 64 = t.readPosition / 64 := by omega
  have hr : (t.readPosition + j) % 64 = t.readPosition % 64 + j := by omega
  rw [h hposition, Word.bit_shiftDown, bit, hq, hr]

/-- Bits that reach into another word leave the rest of that word loaded. -/
theorem isFresh_readBits {n : Nat} (hn : n ≤ 64) (h : (64 - t.readPosition % 64) % 64 < n) :
    (t.readBits n).2.IsFresh := by
  have hposition := (hasMoved_readBits t hn).readPosition
  intro hne
  rw [hposition] at hne ⊢
  rw [word_readBits, (readBits_of_beyond hn h).2]
  have hq : (t.readPosition + n) / 64 = (t.readPosition + 63) / 64 := by omega
  have hr : (t.readPosition + n) % 64 = n - (64 - t.readPosition % 64) % 64 := by omega
  rw [hq, hr]

theorem Operation.isFresh_result {op : Operation} (h : op.loads t = true) :
    (op.result t).IsFresh := by
  cases op with
  | seekRead position => exact isFresh_seekRead t position
  | writeBitAt position b => exact isFresh_seekRead _ _
  | rewind => exact isFresh_of_aligned rfl
  | load bytes n => exact isFresh_of_aligned rfl
  | readBit => exact isFresh_readBit (isFresh_of_aligned (of_decide_eq_true h))
  | readBits n => exact isFresh_readBits (Nat.le_of_lt_succ n.isLt) (of_decide_eq_true h)
  | _ => cases h

theorem Operation.isFed_of_loads {op : Operation} (h : op.loads t = true) : op.IsFed := by
  cases op with
  | load bytes n => exact of_decide_eq_true (p := bytesFor n ≤ bytes.length) h
  | _ => trivial

theorem reading_withBits (t : Tape) (value : Word) (n : Nat) :
    (t.withBits value n).readPosition = t.readPosition ∧
      (t.withBits value n).loaded = t.loaded := by
  unfold withBits
  split
  next => exact ⟨rfl, rfl⟩
  next => split <;> simp

/-- Without loading, an operation takes as many bits off the loaded ones as reading moves on. -/
theorem Operation.reading_result {op : Operation} (h : op.loads t = false) (hfed : op.IsFed) :
    ∃ n ≤ (64 - t.readPosition % 64) % 64, (op.result t).readPosition = t.readPosition + n ∧
      (op.result t).loaded = Word.shiftDown t.loaded n := by
  have hzero : t.loaded = Word.shiftDown t.loaded 0 := Word.ext_bit fun i _ => by simp
  cases op with
  | writeBit b =>
    refine ⟨0, Nat.zero_le _, ?_, ?_⟩
    · exact (readPosition_push _ b).trans (readPosition_withRoom t)
    · exact ((loaded_push _ b).trans (loaded_withRoom t)).trans hzero
  | writeBits value n =>
    obtain ⟨hposition, hloaded⟩ := reading_withBits t value n
    exact ⟨0, Nat.zero_le _, hposition, hloaded.trans hzero⟩
  | commit => exact ⟨0, Nat.zero_le _, readPosition_commit t, (loaded_commit t).trans hzero⟩
  | seekWrite position =>
    exact ⟨0, Nat.zero_le _, readPosition_commit t, (loaded_commit t).trans hzero⟩
  | reserve n => exact ⟨0, Nat.zero_le _, rfl, hzero⟩
  | readBit =>
    have hne : t.readPosition % 64 ≠ 0 := of_decide_eq_false h
    refine ⟨1, by omega, rfl, ?_⟩
    simp only [result, Tape.readBit, if_neg hne]
  | readBits n =>
    have hn : (n : Nat) ≤ 64 := Nat.le_of_lt_succ n.isLt
    have hle : (n : Nat) ≤ (64 - t.readPosition % 64) % 64 := Nat.not_lt.mp (of_decide_eq_false h)
    exact ⟨n, hle, (hasMoved_readBits t hn).readPosition, (readBits_of_held hle).2⟩
  | load bytes n => exact absurd hfed (of_decide_eq_false (p := bytesFor n ≤ bytes.length) h)
  | _ => cases h

/-- Only what writes or loads can change a bit. -/
theorem Operation.bit_result (hbacked : t.IsBacked) {op : Operation} (h : op.loads t = false)
    (hfed : op.IsFed) (hquiet : op.isSequential = false) (i : Nat) :
    (op.result t).bit i = t.bit i := by
  have heffect : (op.result t).bit i = (op.effect t.view).bit i :=
    congrFun (congrArg BitSequence.bit (view_result hbacked op)) i
  cases op with
  | writeBit b => cases hquiet
  | writeBits value n => cases hquiet
  | load bytes n => exact absurd hfed (of_decide_eq_false (p := bytesFor n ≤ bytes.length) h)
  | commit => exact heffect
  | seekWrite position => exact heffect
  | reserve n => exact heffect
  | readBit => exact heffect
  | readBits n => exact heffect
  | _ => cases h

end Operations

namespace Watch

variable {w : Watch}

theorem IsCoherent.start : Watch.start.IsCoherent :=
  ⟨fun _ => rfl, fun _ h => absurd rfl h, fun i _ =>
    (bit_of_capacity_le (fun _ => rfl) (Nat.zero_le i)).symm⟩

/-- One operation: what is loaded anew is as it was seen, and otherwise only writing at the write
position can make a bit differ from what was seen of it. -/
theorem IsCoherent.after (h : w.IsCoherent) (op : Operation) : (w.after op).IsCoherent := by
  have hbacked := Operation.isBacked_onto h.backed op
  unfold Watch.after
  cases hloads : op.loads w.tape with
  | true =>
    have hfresh : (op.onto w.tape).IsFresh := by
      rw [Operation.onto_of_fed (Operation.isFed_of_loads hloads)]
      exact Operation.isFresh_result hloads
    exact ⟨hbacked, fun j hne hj => hfresh.loaded_bit hne hj, fun _ _ => rfl⟩
  | false =>
    by_cases hfed : op.IsFed
    · rw [Operation.onto_of_fed hfed] at hbacked ⊢
      obtain ⟨n, hn, hposition, hloaded⟩ := Operation.reading_result hloads hfed
      refine ⟨hbacked, fun j hne hj => ?_, fun i hi => ?_⟩
      · have hseen := h.loaded (n + j)
        simp only [Bool.false_eq_true, if_false] at hne hj ⊢
        rw [hposition] at hne hj ⊢
        rw [hloaded, Word.bit_shiftDown, hseen (by omega) (by omega), Nat.add_assoc]
      · obtain ⟨hsame, hwrite⟩ := not_or.mp hi
        rw [if_neg Bool.false_ne_true]
        refine (h.kept i hsame).trans ?_
        cases hsequential : op.isSequential with
        | false => exact (Operation.bit_result h.backed hloads hfed hsequential i).symm
        | true =>
          by_contra hne
          exact hwrite ⟨hsequential, Ne.symm hne⟩
    · rw [Operation.onto_of_not_fed hfed] at hbacked ⊢
      exact ⟨h.backed, h.loaded, fun i hi => h.kept i (not_or.mp hi).1⟩

theorem IsCoherent.afterAll (h : w.IsCoherent) (ops : List Operation) :
    (w.afterAll ops).IsCoherent := by
  induction ops generalizing w with
  | nil => exact h
  | cons op rest ih => exact ih (h.after op)

/-- As many bits as are left of its word are shown as they were seen. -/
theorem IsCoherent.shown_held (h : w.IsCoherent) {j : Nat}
    (hj : j < (64 - w.tape.readPosition % 64) % 64) :
    w.shown (w.tape.readPosition + j) = w.tape.loaded.bit j := by
  have hword : (w.tape.readPosition + j) / 64 = w.tape.readPosition / 64 := by omega
  rw [h.loaded j (by omega) (by omega), shown, if_pos ⟨hword, by omega⟩]

/-- Behind them the bits of the next word are shown as they are. -/
theorem shown_beyond (w : Watch) {j : Nat} (hrest : (64 - w.tape.readPosition % 64) % 64 ≤ j)
    (hj : j < 64) :
    w.shown (w.tape.readPosition + j) = (w.tape.word ((w.tape.readPosition + 63) / 64)).bit
      (j - (64 - w.tape.readPosition % 64) % 64) := by
  have hbeyond : ¬((w.tape.readPosition + j) / 64 = w.tape.readPosition / 64 ∧
      w.tape.readPosition % 64 ≠ 0) := by omega
  have hq : (w.tape.readPosition + j) / 64 = (w.tape.readPosition + 63) / 64 := by omega
  have hr : (w.tape.readPosition + j) % 64 = j - (64 - w.tape.readPosition % 64) % 64 := by omega
  rw [shown, if_neg hbeyond, bit, hq, hr]

/-- The bits that are still loaded come first, and behind them those of the next word as it is. -/
theorem IsCoherent.bit_readBits (h : w.IsCoherent) {n : Nat} (hn : n ≤ 64) (j : Nat) :
    (w.tape.readBits n).1.bit j = (decide (j < n) && w.shown (w.tape.readPosition + j)) := by
  rw [Tape.bit_readBits _ hn]
  by_cases hj : j < n
  · split
    next hheld => rw [h.shown_held hheld]
    next hheld => rw [w.shown_beyond (Nat.not_lt.mp hheld) (by omega)]
  · simp [hj]

theorem IsCoherent.readBit_fst (h : w.IsCoherent) :
    w.tape.readBit.1 = w.shown w.tape.readPosition := by
  unfold Tape.readBit shown
  by_cases hz : w.tape.readPosition % 64 = 0
  · simp [hz, bit]
  · have hloaded := h.loaded 0 hz (Nat.mod_lt _ (by decide))
    rw [Nat.add_zero] at hloaded
    simp [hz, hloaded]

theorem IsCoherent.shown_eq (h : w.IsCoherent) {i : Nat} (hi : ¬w.changed i) :
    w.shown i = w.tape.bit i := by
  unfold shown
  split
  next => exact h.kept i hi
  next => rfl

/-- A bit that was not changed before, and that has the same value after each of some operations, has
not been changed by any of them. -/
theorem not_changed_of_stays {position : Nat} {b : Bool} {later : List Operation}
    (h : ¬w.changed position) (hstays : ∀ k, (w.afterAll (later.take k)).tape.bit position = b) :
    ¬(w.afterAll later).changed position := by
  induction later generalizing w with
  | nil => exact h
  | cons op rest ih =>
    have hbefore : w.tape.bit position = b := hstays 0
    have hafter : (w.after op).tape.bit position = b := hstays 1
    refine ih ?_ fun k => hstays (k + 1)
    unfold after at hafter ⊢
    cases hloads : op.loads w.tape with
    | true => exact id
    | false =>
      rw [hloads, if_neg Bool.false_ne_true] at hafter
      rintro (hchanged | ⟨-, hne⟩)
      · exact h hchanged
      · exact hne (hafter.trans hbefore.symm)

/-- What reading is to give on a tape that is watched: at every position what is shown there, which
is the bit as it is unless it was changed since its word was loaded. Nothing but the read position
moves. -/
structure ReadsShown (w : Watch) : Prop where
  readBits : ∀ n ≤ 64, ∀ j, (w.tape.readBits n).1.bit j =
    (decide (j < n) && w.shown (w.tape.readPosition + j))
  readBit : w.tape.readBit.1 = w.shown w.tape.readPosition
  shown_eq : ∀ i, ¬w.changed i → w.shown i = w.tape.bit i
  view_readBits : ∀ n ≤ 64, (w.tape.readBits n).2.view =
    { w.tape.view with readPosition := w.tape.readPosition + n }
  view_readBit : w.tape.readBit.2.view =
    { w.tape.view with readPosition := w.tape.readPosition + 1 }

theorem IsCoherent.readsShown (h : w.IsCoherent) : w.ReadsShown where
  readBits _ hn j := h.bit_readBits hn j
  readBit := h.readBit_fst
  shown_eq _ hi := h.shown_eq hi
  view_readBits _ hn := view_readBits w.tape hn
  view_readBit := rfl

/-- Whatever was done to a tape, what is read from it is what is shown. After a seek that is the
content from the new position on. A bit that was put somewhere by itself is shown to all who come to
it later, wherever reading and writing stood, as long as nothing else is put in its place. -/
theorem reads_coherent (ops : List Operation) :
    let w := Watch.start.afterAll ops
    w.ReadsShown ∧
      (∀ position, ∀ n ≤ 64, ∀ j, ((w.tape.seekRead position).readBits n).1.bit j =
        (decide (j < n) && w.tape.bit (position + j))) ∧
      ∀ position b, let put := w.after (.writeBitAt position b)
        put.tape.bit position = b ∧ ∀ later : List Operation,
          (∀ k, (put.afterAll (later.take k)).tape.bit position = b) →
          (put.afterAll later).shown position = b := by
  intro w
  have hw : w.IsCoherent := IsCoherent.start.afterAll ops
  refine ⟨hw.readsShown, fun position n hn j => ?_, fun position b => ?_⟩
  · have hseek := hw.after (.seekRead position)
    exact (hseek.bit_readBits hn j).trans (congrArg _ (hseek.shown_eq id))
  · intro put
    have hput : put.IsCoherent := hw.after _
    have hfed : (Operation.writeBitAt position b).IsFed := trivial
    have hbit : put.tape.bit position = b := by
      show ((Operation.writeBitAt position b).onto w.tape).bit position = b
      rw [Operation.onto_of_fed hfed]
      have hview := congrArg BitSequence.bit (view_writeBitAt hw.backed position b)
      exact (congrFun hview position).trans (if_pos rfl)
    refine ⟨hbit, fun later hstays => ?_⟩
    have hunchanged : ¬(put.afterAll later).changed position :=
      not_changed_of_stays id hstays
    have hlast := hstays later.length
    rw [List.take_length] at hlast
    exact ((hput.afterAll later).shown_eq hunchanged).trans hlast

/-- Reading has begun in a word of zeros when bit 5 of it is set at the write position, and whoever
reads on is not shown that. Once bit 7 is put by itself, both are shown. -/
theorem reads_coherent_behind :
    let w := Watch.start.afterAll
      [.writeBits 0 64, .seekRead 0, .readBit, .seekWrite 5, .writeBit true]
    let put := w.after (.writeBitAt 7 true)
    w.changed 5 ∧ w.tape.bit 5 = true ∧ (w.tape.readBits 8).1 = 0 ∧
      (∀ k, (put.afterAll ([].take k)).tape.bit 7 = true) ∧ put.shown 7 = true ∧
      (put.tape.readBits 8).1 = 0x50 := by
  intro w put
  obtain ⟨-, -, hput⟩ := reads_coherent
    [.writeBits 0 64, .seekRead 0, .readBit, .seekWrite 5, .writeBit true]
  obtain ⟨hbit, hlater⟩ := hput 7 true
  have hstays : ∀ k, (put.afterAll ([].take k)).tape.bit 7 = true := fun k => by
    rw [List.take_nil]
    exact hbit
  have hseen : w.seen 5 = false := by decide +kernel
  have hset : w.tape.bit 5 = true := by decide +kernel
  refine ⟨?_, hset, by decide +kernel, hstays, hlater [] hstays, by decide +kernel⟩
  by_contra hunchanged
  have hkept := (IsCoherent.start.afterAll _).kept 5 hunchanged
  exact Bool.false_ne_true (hseen.symm.trans (hkept.trans hset))

end Watch

end Tape

end VolumeCodec
