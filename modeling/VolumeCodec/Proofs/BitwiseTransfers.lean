import Mathlib.Logic.Function.Iterate
import VolumeCodec.Proofs.TapeOperations

namespace VolumeCodec

theorem Memory.request_eq_ok_iff {memory : Memory} {bytes : Nat} :
    memory.request bytes = .ok () ↔ memory.grants bytes = true := by
  unfold Memory.request
  split
  next h => exact iff_of_true rfl h
  next h => exact iff_of_false nofun h

namespace Tape

/-- A tape from which so many bits have been read one by one. -/
def afterReads (t : Tape) (n : Nat) : Tape :=
  (fun t => t.readBit.2)^[n] t

/-- There is room for the word at the write position, or memory for it is granted. -/
def CanGrow (memory : Memory) (t : Tape) : Prop :=
  t.words.size ≤ t.writePosition / 64 →
    memory.grants (8 * doubledPast (t.writePosition / 64) (max t.words.size 1)) = true

/-- Memory is granted for all the words that so many bits take. -/
def Fits (memory : Memory) (t : Tape) (value : Word) (n : Nat) : Prop :=
  n = 0 ∨ t.CanGrow memory ∧ ((t.withRoom.pushBits value n).writePosition % 64 ≠ 0 →
    (t.withRoom.pushBits value n).CanGrow memory)

theorem ext_fields {t t' : Tape} (hwords : t'.words = t.words)
    (hwrite : t'.writePosition = t.writePosition) (hpending : t'.pending = t.pending)
    (hread : t'.readPosition = t.readPosition) (hloaded : t'.loaded = t.loaded) : t' = t := by
  cases t
  cases t'
  simp_all

section Reading

variable {t : Tape} {n : Nat}

/-- The word whose lowest bit is read next. -/
def source (t : Tape) : Word :=
  if t.readPosition % 64 = 0 then t.word (t.readPosition / 64) else t.loaded

theorem source_readBits (t : Tape) (hn : n < 64) : (t.readBits n).2.source =
    if n < (64 - t.readPosition % 64) % 64 then Word.shiftDown t.loaded n
    else Word.shiftDown (t.word ((t.readPosition + 63) / 64))
      (n - (64 - t.readPosition % 64) % 64) := by
  have hposition := (hasMoved_readBits t (Nat.le_of_lt hn)).readPosition
  unfold source
  rw [hposition, word_readBits]
  rcases Nat.lt_trichotomy n ((64 - t.readPosition % 64) % 64) with hlt | heq | hgt
  · rw [(readBits_of_held (Nat.le_of_lt hlt)).2, if_neg (by omega), if_pos hlt]
  · have hword : (t.readPosition + n) / 64 = (t.readPosition + 63) / 64 := by omega
    have hnone : n - (64 - t.readPosition % 64) % 64 = 0 := by omega
    rw [if_pos (by omega), if_neg (by omega), hword, hnone]
    exact Word.ext_bit fun i _ => by rw [Word.bit_shiftDown, Nat.zero_add]
  · rw [(readBits_of_beyond (Nat.le_of_lt hn) hgt).2, if_neg (by omega), if_neg (by omega)]

theorem shiftDown_one (w : Word) (n : Nat) :
    Word.shiftDown (Word.shiftDown w n) 1 = Word.shiftDown w (n + 1) :=
  Word.ext_bit fun i _ => by simp [Nat.add_assoc]

theorem readBits_zero (t : Tape) : (t.readBits 0).2 = t := by
  obtain ⟨hwords, hwrite, hpending, hread⟩ := hasMoved_readBits t (Nat.zero_le 64)
  refine ext_fields hwords hwrite hpending hread ?_
  rw [(readBits_of_held (Nat.zero_le _)).2]
  exact Word.ext_bit fun i _ => by rw [Word.bit_shiftDown, Nat.zero_add]

/-- One more bit is as good as another call for it. -/
theorem readBits_succ (t : Tape) (hn : n < 64) :
    (t.readBits (n + 1)).2 = (t.readBits n).2.readBit.2 := by
  obtain ⟨hwords, hwrite, hpending, hread⟩ := hasMoved_readBits t hn
  obtain ⟨hwords', hwrite', hpending', hread'⟩ := hasMoved_readBits t (Nat.le_of_lt hn)
  refine ext_fields (hwords.trans hwords'.symm) (hwrite.trans hwrite'.symm)
    (hpending.trans hpending'.symm) ?_ ?_
  · rw [hread, readPosition_readBit, hread', Nat.add_assoc]
  · show _ = Word.shiftDown (t.readBits n).2.source 1
    rw [source_readBits t hn]
    split
    next hheld => rw [(readBits_of_held hheld).2, shiftDown_one]
    next hheld =>
      have hrest : n - (64 - t.readPosition % 64) % 64 + 1 =
          n + 1 - (64 - t.readPosition % 64) % 64 := by omega
      rw [(readBits_of_beyond hn (by omega)).2, shiftDown_one, hrest]

theorem readBits_eq_afterReads (t : Tape) (hn : n ≤ 64) : (t.readBits n).2 = t.afterReads n := by
  induction n with
  | zero => exact readBits_zero t
  | succ n ih =>
    rw [readBits_succ t hn, ih (Nat.le_of_lt hn), afterReads, afterReads,
      Function.iterate_succ_apply']

/-- The bits of a transfer are those that single calls give. -/
theorem bit_readBits_eq (t : Tape) (hn : n ≤ 64) (i : Nat) :
    (t.readBits n).1.bit i = (decide (i < n) && (t.afterReads i).readBit.1) := by
  rw [bit_readBits t hn]
  by_cases hi : i < n
  · have hsource : (t.afterReads i).readBit.1 = (t.readBits i).2.source.bit 0 := by
      rw [readBits_eq_afterReads t (by omega)]
      rfl
    rw [hsource, source_readBits t (by omega)]
    split <;> simp
  · simp [hi]

end Reading

section Writing

variable {memory : Memory} {t t' : Tape} {value w : Word} {n place : Nat}

theorem or_shiftUp_succ (hw : w.low place = w) (value : Word) (n : Nat) :
    w ||| Word.shiftUp (value.low (n + 1)) place =
      (w ||| Word.shiftUp (value.low n) place).setBit (place + n) (value.bit n) := by
  refine Word.ext_bit fun i hi => ?_
  rw [Word.bit_setBit, Word.bit_or_shiftUp hw _ _ hi, Word.bit_or_shiftUp hw _ _ hi]
  by_cases heq : i = place + n
  · have hbit : i - place = n := by omega
    rw [if_neg (by omega), if_pos ⟨heq, hi⟩, hbit]
    simp [heq]
  · have hlt : i < place + (n + 1) ↔ i < place + n := by omega
    have hother : ¬(i = place + n ∧ i < 64) := fun hboth => heq hboth.1
    rw [if_neg hother]
    simp only [hlt]

theorem setBit_of_le (w : Word) {i : Nat} (h : 64 ≤ i) (b : Bool) : w.setBit i b = w := by
  refine Word.ext_bit fun j hj => ?_
  rw [Word.bit_setBit, if_neg (by omega)]

theorem shiftDown_low_of_le (value : Word) {m : Nat} (h : n ≤ m) :
    Word.shiftDown (value.low n) m = 0 := by
  refine Word.ext_bit fun i _ => ?_
  have hlow : ¬m + i < n := by omega
  simp [hlow]

theorem shiftDown_low_succ (value : Word) {m : Nat} (h : m ≤ n) (hn : n < m + 64) :
    Word.shiftDown (value.low (n + 1)) m =
      (Word.shiftDown (value.low n) m).setBit (n - m) (value.bit n) := by
  refine Word.ext_bit fun i hi => ?_
  rw [Word.bit_setBit, Word.bit_shiftDown, Word.bit_shiftDown, Word.bit_low, Word.bit_low]
  by_cases heq : i = n - m
  · have hbit : m + i = n := by omega
    rw [if_pos ⟨heq, hi⟩, hbit]
    simp
  · have hlt : m + i < n + 1 ↔ m + i < n := by omega
    rw [if_neg fun hboth => heq hboth.1]
    simp only [hlt]

theorem withRoom_of_lt (h : t.writePosition / 64 < t.words.size) : t.withRoom = t :=
  if_pos h

theorem withRoom_withRoom (t : Tape) : t.withRoom.withRoom = t.withRoom := by
  refine withRoom_of_lt ?_
  rw [writePosition_withRoom]
  exact lt_size_withRoom t

theorem pushBits_of_fits (value : Word) (h : t.writePosition % 64 + n < 64) :
    (t.pushBits value n).words = t.words ∧ (t.pushBits value n).pending =
      t.pending ||| Word.shiftUp (value.low n) (t.writePosition % 64) := by
  have hmin : min n 64 = n := by omega
  simp only [pushBits, hmin, dif_pos h, and_self]

theorem pushBits_of_over (value : Word) (hn : n ≤ 64) (h : 64 ≤ t.writePosition % 64 + n) :
    (t.pushBits value n).words = t.words.setIfInBounds (t.writePosition / 64)
        (t.pending ||| Word.shiftUp (value.low n) (t.writePosition % 64)) ∧
      (t.pushBits value n).pending =
        Word.shiftDown (value.low n) (64 - t.writePosition % 64) := by
  simp only [pushBits, Nat.min_eq_left hn, dif_neg (Nat.not_lt.mpr h), store, and_self]

theorem pushBits_zero (t : Tape) (value : Word) : t.pushBits value 0 = t := by
  obtain ⟨hwords, hpending⟩ := pushBits_of_fits (t := t) (n := 0) value (by omega)
  refine ext_fields hwords (writePosition_pushBits t value (Nat.zero_le 64)) ?_
    (readPosition_pushBits t value 0) (loaded_pushBits t value 0)
  rw [hpending]
  exact Word.ext_bit fun i _ => by simp

theorem push_of_fits (b : Bool) (h : t.writePosition % 64 < 63) :
    (t.push b).words = t.words ∧
      (t.push b).pending = t.pending.setBit (t.writePosition % 64) b := by
  have hne : ¬t.writePosition % 64 = 63 := by omega
  simp only [push, dif_neg hne, and_self]

theorem push_of_full (b : Bool) (h : t.writePosition % 64 = 63) :
    (t.push b).words = t.words.setIfInBounds (t.writePosition / 64) (t.pending.setBit 63 b) ∧
      (t.push b).pending = 0 := by
  simp only [push, dif_pos h, store, and_self]

/-- One more bit that fits into the word at the write position. -/
theorem pushBits_succ_of_fits (t : Tape) (value : Word) (h : t.writePosition % 64 + n < 64) :
    t.pushBits value (n + 1) = (t.pushBits value n).push (value.bit n) := by
  have hword := or_shiftUp_succ t.pending_low value n
  have hposition := writePosition_pushBits t value (n := n) (by omega)
  have hposition' := writePosition_pushBits t value (n := n + 1) (by omega)
  have hplace : (t.writePosition + n) % 64 = t.writePosition % 64 + n := by omega
  have hindex : (t.writePosition + n) / 64 = t.writePosition / 64 := by omega
  obtain ⟨hwords, hpending⟩ := pushBits_of_fits value h
  have hfields : (t.pushBits value (n + 1)).words =
        ((t.pushBits value n).push (value.bit n)).words ∧
      (t.pushBits value (n + 1)).pending =
        ((t.pushBits value n).push (value.bit n)).pending := by
    by_cases hfits : t.writePosition % 64 + (n + 1) < 64
    · obtain ⟨hwords', hpending'⟩ := push_of_fits (t := t.pushBits value n) (value.bit n)
        (by rw [hposition]; omega)
      rw [hwords', hpending', hwords, hpending, hposition, hplace, ← hword]
      exact pushBits_of_fits value hfits
    · obtain ⟨hwords', hpending'⟩ := push_of_full (t := t.pushBits value n) (value.bit n)
        (by rw [hposition]; omega)
      obtain ⟨hwords'', hpending''⟩ := pushBits_of_over (n := n + 1) value (by omega)
        (Nat.not_lt.mp hfits)
      have hlast : t.writePosition % 64 + n = 63 := by omega
      rw [hwords', hpending', hwords'', hpending'', hwords, hpending, hposition, hindex, hword,
        hlast, shiftDown_low_of_le value (by omega)]
      exact ⟨rfl, rfl⟩
  refine ext_fields hfields.1 ?_ hfields.2 (by simp) (by simp)
  rw [hposition', writePosition_push, hposition, Nat.add_assoc]

@[simp] theorem pending_withRoom (t : Tape) : t.withRoom.pending = t.pending := by
  unfold withRoom
  split <;> rfl

theorem words_withRoom_congr (hwords : t'.words = t.words)
    (hindex : t'.writePosition / 64 = t.writePosition / 64) :
    t'.withRoom.words = t.withRoom.words := by
  unfold withRoom widen
  simp only [hwords, hindex]
  split
  next => exact hwords
  next => rfl

/-- One more bit that goes on in the next word, for which room is made first. -/
theorem pushBits_succ_of_over (t : Tape) (value : Word) (hn : n < 64)
    (h : 64 ≤ t.writePosition % 64 + n) :
    (t.pushBits value (n + 1)).words = (t.pushBits value n).words ∧
      (t.pushBits value (n + 1)).withRoom =
        (t.pushBits value n).withRoom.push (value.bit n) := by
  have hword := or_shiftUp_succ t.pending_low value n
  rw [setBit_of_le _ h] at hword
  have hposition := writePosition_pushBits t value (n := n) (by omega)
  have hposition' := writePosition_pushBits t value (n := n + 1) (by omega)
  obtain ⟨hwords, hpending⟩ := pushBits_of_over value (Nat.le_of_lt hn) h
  obtain ⟨hwords', hpending'⟩ := pushBits_of_over (t := t) (n := n + 1) value hn (by omega)
  rw [hword, ← hwords] at hwords'
  rw [shiftDown_low_succ value (by omega) (by omega), ← hpending] at hpending'
  obtain ⟨hwords'', hpending''⟩ := push_of_fits (t := (t.pushBits value n).withRoom) (value.bit n)
    (by rw [writePosition_withRoom, hposition]; omega)
  have hplace : (t.writePosition + n) % 64 = n - (64 - t.writePosition % 64) := by omega
  refine ⟨hwords', ext_fields ?_ ?_ ?_ (by simp) (by simp)⟩
  · rw [hwords'']
    refine words_withRoom_congr hwords' ?_
    rw [hposition, hposition']
    omega
  · rw [writePosition_withRoom, writePosition_push, writePosition_withRoom, hposition, hposition',
      Nat.add_assoc]
  · rw [hpending'', pending_withRoom, pending_withRoom, writePosition_withRoom, hpending',
      hposition, hplace]

end Writing

section Growing

variable {memory : Memory} {t t' : Tape} {value : Word} {n : Nat}

theorem canGrow_of_lt (h : t.writePosition / 64 < t.words.size) : t.CanGrow memory :=
  fun hle => absurd h (Nat.not_lt.mpr hle)

theorem canGrow_congr (memory : Memory) (hwords : t'.words = t.words)
    (hindex : t'.writePosition / 64 = t.writePosition / 64) :
    t'.CanGrow memory ↔ t.CanGrow memory := by
  unfold CanGrow
  rw [hwords, hindex]

theorem pure_iff : (pure () : Update Unit).on t = (.ok (), t') ↔ t' = t := by
  constructor
  · intro h
    cases h
    rfl
  · rintro rfl
    rfl

theorem extend_iff {count : Nat} : (extend memory count).on t = (.ok (), t') ↔
    memory.grants (8 * count) = true ∧ t' = t.widen count := by
  rw [← Memory.request_eq_ok_iff]
  constructor
  · intro h
    obtain ⟨_, _, hrequest, -⟩ := on_bind_eq_ok.mp h
    exact ⟨(Prod.mk.inj ((Action.run_lift _ t).symm.trans hrequest)).1, extend_eq_ok h⟩
  · rintro ⟨hrequest, rfl⟩
    refine on_bind_eq_ok.mpr ⟨(), t, ?_, rfl⟩
    exact (Action.run_lift _ t).trans (congrArg (·, t) hrequest)

theorem makeRoom_iff :
    (makeRoom memory).on t = (.ok (), t') ↔ t.CanGrow memory ∧ t' = t.withRoom := by
  have hstep : (makeRoom memory).on t = (if t.writePosition / 64 < t.words.size then pure ()
      else extend memory (doubledPast (t.writePosition / 64) (max t.words.size 1))).on t := rfl
  rw [hstep]
  unfold withRoom
  split
  next h =>
    rw [pure_iff]
    exact (and_iff_right (canGrow_of_lt h)).symm
  next h =>
    rw [extend_iff]
    refine and_congr_left fun _ => ?_
    exact ⟨fun hgranted _ => hgranted, fun hgrow => hgrow (Nat.not_lt.mp h)⟩

theorem writeBit_iff {b : Bool} :
    (writeBit memory b).on t = (.ok (), t') ↔ t.CanGrow memory ∧ t' = t.withRoom.push b := by
  unfold writeBit
  rw [on_bind_eq_ok]
  constructor
  · rintro ⟨_, r, hroom, hpush⟩
    obtain ⟨hgrow, rfl⟩ := makeRoom_iff.mp hroom
    exact ⟨hgrow, on_modify_eq_ok.mp hpush⟩
  · rintro ⟨hgrow, rfl⟩
    exact ⟨(), _, makeRoom_iff.mpr ⟨hgrow, rfl⟩, rfl⟩

theorem writeBits_iff : (writeBits memory value n).on t = (.ok (), t') ↔
    t.Fits memory value n ∧ t' = t.withBits value n := by
  by_cases hn : n = 0
  · subst hn
    exact pure_iff.trans (and_iff_right (.inl rfl)).symm
  · constructor
    · intro h
      refine ⟨.inr ?_, writeBits_eq_ok h⟩
      rw [writeBits, if_neg hn] at h
      obtain ⟨_, _, hroom, h⟩ := on_bind_eq_ok.mp h
      obtain ⟨hgrow, rfl⟩ := makeRoom_iff.mp hroom
      obtain ⟨_, _, hpush, h⟩ := on_bind_eq_ok.mp h
      obtain rfl := on_modify_eq_ok.mp hpush
      obtain ⟨_, _, hget, h⟩ := on_bind_eq_ok.mp h
      cases hget
      refine ⟨hgrow, fun hz => ?_⟩
      rw [if_neg hz] at h
      exact (makeRoom_iff.mp h).1
    · rintro ⟨hfits, rfl⟩
      obtain ⟨hgrow, hnext⟩ := hfits.resolve_left hn
      rw [writeBits, withBits, if_neg hn, if_neg hn]
      refine on_bind_eq_ok.mpr ⟨(), _, makeRoom_iff.mpr ⟨hgrow, rfl⟩,
        on_bind_eq_ok.mpr ⟨_, _, rfl, on_bind_eq_ok.mpr ⟨_, _, rfl, ?_⟩⟩⟩
      split
      next => rfl
      next hz => exact makeRoom_iff.mpr ⟨hnext hz, rfl⟩

/-- Bits and one more bit after them take the same memory as two steps. -/
theorem fits_then_canGrow (memory : Memory) (t : Tape) (value : Word) (n : Nat) :
    (t.Fits memory value n ∧ (t.withBits value n).CanGrow memory ↔
      t.CanGrow memory ∧ (t.withRoom.pushBits value n).CanGrow memory) ∧
    (t.withBits value n).withRoom = (t.withRoom.pushBits value n).withRoom := by
  unfold Fits withBits
  by_cases hn : n = 0
  · subst hn
    have hroom : t.withRoom.CanGrow memory :=
      canGrow_of_lt (by rw [writePosition_withRoom]; exact lt_size_withRoom t)
    rw [if_pos rfl, pushBits_zero, withRoom_withRoom]
    exact ⟨⟨fun h => ⟨h.2, hroom⟩, fun h => ⟨.inl rfl, h.1⟩⟩, rfl⟩
  · rw [if_neg hn]
    split
    next hz => exact ⟨by simp [hn, hz], rfl⟩
    next hz =>
      have hroom : (t.withRoom.pushBits value n).withRoom.CanGrow memory :=
        canGrow_of_lt (by rw [writePosition_withRoom]; exact lt_size_withRoom _)
      rw [withRoom_withRoom]
      exact ⟨by simp [hn, hz, hroom], rfl⟩

/-- So do bits of which the last one is counted with them. -/
theorem fits_succ (memory : Memory) (t : Tape) (value : Word) (hn : n < 64) :
    (t.Fits memory value (n + 1) ↔
      t.CanGrow memory ∧ (t.withRoom.pushBits value n).CanGrow memory) ∧
    t.withBits value (n + 1) = (t.withRoom.pushBits value n).withRoom.push (value.bit n) := by
  have hroom := lt_size_withRoom t
  rw [← writePosition_withRoom] at hroom
  have hposition := writePosition_pushBits t.withRoom value (Nat.le_of_lt hn)
  have hposition' := writePosition_pushBits t.withRoom value (Nat.succ_le_of_lt hn)
  unfold Fits withBits
  rw [if_neg (Nat.succ_ne_zero n)]
  simp only [Nat.succ_ne_zero, false_or]
  by_cases hfits : t.withRoom.writePosition % 64 + n < 64
  · have hroom' : (t.withRoom.pushBits value n).writePosition / 64 <
        (t.withRoom.pushBits value n).words.size := by
      rw [hposition, size_pushBits]
      omega
    have hroom'' : (t.withRoom.pushBits value (n + 1)).writePosition % 64 ≠ 0 →
        (t.withRoom.pushBits value (n + 1)).writePosition / 64 <
          (t.withRoom.pushBits value (n + 1)).words.size := fun hz => by
      rw [hposition'] at hz ⊢
      rw [size_pushBits]
      omega
    refine ⟨⟨fun h => ⟨h.1, canGrow_of_lt hroom'⟩, fun h => ⟨h.1, fun hz =>
      canGrow_of_lt (hroom'' hz)⟩⟩, ?_⟩
    rw [withRoom_of_lt hroom', ← pushBits_succ_of_fits _ _ hfits]
    split
    next => rfl
    next hz => exact withRoom_of_lt (hroom'' hz)
  · obtain ⟨hwords, hpush⟩ := pushBits_succ_of_over t.withRoom value hn (Nat.not_lt.mp hfits)
    have hz : (t.withRoom.pushBits value (n + 1)).writePosition % 64 ≠ 0 := by
      rw [hposition']
      omega
    have hgrow := canGrow_congr memory hwords (by rw [hposition, hposition']; omega)
    rw [if_neg hz, hpush, hgrow]
    exact ⟨and_congr_right fun _ => ⟨fun h => h hz, fun h _ => h⟩, rfl⟩

theorem writeAll_append (memory : Memory) (bits more : List Bool) :
    writeAll memory (bits ++ more) = (do
      writeAll memory bits
      writeAll memory more) := by
  induction bits with
  | nil => exact (pure_bind _ _).symm
  | cons b rest ih => rw [List.cons_append, writeAll, ih, writeAll, bind_assoc]

/-- Bits of a word are written just as they are one by one, and if the one succeeds, so does the
other. -/
theorem writeBits_iff_writeAll (hn : n ≤ 64) : (writeBits memory value n).on t = (.ok (), t') ↔
    (writeAll memory ((List.range n).map value.bit)).on t = (.ok (), t') := by
  induction n generalizing t' with
  | zero => exact Iff.rfl
  | succ n ih =>
    have hsingle : writeAll memory [value.bit n] = writeBit memory (value.bit n) :=
      bind_pure_unit
    obtain ⟨hfirst, hroom⟩ := fits_then_canGrow memory t value n
    obtain ⟨hfits, hbits⟩ := fits_succ memory t value hn
    rw [List.range_succ, List.map_append, List.map_singleton, writeAll_append, hsingle,
      on_bind_eq_ok, writeBits_iff, hfits, hbits]
    constructor
    · rintro ⟨hgrow, rfl⟩
      obtain ⟨hfirst', hgrow'⟩ := hfirst.mpr hgrow
      refine ⟨(), _, (ih (Nat.le_of_lt hn)).mp (writeBits_iff.mpr ⟨hfirst', rfl⟩), ?_⟩
      exact writeBit_iff.mpr ⟨hgrow', by rw [hroom]⟩
    · rintro ⟨_, r, hrun, hlast⟩
      obtain ⟨hfirst', rfl⟩ := writeBits_iff.mp ((ih (Nat.le_of_lt hn)).mpr hrun)
      obtain ⟨hgrow', rfl⟩ := writeBit_iff.mp hlast
      exact ⟨hfirst.mp ⟨hfirst', hgrow'⟩, by rw [hroom]⟩

theorem writeBits_low (memory : Memory) (value : Word) (hn : n ≤ 64) :
    writeBits memory (value.low n) n = writeBits memory value n := by
  have hpush : ∀ t : Tape, t.pushBits (value.low n) n = t.pushBits value n := fun t => by
    unfold pushBits
    simp only [Nat.min_eq_left hn, Word.low_low, Nat.min_self]
  unfold writeBits
  simp only [hpush]

end Growing

/-- To write some bits of a word at once leaves every part of a tape as it is left when they are
written one by one, from the lowest on, and the other bits of the word do not matter. It is the same
with reading, which moreover gives the same bits. -/
theorem transfers_bitwise (memory : Memory) (t : Tape) (value : Word) {n : Nat} (hn : n ≤ 64) :
    (∀ t', (writeBits memory value n).on t = (.ok (), t') ↔
      (writeAll memory ((List.range n).map value.bit)).on t = (.ok (), t')) ∧
    (∃ t', (writeBits .unbounded value n).on t = (.ok (), t')) ∧
    writeBits memory (value.low n) n = writeBits memory value n ∧
    (t.readBits n).2 = t.afterReads n ∧
    ∀ i, (t.readBits n).1.bit i = (decide (i < n) && (t.afterReads i).readBit.1) :=
  ⟨fun _ => writeBits_iff_writeAll hn, ⟨_, writeBits_on t value n⟩, writeBits_low memory value hn,
    readBits_eq_afterReads t hn, bit_readBits_eq t hn⟩

/-- A whole word that goes into the last bit of one and into 63 of the next, and is read from
there. -/
theorem transfers_bitwise_across_words :
    let t := (empty.widen 1).pushBits 5 63
    let value : Word := 0xFEDCBA9876543211
    64 ≤ 64 ∧ ∃ t', (writeBits .unbounded value 64).on t = (.ok (), t') ∧
      (writeAll .unbounded ((List.range 64).map value.bit)).on t = (.ok (), t') ∧
      t'.words = #[0x8000000000000005, 0] ∧ t'.pending = 0x7F6E5D4C3B2A1908 ∧
      ((t'.seekRead 63).readBits 64).1 = value ∧
      ((t'.seekRead 63).readBits 64).2 = (t'.seekRead 63).afterReads 64 := by
  intro t value
  obtain ⟨hwrite, -⟩ := transfers_bitwise .unbounded t value (Nat.le_refl 64)
  have hrun := writeBits_on t value 64
  obtain ⟨-, -, -, hread, -⟩ := transfers_bitwise .unbounded ((t.withBits value 64).seekRead 63)
    value (Nat.le_refl 64)
  exact ⟨Nat.le_refl 64, _, hrun, (hwrite _).mp hrun, by decide +kernel, by decide +kernel,
    by decide +kernel, hread⟩

end Tape

end VolumeCodec
