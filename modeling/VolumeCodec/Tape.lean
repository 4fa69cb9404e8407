import VolumeCodec.Memory
import VolumeCodec.Word

namespace VolumeCodec

/-- A growing sequence of bits with one place for writing and one for reading. Written bits collect
in a pending word, which is stored when it is full and before any seek; reading loads a word at a
time. A bit that was never written reads as zero. -/
structure Tape where
  words : Array Word := #[]
  writePosition : Nat := 0
  /-- The bits of the word at the write position that lie before it. -/
  pending : Word := 0
  readPosition : Nat := 0
  /-- The bits from the read position to the end of its word, as they were when that word was
  loaded. Nothing is loaded when reading stands at the start of a word. -/
  loaded : Word := 0
  pending_low : pending.low (writePosition % 64) = pending := by decide
  loaded_low : loaded.low ((64 - readPosition % 64) % 64) = loaded := by decide

namespace Tape

def empty : Tape := {}

def capacity (t : Tape) : Nat :=
  64 * t.words.size

def storedWord (t : Tape) (k : Nat) : Word :=
  t.words.getD k 0

/-- Word `k` of the content: the stored word, and over it the pending bits that belong to it. -/
def word (t : Tape) (k : Nat) : Word :=
  if k = t.writePosition / 64 ∧ t.writePosition % 64 ≠ 0 then
    (t.storedWord k &&& ~~~Word.ones (t.writePosition % 64)) ||| t.pending
  else t.storedWord k

def bit (t : Tape) (i : Nat) : Bool :=
  (t.word (i / 64)).bit (i % 64)

def anySet (t : Tape) (start length : Nat) : Bool :=
  anyBitSet t.word start (start + length)

def toBytes (t : Tape) (n : Nat) : List UInt8 :=
  ((List.range (wordsFor n)).flatMap fun k =>
    ((t.word k).low (n - 64 * k)).toBytes).take (bytesFor n)

def store (t : Tape) (w : Word) : Tape :=
  { t with words := t.words.setIfInBounds (t.writePosition / 64) w }

/-- Stores the pending bits. The stored bits after them in the same word stay. -/
def commit (t : Tape) : Tape :=
  if t.writePosition % 64 = 0 then t else t.store (t.word (t.writePosition / 64))

def rewind (t : Tape) : Tape :=
  { words := t.commit.words }

def seekWrite (position : Nat) (t : Tape) : Tape :=
  { t.commit with
    writePosition := position
    pending := (t.commit.storedWord (position / 64)).low (position % 64)
    pending_low := by simp }

/-- Inside a word the rest of it is loaded at once. -/
def seekRead (position : Nat) (t : Tape) : Tape :=
  { t with
    readPosition := position
    loaded :=
      if position % 64 = 0 then 0 else Word.shiftDown (t.word (position / 64)) (position % 64)
    loaded_low := by
      rw [Word.low_eq_self_iff]
      intro i hi
      split
      next => simp
      next h => exact (Word.bit_shiftDown _ _ _).trans (Word.bit_of_le _ (by omega)) }

def readBit (t : Tape) : Bool × Tape :=
  let w := if t.readPosition % 64 = 0 then t.word (t.readPosition / 64) else t.loaded
  (w.bit 0,
    { t with
      readPosition := t.readPosition + 1
      loaded := Word.shiftDown w 1
      loaded_low := by
        have h := (Word.low_eq_self_iff _ _).mp t.loaded_low
        rw [Word.low_eq_self_iff]
        intro i hi
        rw [Word.bit_shiftDown]
        by_cases h0 : t.readPosition % 64 = 0
        · exact Word.bit_of_le _ (by omega)
        · simp only [w, h0, if_false]
          exact h _ (by omega) })

/-- The word with the next `n` bits, the first one lowest. More than 64 are not read at once. -/
def readBits (n : Nat) (t : Tape) : Word × Tape :=
  let n := min n 64
  let held := (64 - t.readPosition % 64) % 64
  if h : n ≤ held then
    (t.loaded.low n,
      { t with
        readPosition := t.readPosition + n
        loaded := Word.shiftDown t.loaded n
        loaded_low := by
          have hl := (Word.low_eq_self_iff _ _).mp t.loaded_low
          rw [Word.low_eq_self_iff]
          intro i hi
          rw [Word.bit_shiftDown]
          exact hl _ (by omega) })
  else
    let next := t.word ((t.readPosition + 63) / 64)
    (t.loaded ||| Word.shiftUp (next.low (n - held)) held,
      { t with
        readPosition := t.readPosition + n
        loaded := Word.shiftDown next (n - held)
        loaded_low := by
          rw [Word.low_eq_self_iff]
          intro i hi
          rw [Word.bit_shiftDown]
          exact Word.bit_of_le _ (by omega) })

def push (t : Tape) (b : Bool) : Tape :=
  if h : t.writePosition % 64 = 63 then
    { t.store (t.pending.setBit 63 b) with
      writePosition := t.writePosition + 1
      pending := 0
      pending_low := by simp [Word.low] }
  else
    { t with
      writePosition := t.writePosition + 1
      pending := t.pending.setBit (t.writePosition % 64) b
      pending_low := by
        have hp := (Word.low_eq_self_iff _ _).mp t.pending_low
        rw [Word.low_eq_self_iff]
        intro i hi
        rw [Word.bit_setBit, if_neg (by omega)]
        exact hp _ (by omega) }

/-- Adds the lowest `n` bits of a word, at most 64, at the write position. There has to be room in
the word at that position. -/
def pushBits (t : Tape) (value : Word) (n : Nat) : Tape :=
  let n := min n 64
  let value := value.low n
  let place := t.writePosition % 64
  if h : place + n < 64 then
    { t with
      writePosition := t.writePosition + n
      pending := t.pending ||| Word.shiftUp value place
      pending_low := by
        have hp := (Word.low_eq_self_iff _ _).mp t.pending_low
        rw [Word.low_eq_self_iff]
        intro i hi
        rw [Word.bit_or, hp _ (by omega), Bool.false_or, Word.bit_shiftUp, Word.bit_low]
        have : ¬i - place < n := by omega
        simp [this] }
  else
    { t.store (t.pending ||| Word.shiftUp value place) with
      writePosition := t.writePosition + n
      pending := Word.shiftDown value (64 - place)
      pending_low := by
        rw [Word.low_eq_self_iff]
        intro i hi
        rw [Word.bit_shiftDown, Word.bit_low]
        have : ¬64 - place + i < n := by omega
        simp [this] }

def setBit (t : Tape) (position : Nat) (b : Bool) : Tape :=
  let word := (t.storedWord (position / 64)).setBit (position % 64) b
  { t with
    words := t.words.setIfInBounds (position / 64) word
    pending :=
      if position / 64 = t.writePosition / 64 then word.low (t.writePosition % 64) else t.pending
    pending_low := by
      split
      next => simp
      next => exact t.pending_low : Tape }.seekRead t.readPosition

def wordsOfBytes : Nat → List UInt8 → List Word
  | 0, _ => []
  | n + 1, bytes => Word.ofBytes (bytes.take 8) :: wordsOfBytes n (bytes.drop 8)

/-- A tape with the first `n` bits of some bytes. Writing continues behind them, and reading starts
at the first. -/
def ofBits (bytes : List UInt8) (n : Nat) : Tape :=
  let words := (wordsOfBytes (wordsFor n) (bytes.take (bytesFor n))).toArray
  { words := words.modify (n / 64) fun w => w.low (n % 64) : Tape }.seekWrite n

@[simp] theorem word_seekRead (t : Tape) (position k : Nat) :
    (t.seekRead position).word k = t.word k := rfl

@[simp] theorem word_readBit (t : Tape) (k : Nat) : t.readBit.2.word k = t.word k := rfl

@[simp] theorem word_readBits (t : Tape) (n k : Nat) : (t.readBits n).2.word k = t.word k := by
  unfold readBits
  dsimp only
  split <;> rfl

@[simp] theorem word_commit (t : Tape) (k : Nat) : t.commit.word k = t.word k := by
  unfold commit
  split
  next => rfl
  next hp =>
    by_cases hk : k = t.writePosition / 64
    · subst hk
      by_cases hs : t.writePosition / 64 < t.words.size
      · apply Word.ext_bit
        intro i _
        simp only [word, store, storedWord, Array.getD, Array.size_setIfInBounds, hs, dif_pos,
          ne_eq, hp, not_false_eq_true, and_self, if_true, Array.getInternal_eq_getElem,
          Array.getElem_setIfInBounds_self, Word.bit_or, Word.bit_and, Word.bit_not, Word.bit_ones]
        grind
      · simp [word, store, storedWord, Array.getD, hs, hp]
    · have hn : t.writePosition / 64 ≠ k := fun h => hk h.symm
      simp [word, store, storedWord, hk, hn]

abbrev Update (α : Type) := Action Tape α

def Update.on {α : Type} (u : Update α) (t : Tape) : Except Fault α × Tape :=
  u.run.run t

def extend (memory : Memory) (count : Nat) : Update Unit := do
  memory.request (8 * count)
  modify fun t => { t with words := t.words ++ Array.replicate (count - t.words.size) 0 }

def reserve (memory : Memory) (n : Nat) : Update Unit := do
  if (← get).words.size < wordsFor n then
    extend memory (wordsFor n)

def allocate (memory : Memory) (n : Nat) : Except Fault Tape :=
  match (reserve memory n).on empty with
  | (.ok _, t) => .ok t
  | (.error e, _) => .error e

def doubledPast (index count : Nat) : Nat :=
  if 0 < count ∧ count ≤ index then doubledPast index (2 * count) else count
termination_by index + 1 - count

def makeRoom (memory : Memory) : Update Unit := do
  let t ← get
  unless t.writePosition / 64 < t.words.size do
    extend memory (doubledPast (t.writePosition / 64) (max t.words.size 1))

def writeBit (memory : Memory) (b : Bool) : Update Unit := do
  makeRoom memory
  modify (·.push b)

/-- Writes the lowest `n` bits of a word, at most 64, the lowest one first. When the bits reach into
another word, room for that one is made at the end. -/
def writeBits (memory : Memory) (value : Word) (n : Nat) : Update Unit := do
  unless n = 0 do
    makeRoom memory
    modify (·.pushBits value n)
    unless (← get).writePosition % 64 = 0 do
      makeRoom memory

def writeBitAt (memory : Memory) (position : Nat) (b : Bool) : Update Unit := do
  modify commit
  reserve memory (position + 1)
  modify (·.setBit position b)

/-- Replaces the tape by one with the first `n` bits of some bytes. The old content is given up
before memory for the new is asked for. -/
def load (memory : Memory) (bytes : List UInt8) (n : Nat) : Update Unit := do
  if bytes.length < bytesFor n then
    throw (.truncated (8 * bytes.length) n)
  let old := (← get).words.size
  modify fun t => { t with words := #[] }
  if old < wordsFor n then
    memory.request (8 * wordsFor n)
  set (ofBits bytes n)

end Tape

end VolumeCodec
