import VolumeCodec.Memory
import VolumeCodec.Word

namespace VolumeCodec

structure IndexSet where
  bound : Nat := 0
  words : Array Word := #[]
  size_words : words.size = wordsFor bound := by rfl
  /-- No place at or past the bound is marked. -/
  words_low : ∀ k, (words.getD k 0).low (bound - 64 * k) = words.getD k 0 := by
    intro k; simp [Word.low]
  deriving DecidableEq

namespace IndexSet

def ofWords (bound : Nat) (word : Nat → Word) : IndexSet where
  bound := bound
  words := Array.ofFn fun k : Fin (wordsFor bound) => (word k).low (bound - 64 * k)
  size_words := Array.size_ofFn
  words_low k := by
    by_cases h : k < wordsFor bound
    · simp [Array.getD, h]
    · simp [Array.getD, h, Word.low]

def empty (bound : Nat) : IndexSet :=
  ofWords bound fun _ => 0

def allocate (memory : Memory) (bound : Nat) : Except Fault IndexSet := do
  memory.requestArray (wordsFor bound) 8
  pure (empty bound)

def word (s : IndexSet) (k : Nat) : Word :=
  s.words.getD k 0

def test (s : IndexSet) (i : Nat) : Bool :=
  (s.word (i / 64)).bit (i % 64)

def toList (s : IndexSet) : List Bool :=
  (List.range s.bound).map s.test

/-- Replaces a word, without the places at or past the bound. -/
def putWord (s : IndexSet) (k : Nat) (value : Word) : IndexSet :=
  { s with
    words := s.words.setIfInBounds k (value.low (s.bound - 64 * k))
    size_words := by simp [s.size_words]
    words_low := by
      intro j
      have h := s.words_low j
      by_cases hj : j < s.words.size
      · by_cases hk : k = j
        · subst hk; simp [Array.getD, hj]
        · simpa [Array.getD, hj, Array.getElem_setIfInBounds, hk] using h
      · simp [Array.getD, hj, Word.low] }

/-- Puts a number into the set or takes it out. A number at or past the bound never gets in. -/
def put (s : IndexSet) (i : Nat) (member : Bool) : IndexSet :=
  s.putWord (i / 64) ((s.word (i / 64)).setBit (i % 64) member)

def insert (s : IndexSet) (i : Nat) : IndexSet :=
  s.put i true

def erase (s : IndexSet) (i : Nat) : IndexSet :=
  s.put i false

def test? (s : IndexSet) (i : Nat) : Option Bool :=
  if i < s.bound then some (s.test i) else none

def put? (s : IndexSet) (i : Nat) (member : Bool) : Option IndexSet :=
  if i < s.bound then some (s.put i member) else none

def word? (s : IndexSet) (k : Nat) : Option Word :=
  s.words[k]?

def putWord? (s : IndexSet) (k : Nat) (value : Word) : Option IndexSet :=
  if k < s.words.size then some (s.putWord k value) else none

/-- Changes the bound. Only the numbers below both bounds stay. -/
def resize (s : IndexSet) (bound : Nat) : IndexSet :=
  ofWords bound s.word

def clear (s : IndexSet) : IndexSet :=
  empty s.bound

def members (s : IndexSet) : List Nat :=
  (List.range s.words.size).flatMap fun k => (s.word k).members.map (64 * k + ·)

def count (s : IndexSet) : Nat :=
  s.words.foldl (fun n w => n + w.members.length) 0

def anyIn (s : IndexSet) (start length : Nat) : Bool :=
  anyBitSet s.word start (min (start + length) s.bound)

/-- Replaces the words from the first on by the given ones, as far as both reach. -/
def putWords (s : IndexSet) (words : List Word) : IndexSet :=
  words.zipIdx.foldl (fun s (w, k) => s.putWord k w) s

@[simp] theorem test_of_le (s : IndexSet) {i : Nat} (h : s.bound ≤ i) : s.test i = false := by
  have hw := (Word.low_eq_self_iff _ _).mp (s.words_low (i / 64)) (i % 64) (by omega)
  exact hw

theorem word_ofWords (bound : Nat) (word : Nat → Word) (k : Nat) :
    (ofWords bound word).word k = (word k).low (bound - 64 * k) := by
  by_cases h : k < wordsFor bound
  · simp [IndexSet.word, ofWords, Array.getD, h]
  · have hz : bound - 64 * k = 0 := by unfold wordsFor at h; omega
    simp [IndexSet.word, ofWords, Array.getD, h, hz, Word.low, Word.ones, Word.shiftUp]

@[simp] theorem test_ofWords (bound : Nat) (word : Nat → Word) (i : Nat) :
    (ofWords bound word).test i = (decide (i < bound) && (word (i / 64)).bit (i % 64)) := by
  rw [test, word_ofWords, Word.bit_low]
  congr 1
  simp only [decide_eq_decide]
  omega

@[simp] theorem test_empty (bound i : Nat) : (empty bound).test i = false := by
  simp [empty]

theorem word_putWord (s : IndexSet) (k : Nat) (value : Word) (j : Nat) :
    (s.putWord k value).word j = if j = k then value.low (s.bound - 64 * k) else s.word j := by
  by_cases hj : j < s.words.size
  · by_cases hk : k = j
    · subst hk; simp [word, putWord, Array.getD, hj]
    · simp [word, putWord, Array.getD, hj, hk, Ne.symm hk]
  · have hz : s.bound - 64 * j = 0 := by
      have := s.size_words
      unfold wordsFor at this
      omega
    by_cases hk : j = k
    · subst hk; simp [word, putWord, Array.getD, hj, hz, Word.low, Word.ones, Word.shiftUp]
    · simp [word, putWord, Array.getD, hj, hk]

@[simp] theorem test_putWord (s : IndexSet) (k : Nat) (value : Word) (i : Nat) :
    (s.putWord k value).test i =
      if i / 64 = k then decide (i < s.bound) && value.bit (i % 64) else s.test i := by
  rw [test, word_putWord]
  split
  next h =>
    rw [Word.bit_low]
    congr 1
    simp only [decide_eq_decide]
    omega
  next => rfl

@[simp] theorem test_put (s : IndexSet) (i : Nat) (member : Bool) (j : Nat) :
    (s.put i member).test j = if j = i ∧ i < s.bound then member else s.test j := by
  by_cases hb : j < s.bound
  · rw [put, test_putWord]
    by_cases h : j / 64 = i / 64
    · have hj : j % 64 < 64 := Nat.mod_lt _ (by decide)
      rw [if_pos h, Word.bit_setBit]
      by_cases he : j = i
      · subst he; simp [hb, hj]
      · have hn : ¬j % 64 = i % 64 := by omega
        simp [hb, he, hn, test, h]
    · have he : ¬j = i := fun he => h (by rw [he])
      simp [h, he]
  · have hs : s.bound ≤ j := Nat.not_lt.mp hb
    have hn : ¬(j = i ∧ i < s.bound) := by omega
    rw [if_neg hn, test_of_le s hs]
    exact test_of_le _ hs

@[simp] theorem test_resize (s : IndexSet) (bound i : Nat) :
    (s.resize bound).test i = (decide (i < bound) && s.test i) := by
  rw [resize, test_ofWords, test]

theorem ext_test {s t : IndexSet} (hb : s.bound = t.bound) (h : ∀ i, s.test i = t.test i) :
    s = t := by
  have hw : s.words = t.words := by
    apply Array.ext
    · rw [s.size_words, t.size_words, hb]
    · intro k hs ht
      apply Word.ext_bit
      intro i hi
      have hk := h (64 * k + i)
      have hq : (64 * k + i) / 64 = k := by omega
      have hr : (64 * k + i) % 64 = i := by omega
      simpa [test, word, Array.getD, hq, hr, hs, ht] using hk
  cases s; cases t; simp_all

theorem mem_members (s : IndexSet) (i : Nat) : i ∈ s.members ↔ s.test i = true := by
  simp only [members, List.mem_flatMap, List.mem_range, List.mem_map, Word.mem_members]
  constructor
  · rintro ⟨k, _, j, hj, rfl⟩
    have hlt : j < 64 := by
      by_cases hi : j < 64
      · exact hi
      · rw [Word.bit_of_le _ (Nat.not_lt.mp hi)] at hj
        cases hj
    have hq : (64 * k + j) / 64 = k := by omega
    have hr : (64 * k + j) % 64 = j := by omega
    rw [test, hq, hr]
    exact hj
  · intro h
    have hi : i < s.bound := by
      by_cases hb : i < s.bound
      · exact hb
      · rw [test_of_le s (Nat.not_lt.mp hb)] at h
        cases h
    refine ⟨i / 64, ?_, i % 64, h, by omega⟩
    rw [s.size_words]
    unfold wordsFor
    omega

end IndexSet

end VolumeCodec
