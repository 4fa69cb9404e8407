import Mathlib.Data.List.Induction
import Mathlib.Order.Bounds.Basic
import VolumeCodec.Proofs.RangeTests

namespace VolumeCodec

namespace IndexSet

/-- What changes a set once it is there; `insert` and `erase` are two cases of `put`. -/
inductive Operation
  | put (i : Nat) (member : Bool)
  | putWord (k : Nat) (value : Word)
  | putWords (words : List Word)
  | resize (bound : Nat)
  | clear

/-- Nothing comes of an index that is out of range. -/
def perform (s : IndexSet) : Operation → Option IndexSet
  | .put i member => s.put? i member
  | .putWord k value => s.putWord? k value
  | .putWords words => some (s.putWords words)
  | .resize bound => some (s.resize bound)
  | .clear => some s.clear

def performAll (s : IndexSet) (ops : List Operation) : Option IndexSet :=
  ops.foldlM perform s

/-- A list of bits with those of some words written over it. Bits behind the end are dropped. -/
def overwrite (l : List Bool) (word? : Nat → Option Word) : List Bool :=
  l.mapIdx fun i b =>
    match word? (i / 64) with
    | some w => w.bit (i % 64)
    | none => b

/-- What an operation does to a plain list of bits. -/
def Operation.effect (l : List Bool) : Operation → Option (List Bool)
  | put i member => if i < l.length then some (l.set i member) else none
  | putWord k value =>
    if 64 * k < l.length then some (overwrite l fun j => if j = k then some value else none)
    else none
  | putWords words => some (overwrite l (words[·]?))
  | resize bound => some (l.take bound ++ List.replicate (bound - l.length) false)
  | clear => some (List.replicate l.length false)

def Operation.effects (l : List Bool) (ops : List Operation) : Option (List Bool) :=
  ops.foldlM effect l

end IndexSet

/-- Everything that is ever read off a set. -/
@[ext] structure Readings where
  bound : Nat
  words : Nat
  test? : Nat → Option Bool
  word? : Nat → Option Word
  count : Nat
  anyIn : Nat → Nat → Bool

/-- The readings are those of a list of bits, which they determine. -/
structure Readings.AreOf (o : Readings) (l : List Bool) : Prop where
  bound : o.bound = l.length
  words : IsLeast {n | l.length ≤ 64 * n} o.words
  test? : ∀ i, o.test? i = l[i]?
  word? : ∀ k w, o.word? k = some w ↔
    64 * k < l.length ∧ ∀ i < 64, w.bit i = l.getD (64 * k + i) false
  count : o.count = l.count true
  anyIn : ∀ start length, o.anyIn start length = true ↔ true ∈ (l.drop start).take length

theorem Readings.AreOf.unique {o : Readings} {l l' : List Bool} (h : o.AreOf l) (h' : o.AreOf l') :
    l = l' :=
  List.ext_getElem? fun i => (h.test? i).symm.trans (h'.test? i)

theorem Word.length_members (w : Word) : w.members.length = (List.range 64).countP w.bit := by
  unfold Word.members
  split
  next h => exact (List.countP_eq_zero.mpr fun j _ => by simp [h]).symm
  next => exact List.countP_eq_length_filter.symm

namespace IndexSet

def readings (s : IndexSet) : Readings where
  bound := s.bound
  words := s.words.size
  test? := s.test?
  word? := s.word?
  count := s.count
  anyIn := s.anyIn

section Reading

variable (s : IndexSet)

@[simp] theorem length_toList : s.toList.length = s.bound := by
  simp [toList]

@[simp] theorem getElem?_toList (i : Nat) : s.toList[i]? = s.test? i := by
  rw [toList, List.getElem?_map, test?]
  split
  next h => rw [List.getElem?_range h, Option.map_some]
  next h => rw [List.getElem?_eq_none (by simpa using h), Option.map_none]

@[simp] theorem getD_toList (i : Nat) : s.toList.getD i false = s.test i := by
  rw [List.getD_eq_getElem?_getD, getElem?_toList, test?]
  split
  next => rfl
  next h => exact (s.test_of_le (Nat.not_lt.mp h)).symm

theorem test_word (k : Nat) {j : Nat} (hj : j < 64) : s.test (64 * k + j) = (s.word k).bit j := by
  rw [test, Nat.mul_add_div (by decide), Nat.div_eq_of_lt hj, Nat.add_zero, Nat.mul_add_mod,
    Nat.mod_eq_of_lt hj]

theorem toList_inj {t : IndexSet} : s.toList = t.toList ↔ s = t := by
  constructor
  · intro h
    refine ext_test ?_ fun i => ?_
    · simpa using congrArg List.length h
    · rw [← getD_toList, h, getD_toList]
  · rintro rfl
    rfl

theorem size_isLeast : IsLeast {n | s.bound ≤ 64 * n} s.words.size := by
  have hsize : s.words.size = (s.bound + 63) / 64 := s.size_words
  refine ⟨?_, fun n (hn : s.bound ≤ 64 * n) => ?_⟩
  · rw [Set.mem_ofPred_eq]
    omega
  · omega

theorem lt_size_iff (k : Nat) : k < s.words.size ↔ 64 * k < s.bound := by
  rw [s.size_words]
  unfold wordsFor
  omega

theorem word?_eq (k : Nat) : s.word? k = if 64 * k < s.bound then some (s.word k) else none := by
  simp only [← s.lt_size_iff, word?]
  split
  next h => rw [Array.getElem?_eq_getElem h, word, Array.getD, dif_pos h]; rfl
  next h => exact Array.getElem?_eq_none (Nat.not_lt.mp h)

theorem word?_eq_some_iff (k : Nat) (w : Word) : s.word? k = some w ↔
    64 * k < s.bound ∧ ∀ j < 64, w.bit j = s.test (64 * k + j) := by
  rw [word?_eq]
  split
  next h =>
    simp only [Option.some.injEq, h, true_and]
    constructor
    · rintro rfl j hj
      exact (s.test_word k hj).symm
    · exact fun hbits => Word.ext_bit fun j hj => (s.test_word k hj).symm.trans (hbits j hj).symm
  next h => simp [h]

end Reading

section Counting

variable (s : IndexSet)

theorem count_eq_sum :
    s.count = ((List.range s.words.size).map fun k => (s.word k).members.length).sum := by
  have hwords : s.words.toList = (List.range s.words.size).map s.word := by
    refine List.ext_getElem (by simp) fun k hk _ => ?_
    have hk : k < s.words.size := by simpa using hk
    simp [word, Array.getD, hk]
  rw [count, ← Array.foldl_toList, hwords, List.foldl_map, List.sum_eq_foldl, List.foldl_map]

/-- Counting word by word and counting number by number are the same for any number of words. -/
theorem countP_range_words (n : Nat) : (List.range (64 * n)).countP s.test =
    ((List.range n).map fun k => (s.word k).members.length).sum := by
  induction n with
  | zero => rfl
  | succ n ih =>
    have hlast : (List.range 64).countP (s.test ∘ (64 * n + ·)) = (s.word n).members.length := by
      rw [Word.length_members]
      exact List.countP_congr fun j hj => by
        rw [Function.comp_apply, s.test_word n (List.mem_range.mp hj)]
    rw [Nat.mul_succ, List.range_add, List.countP_append, ih, List.countP_map, hlast,
      List.range_succ, List.map_append, List.sum_append]
    simp

theorem count_true_toList : s.toList.count true = (List.range s.bound).countP s.test := by
  simp [toList, List.count, List.countP_map, Function.comp_def]

theorem count_toList : s.toList.count true = s.count := by
  have hbound : s.bound ≤ 64 * s.words.size := s.size_isLeast.1
  have hnone : (List.range (64 * s.words.size - s.bound)).countP (s.test ∘ (s.bound + ·)) = 0 :=
    List.countP_eq_zero.mpr fun j _ => by simp
  calc s.toList.count true
      = (List.range s.bound).countP s.test := s.count_true_toList
    _ = (List.range (64 * s.words.size)).countP s.test := by
        conv_rhs => rw [← Nat.add_sub_cancel' hbound, List.range_add, List.countP_append,
          List.countP_map, hnone, Nat.add_zero]
    _ = s.count := by rw [countP_range_words, count_eq_sum]

end Counting

theorem readings_areOf (s : IndexSet) : s.readings.AreOf s.toList where
  bound := s.length_toList.symm
  words := by rw [length_toList]; exact s.size_isLeast
  test? i := (s.getElem?_toList i).symm
  word? k w := by simp only [length_toList, getD_toList]; exact s.word?_eq_some_iff k w
  count := s.count_toList.symm
  anyIn start length := by
    have hplace : (∃ i, start ≤ i ∧ i < start + length ∧ s.test? i = some true) ↔
        ∃ j < length, s.test? (start + j) = some true := by
      constructor
      · rintro ⟨i, hlow, hhigh, hset⟩
        exact ⟨i - start, by omega, by rwa [Nat.add_sub_cancel' hlow]⟩
      · rintro ⟨j, hj, hset⟩
        exact ⟨start + j, by omega, by omega, hset⟩
    rw [show s.readings.anyIn = s.anyIn from rfl, anyIn_iff, hplace, List.mem_iff_getElem?]
    refine exists_congr fun j => ?_
    rw [List.getElem?_take]
    split
    next h => simp [h]
    next h => simp [h]

theorem eq_iff_of_readings {s t : IndexSet} {l l' : List Bool} (h : s.readings.AreOf l)
    (h' : t.readings.AreOf l') : s = t ↔ l = l' := by
  rw [h.unique s.readings_areOf, h'.unique t.readings_areOf, toList_inj]

section Steps

variable (s : IndexSet)

theorem putWords_append (words : List Word) (w : Word) :
    s.putWords (words ++ [w]) = (s.putWords words).putWord words.length w := by
  simp [putWords, List.zipIdx_append]

/-- By induction from the back: the last of the words is put where no other one is. -/
theorem bound_putWords (words : List Word) : (s.putWords words).bound = s.bound := by
  induction words using List.reverseRecOn with
  | nil => rfl
  | append_singleton words w ih => rw [putWords_append]; exact ih

theorem test_putWords (words : List Word) (i : Nat) : (s.putWords words).test i =
    match words[i / 64]? with
    | some w => decide (i < s.bound) && w.bit (i % 64)
    | none => s.test i := by
  induction words using List.reverseRecOn with
  | nil => rfl
  | append_singleton words w ih =>
    rw [putWords_append, test_putWord, bound_putWords, ih]
    by_cases hlast : i / 64 = words.length
    · rw [if_pos hlast, hlast, List.getElem?_concat_length]
    · have hrest : (words ++ [w])[i / 64]? = words[i / 64]? := by grind
      rw [if_neg hlast, hrest]

/-- Words behind the last one of a set are not put anywhere. -/
theorem putWords_take (words : List Word) :
    s.putWords (words.take s.words.size) = s.putWords words := by
  refine ext_test ((s.bound_putWords _).trans (s.bound_putWords _).symm) fun i => ?_
  by_cases hi : i < s.bound
  · have hk : i / 64 < s.words.size := (s.lt_size_iff _).mpr (by omega)
    rw [test_putWords, test_putWords, List.getElem?_take_of_lt hk]
  · have hi : s.bound ≤ i := Nat.not_lt.mp hi
    rw [test_of_le _ (by rwa [s.bound_putWords]),
      test_of_le _ (by rwa [s.bound_putWords])]

theorem getElem?_overwrite (l : List Bool) (word? : Nat → Option Word) (i : Nat) :
    (overwrite l word?)[i]? = l[i]?.map fun b =>
      match word? (i / 64) with
      | some w => w.bit (i % 64)
      | none => b := by
  rw [overwrite, List.getElem?_mapIdx]

/-- A set that has been changed word by word shows the list with these words written over it. -/
theorem toList_overwrite {t : IndexSet} {word? : Nat → Option Word} (hbound : t.bound = s.bound)
    (htest : ∀ i < s.bound, t.test i =
      match word? (i / 64) with
      | some w => w.bit (i % 64)
      | none => s.test i) : t.toList = overwrite s.toList word? := by
  refine List.ext_getElem? fun i => ?_
  rw [getElem?_overwrite, getElem?_toList, getElem?_toList, test?, test?, hbound]
  split
  next h => rw [htest i h, Option.map_some]
  next h => rw [Option.map_none]

theorem toList_put {i : Nat} (h : i < s.bound) (member : Bool) :
    (s.put i member).toList = s.toList.set i member := by
  have hbound : (s.put i member).bound = s.bound := rfl
  refine List.ext_getElem? fun j => ?_
  rw [getElem?_toList, List.getElem?_set, length_toList, getElem?_toList, test?, test_put, hbound,
    test?]
  by_cases hj : j = i
  · subst hj
    simp [h]
  · simp [hj, Ne.symm hj]

theorem toList_putWord (k : Nat) (value : Word) : (s.putWord k value).toList =
    overwrite s.toList fun j => if j = k then some value else none := by
  refine s.toList_overwrite rfl fun i hi => ?_
  rw [test_putWord]
  by_cases hk : i / 64 = k <;> simp [hk, hi]

theorem toList_putWords (words : List Word) :
    (s.putWords words).toList = overwrite s.toList (words[·]?) := by
  refine s.toList_overwrite (s.bound_putWords words) fun i hi => ?_
  rw [test_putWords]
  simp [hi]

theorem toList_resize (bound : Nat) : (s.resize bound).toList =
    s.toList.take bound ++ List.replicate (bound - s.toList.length) false := by
  have hbound : (s.resize bound).bound = bound := rfl
  refine List.ext_getElem? fun i => ?_
  rw [getElem?_toList, test?, test_resize, hbound, List.getElem?_append, List.length_take,
    List.getElem?_take, getElem?_toList, test?, List.getElem?_replicate, length_toList]
  by_cases hnew : i < bound
  · by_cases hold : i < s.bound
    · simp [hnew, hold]
    · have hcount : i - min bound s.bound < bound - s.bound := by omega
      simp [hnew, hold, hcount, s.test_of_le (Nat.not_lt.mp hold)]
  · have hcount : ¬i - min bound s.bound < bound - s.bound := by omega
    simp [hnew, hcount]

theorem toList_empty (bound : Nat) : (empty bound).toList = List.replicate bound false := by
  refine List.eq_replicate_iff.mpr ⟨length_toList _, fun b hb => ?_⟩
  obtain ⟨i, -, rfl⟩ := List.mem_map.mp hb
  exact test_empty bound i

theorem toList_clear : s.clear.toList = List.replicate s.toList.length false := by
  rw [length_toList, clear, toList_empty]

theorem toList_perform (op : Operation) : (s.perform op).map toList = op.effect s.toList := by
  cases op with
  | put i member =>
    rw [perform, put?, Operation.effect, length_toList]
    split
    next h => exact congrArg some (s.toList_put h member)
    next => rfl
  | putWord k value =>
    rw [perform, putWord?, Operation.effect, length_toList]
    simp only [s.lt_size_iff]
    split
    next => exact congrArg some (s.toList_putWord k value)
    next => rfl
  | putWords words => exact congrArg some (s.toList_putWords words)
  | resize bound => exact congrArg some (s.toList_resize bound)
  | clear => exact congrArg some s.toList_clear

/-- By induction on the operations: an index is out of range in both or in neither. -/
theorem toList_performAll (ops : List Operation) :
    (s.performAll ops).map toList = Operation.effects s.toList ops := by
  induction ops generalizing s with
  | nil => rfl
  | cons op ops ih =>
    have hstep := s.toList_perform op
    rw [performAll, Operation.effects, List.foldlM_cons, List.foldlM_cons, ← hstep]
    cases s.perform op with
    | none => rfl
    | some t => exact ih t

end Steps

end IndexSet

end VolumeCodec
