import VolumeCodec.Proofs.BooleanLists

namespace VolumeCodec

/-- The words a set is kept in. Nothing is known of their bits at or past the bound: a cut leaves
there what it cuts off. -/
structure RawSet where
  bound : Nat
  words : Array Word
  size_words : words.size = wordsFor bound := by rfl

namespace RawSet

open IndexSet (Operation)

def word (r : RawSet) (k : Nat) : Word :=
  r.words.getD k 0

def test (r : RawSet) (i : Nat) : Bool :=
  (r.word (i / 64)).bit (i % 64)

/-- Only the bits below the bound are counted, tested or compared, and words are cut to them. -/
def readings (r : RawSet) : Readings where
  bound := r.bound
  words := wordsFor r.bound
  test? i := if i < r.bound then some (r.test i) else none
  word? k := r.words[k]?.map (·.low (r.bound - 64 * k))
  count := (List.range r.bound).countP r.test
  anyIn start length := (List.range' start (min (start + length) r.bound - start)).any r.test

def Same (r r' : RawSet) : Prop :=
  r.bound = r'.bound ∧ ∀ i < r.bound, r.test i = r'.test i

/-- A word is cut to the bits below the bound before it is stored. -/
def putWord (r : RawSet) (k : Nat) (value : Word) : RawSet where
  bound := r.bound
  words := r.words.setIfInBounds k (value.low (r.bound - 64 * k))
  size_words := by simp [r.size_words]

def putWords (r : RawSet) (words : List Word) : RawSet :=
  (words.take r.words.size).zipIdx.foldl (fun r (w, k) => r.putWord k w) r

/-- What an operation may make of some storage. Only whole words that are stored say what is past
the bound afterwards; everything else may leave any bits there. -/
inductive Changes (r : RawSet) : Operation → RawSet → Prop
  | put {i : Nat} {member : Bool} {r' : RawSet} (hi : i < r.bound) (hbound : r'.bound = r.bound)
      (hbits : ∀ j < r.bound, r'.test j = if j = i then member else r.test j) :
      Changes r (.put i member) r'
  | putWord {k : Nat} {value : Word} (hk : k < r.words.size) :
      Changes r (.putWord k value) (r.putWord k value)
  | putWords {words : List Word} : Changes r (.putWords words) (r.putWords words)
  | resize {bound : Nat} {r' : RawSet} (hbound : r'.bound = bound)
      (hbits : ∀ j < bound, r'.test j = if j < r.bound then r.test j else false) :
      Changes r (.resize bound) r'
  | clear {r' : RawSet} (hbound : r'.bound = r.bound) (hbits : ∀ j < r.bound, r'.test j = false) :
      Changes r .clear r'

inductive Runs : RawSet → List Operation → RawSet → Prop
  | nil {r : RawSet} : Runs r [] r
  | cons {r m r' : RawSet} {op : Operation} {ops : List Operation} (head : r.Changes op m)
      (tail : Runs m ops r') : Runs r (op :: ops) r'

/-- Storage with no bit set below its bound. -/
def IsBlank (bound : Nat) (r : RawSet) : Prop :=
  r.bound = bound ∧ ∀ i < bound, r.test i = false

/-- The set that is kept in some storage. -/
def set (r : RawSet) : IndexSet :=
  .ofWords r.bound r.word

section Reading

variable (r : RawSet)

@[simp] theorem bound_set : r.set.bound = r.bound :=
  rfl

theorem test_set (i : Nat) : r.set.test i = (decide (i < r.bound) && r.test i) :=
  IndexSet.test_ofWords r.bound r.word i

theorem test_set_of_lt {i : Nat} (h : i < r.bound) : r.set.test i = r.test i := by
  simp [test_set, h]

/-- The set in some storage is told by the bits below the bound. -/
theorem set_eq_iff {s : IndexSet} :
    r.set = s ↔ r.bound = s.bound ∧ ∀ i < r.bound, r.test i = s.test i := by
  constructor
  · rintro rfl
    exact ⟨rfl, fun i hi => (r.test_set_of_lt hi).symm⟩
  · rintro ⟨hbound, hbits⟩
    refine IndexSet.ext_test hbound fun i => ?_
    by_cases hi : i < r.bound
    · rw [r.test_set_of_lt hi, hbits i hi]
    · rw [r.set.test_of_le (Nat.not_lt.mp hi), s.test_of_le (hbound ▸ Nat.not_lt.mp hi)]

theorem same_iff {r' : RawSet} : r.Same r' ↔ r.set = r'.set := by
  rw [set_eq_iff]
  refine and_congr_right fun hbound => forall₂_congr fun i hi => ?_
  rw [r'.test_set_of_lt (hbound ▸ hi)]

theorem word?_set (k : Nat) : r.set.word? k = r.words[k]?.map (·.low (r.bound - 64 * k)) := by
  rw [IndexSet.word?, set, IndexSet.ofWords, Array.getElem?_ofFn, ← r.size_words]
  split
  next h => rw [Array.getElem?_eq_getElem h, Option.map_some, word, Array.getD, dif_pos h]; rfl
  next h => rw [Array.getElem?_eq_none (Nat.not_lt.mp h), Option.map_none]

theorem test?_set (i : Nat) : r.set.test? i = if i < r.bound then some (r.test i) else none := by
  rw [IndexSet.test?]
  exact if_ctx_congr Iff.rfl (fun h => congrArg some (r.test_set_of_lt h)) fun _ => rfl

theorem count_set : r.set.count = (List.range r.bound).countP r.test := by
  rw [← IndexSet.count_toList, IndexSet.count_true_toList]
  exact List.countP_congr fun i hi => by rw [r.test_set_of_lt (List.mem_range.mp hi)]

theorem anyIn_set (start length : Nat) : r.set.anyIn start length =
    (List.range' start (min (start + length) r.bound - start)).any r.test := by
  rw [Bool.eq_iff_iff, IndexSet.anyIn_iff, List.any_eq_true]
  simp only [IndexSet.test?_eq_some_iff, List.mem_range'_1, bound_set]
  refine exists_congr fun i => ⟨?_, ?_⟩
  · rintro ⟨hlow, hhigh, hbound, hset⟩
    exact ⟨by omega, r.test_set_of_lt hbound ▸ hset⟩
  · rintro ⟨hrange, hset⟩
    have hbound : i < r.bound := by omega
    exact ⟨by omega, by omega, hbound, (r.test_set_of_lt hbound).trans hset⟩

/-- What is read off the storage is what is read off the set. -/
theorem readings_set : r.set.readings = r.readings :=
  Readings.ext rfl r.set.size_words (funext r.test?_set) (funext r.word?_set) r.count_set
    (funext₂ r.anyIn_set)

end Reading

section Steps

variable {r r' : RawSet} {op : Operation} {ops : List Operation}

theorem div_lt_size (r : RawSet) {i : Nat} (h : i < r.bound) : i / 64 < r.words.size := by
  rw [r.size_words]
  unfold wordsFor
  omega

theorem word_putWord (r : RawSet) (k : Nat) (value : Word) {j : Nat} (hj : j < r.words.size) :
    (r.putWord k value).word j = if j = k then value.low (r.bound - 64 * k) else r.word j := by
  by_cases hk : k = j
  · subst hk
    simp [word, putWord, Array.getD, hj]
  · simp [word, putWord, Array.getD, hj, hk, Ne.symm hk]

theorem set_putWord (r : RawSet) (k : Nat) (value : Word) :
    (r.putWord k value).set = r.set.putWord k value := by
  refine (set_eq_iff _).mpr ⟨rfl, fun i hi => ?_⟩
  have hi : i < r.bound := hi
  rw [IndexSet.test_putWord, r.test_set_of_lt hi, test, r.word_putWord k value (r.div_lt_size hi)]
  split
  next h =>
    have hlow : i % 64 < r.bound - 64 * k := by omega
    rw [Word.bit_low, bound_set, decide_eq_true hlow, decide_eq_true hi]
  next => rfl

theorem set_putWords (r : RawSet) (words : List Word) :
    (r.putWords words).set = r.set.putWords words := by
  have hsize : r.set.words.size = r.words.size := r.set.size_words.trans r.size_words.symm
  rw [← IndexSet.putWords_take, hsize, putWords, IndexSet.putWords]
  refine Eq.symm (List.foldl_hom set fun r p => ?_)
  exact (r.set_putWord p.2 p.1).symm

theorem test_put_set (r : RawSet) {i j : Nat} (hi : i < r.bound) (hj : j < r.bound)
    (member : Bool) : (r.set.put i member).test j = if j = i then member else r.test j := by
  rw [IndexSet.test_put, r.test_set_of_lt hj]
  exact if_ctx_congr (and_iff_left hi) (fun _ => rfl) fun _ => rfl

theorem test_resize_set (r : RawSet) {bound j : Nat} (hj : j < bound) :
    (r.set.resize bound).test j = if j < r.bound then r.test j else false := by
  rw [IndexSet.test_resize, test_set, decide_eq_true hj, Bool.true_and]
  split
  next h => rw [decide_eq_true h, Bool.true_and]
  next h => rw [decide_eq_false h, Bool.false_and]

/-- Whatever an operation leaves past the bound, it does to the set what it should. -/
theorem Changes.perform_set (h : r.Changes op r') : r.set.perform op = some r'.set := by
  cases h with
  | @put i member _ hi hbound hbits =>
    have hset : r'.set = r.set.put i member := (set_eq_iff _).mpr ⟨hbound, fun j hj =>
      (hbits j (hbound ▸ hj)).trans (r.test_put_set hi (hbound ▸ hj) member).symm⟩
    rw [hset]
    exact if_pos hi
  | @putWord k value hk =>
    rw [set_putWord]
    exact if_pos (r.set.size_words ▸ r.size_words ▸ hk)
  | putWords => exact congrArg some (r.set_putWords _).symm
  | resize hbound hbits =>
    exact congrArg some ((set_eq_iff _).mpr ⟨hbound, fun j hj =>
      (hbits j (hbound ▸ hj)).trans (r.test_resize_set (hbound ▸ hj)).symm⟩).symm
  | clear hbound hbits =>
    exact congrArg some ((set_eq_iff _).mpr ⟨hbound, fun j hj =>
      (hbits j (hbound ▸ hj)).trans (IndexSet.test_empty _ j).symm⟩).symm

theorem Runs.performAll_set (h : r.Runs ops r') : r.set.performAll ops = some r'.set := by
  induction h with
  | nil => rfl
  | cons head tail ih =>
    rw [IndexSet.performAll, List.foldlM_cons, head.perform_set]
    exact ih

/-- A set as storage with no bit set past the bound. -/
def ofSet (s : IndexSet) : RawSet :=
  ⟨s.bound, s.words, s.size_words⟩

/-- An operation that can be performed on the set in some storage can be on the storage. -/
theorem exists_changes (r : RawSet) {op : Operation} {s : IndexSet}
    (h : r.set.perform op = some s) : ∃ r', r.Changes op r' := by
  cases op with
  | put i member =>
    obtain ⟨hi, -⟩ := Option.ite_none_right_eq_some.mp h
    exact ⟨ofSet (r.set.put i member), .put hi rfl fun j hj => r.test_put_set hi hj member⟩
  | putWord k value =>
    obtain ⟨hk, -⟩ := Option.ite_none_right_eq_some.mp h
    exact ⟨_, .putWord (r.size_words ▸ r.set.size_words ▸ hk)⟩
  | putWords words => exact ⟨_, .putWords⟩
  | resize bound =>
    exact ⟨ofSet (r.set.resize bound), .resize rfl fun j hj => r.test_resize_set hj⟩
  | clear => exact ⟨ofSet r.set.clear, .clear rfl fun j _ => IndexSet.test_empty _ j⟩

theorem exists_runs (r : RawSet) {ops : List Operation} {s : IndexSet}
    (h : r.set.performAll ops = some s) : ∃ r', r.Runs ops r' := by
  induction ops generalizing r with
  | nil => exact ⟨r, .nil⟩
  | cons op ops ih =>
    rw [IndexSet.performAll, List.foldlM_cons] at h
    obtain ⟨t, hop, hrest⟩ := Option.bind_eq_some_iff.mp h
    obtain ⟨m, hm⟩ := r.exists_changes hop
    obtain rfl := Option.some.inj (hop.symm.trans hm.perform_set)
    obtain ⟨r', hr'⟩ := ih m hrest
    exact ⟨r', .cons hm hr'⟩

end Steps

theorem IsBlank.set {bound : Nat} {r : RawSet} (h : r.IsBlank bound) :
    r.set = .empty bound := by
  obtain ⟨rfl, hnone⟩ := h
  exact r.set_eq_iff.mpr ⟨rfl, fun i hi => (hnone i hi).trans (IndexSet.test_empty _ i).symm⟩

theorem same_iff_of_readings {r r' : RawSet} {l l' : List Bool} (h : r.readings.AreOf l)
    (h' : r'.readings.AreOf l') : r.Same r' ↔ l = l' := by
  rw [← readings_set] at h h'
  rw [same_iff, IndexSet.eq_iff_of_readings h h']

end RawSet

theorem IndexSet.eq_empty_of_allocate {memory : Memory} {bound : Nat} {s : IndexSet}
    (h : IndexSet.allocate memory bound = .ok s) : s = .empty bound := by
  unfold IndexSet.allocate at h
  cases hrequest : memory.requestArray (wordsFor bound) 8 with
  | error fault => rw [hrequest] at h; cases h
  | ok _ => rw [hrequest] at h; cases h; rfl

/-- A set is a list of booleans: after any operations with all indices in range, whatever is read
off it is what the list with the same changes shows. What its storage holds past the bound, at the
start or after an operation, does not matter. -/
theorem sets_are_lists {bound : Nat} {start : IndexSet} {ops : List IndexSet.Operation}
    {l : List Bool}
    (hstart : start = .empty bound ∨ ∃ memory, IndexSet.allocate memory bound = .ok start)
    (hl : IndexSet.Operation.effects (List.replicate bound false) ops = some l) :
    (∃ s, start.performAll ops = some s ∧ s.readings.AreOf l ∧
      ∀ (t : IndexSet) (l' : List Bool), t.readings.AreOf l' → (s = t ↔ l = l')) ∧
    ∀ r : RawSet, r.IsBlank bound → (∃ r', r.Runs ops r') ∧
      ∀ r', r.Runs ops r' → r'.readings.AreOf l ∧
        ∀ (u : RawSet) (l' : List Bool), u.readings.AreOf l' → (r'.Same u ↔ l = l') := by
  have hempty : start = .empty bound := by
    rcases hstart with hnew | ⟨memory, hallocate⟩
    · exact hnew
    · exact IndexSet.eq_empty_of_allocate hallocate
  have hblank := IndexSet.toList_empty bound
  have hrun := (IndexSet.empty bound).toList_performAll ops
  rw [hblank, hl] at hrun
  obtain ⟨s, hs, hlist⟩ := Option.map_eq_some_iff.mp hrun
  have hreadings : s.readings.AreOf l := hlist ▸ s.readings_areOf
  refine ⟨⟨s, hempty ▸ hs, hreadings, fun t l' => IndexSet.eq_iff_of_readings hreadings⟩,
    fun r hr => ?_⟩
  rw [← hr.set] at hs
  refine ⟨r.exists_runs hs, fun r' hruns => ?_⟩
  obtain rfl := Option.some.inj (hs.symm.trans hruns.performAll_set)
  rw [RawSet.readings_set] at hreadings
  exact ⟨hreadings, fun u l' => RawSet.same_iff_of_readings hreadings⟩

/-- Bits are set past the bound at the start, and two that a cut left behind are still in the
storage at the end. -/
theorem sets_are_lists_stale :
    let ops : List IndexSet.Operation := [.putWord 1 (~~~0), .resize 66, .resize 68]
    let l := List.replicate 64 false ++ [true, true, false, false]
    let r : RawSet := ⟨70, #[0, ~~~0x3f], rfl⟩
    let r' : RawSet := ⟨68, #[0, 0x33], rfl⟩
    (r.test 70 = true ∧ r'.test 69 = true) ∧ r.Runs ops r' ∧ r'.readings.AreOf l ∧
      ∃ s, (IndexSet.empty 70).performAll ops = some s ∧ s.readings.AreOf l := by
  intro ops l r r'
  have hruns : r.Runs ops r' :=
    .cons (.putWord (by decide)) <|
    .cons (m := ⟨66, #[0, 0x3f], rfl⟩) (.resize rfl (by decide +kernel)) <|
    .cons (.resize rfl (by decide +kernel)) .nil
  obtain ⟨⟨s, hs, hreadings, -⟩, hraw⟩ :=
    @sets_are_lists 70 (.empty 70) ops l (.inl rfl) (by decide +kernel)
  obtain ⟨-, hraw⟩ := hraw r ⟨rfl, by decide +kernel⟩
  exact ⟨by decide +kernel, hruns, (hraw r' hruns).1, s, hs, hreadings⟩

end VolumeCodec
