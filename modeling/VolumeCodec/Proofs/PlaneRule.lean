import VolumeCodec.Proofs.Conduct
import VolumeCodec.Proofs.Sorting

namespace VolumeCodec

/-- The places of the elements of a subject. -/
def Subject.indices (subject : Subject) (dims : Extents) : List Nat :=
  match subject with
  | element i => [i]
  | region r => r.indices dims

theorem Subject.any_eq (subject : Subject) (dims : Extents) (p : Nat → Bool) :
    subject.any dims p = (subject.indices dims).any p := by
  cases subject with
  | element i => simp [any, indices]
  | region r => exact r.any_eq dims p

/-- What a respondent knows of the elements of an array in one plane: which of them reach the
threshold. One that is not informed knows nothing. -/
structure Insight where
  informed : Prop
  hot : Nat → Prop

/-- An element that reaches the threshold is known to be among some elements. -/
def Insight.Finds (k : Insight) (l : List Nat) : Prop :=
  k.informed → ∃ i ∈ l, k.hot i

/-- None of some elements is known to reach the threshold. -/
def Insight.Excludes (k : Insight) (l : List Nat) : Prop :=
  k.informed → ∀ i ∈ l, ¬k.hot i

theorem Insight.Finds.perm {k : Insight} {l l' : List Nat} (h : k.Finds l) (hp : l.Perm l') :
    k.Finds l' := by
  intro hk
  obtain ⟨i, hi, hot⟩ := h hk
  exact ⟨i, hp.mem_iff.mp hi, hot⟩

theorem Insight.Finds.rest {k : Insight} {l l' : List Nat} (h : k.Finds (l ++ l'))
    (hn : k.Excludes l) : k.Finds l' := by
  intro hk
  obtain ⟨i, hi, hot⟩ := h hk
  rcases List.mem_append.mp hi with hl | hl'
  · exact absurd hot (hn hk i hl)
  · exact ⟨i, hl', hot⟩

/-- An invariant that a respondent keeps in one plane, whatever it is asked. It goes by the phases
of the elements, and each question may spend one of a number of credits. -/
structure PlaneRule {σ : Type} (dims : Extents) (reply : σ → Query → Reply σ) (k : Insight)
    (I : Nat → (Nat → Phase) → σ → Prop) (H : σ → Prop) : Prop where
  spend : ∀ {c c' ph s}, I c ph s → c' ≤ c → I c' ph s
  refine : ∀ {c ph s i}, I (c + 1) ph s → i < dims.volume → ph i = .old →
    (reply s (.refinement i)).Yields (fun _ t => I c (mark ph [i] .done) t) H
  sign : ∀ {c ph s i}, I (c + 1) ph s → i < dims.volume → ph i = .waiting → k.Finds [i] →
    (reply s (.sign i)).Yields (fun _ t => I c (mark ph [i] .done) t) H
  test : ∀ {c ph s subject implied}, I (c + 1) ph s →
    (∀ i ∈ subject.indices dims, i < dims.volume ∧ ph i = .waiting) →
    (implied = true → k.Finds (subject.indices dims)) →
    (reply s (.significance subject implied)).Yields
      (fun a t => (implied = true → a = true) ∧
        (a = true → k.Finds (subject.indices dims) ∧ I c ph t) ∧
        (a = false → k.Excludes (subject.indices dims) ∧
          I c (mark ph (subject.indices dims) .cold) t)) H

/-- The worklists agree at all levels below a bound. -/
def Keeps (level : Nat) (w w' : Worklists) : Prop :=
  ∀ j < level, w'.boxesAt j = w.boxesAt j

theorem Keeps.refl (level : Nat) (w : Worklists) : Keeps level w w := fun _ _ => rfl

theorem Keeps.trans {level : Nat} {w w' w'' : Worklists} (h : Keeps level w w')
    (h' : Keeps level w' w'') : Keeps level w w'' := fun j hj => (h' j hj).trans (h j hj)

theorem Keeps.addBox {level : Nat} {w : Worklists} {b : Box} (h : level ≤ b.level) :
    Keeps level w (w.addBox b) := fun j hj => by
  rw [Worklists.boxesAt_addBox, if_neg (by omega)]

theorem Keeps.setBoxesAt {level : Nat} {w w' : Worklists} {boxes : Array Box}
    (h : Keeps level (w.setBoxesAt level boxes) w') (boxes' : Array Box) :
    Keeps level w (w'.setBoxesAt level boxes') := fun j hj => by
  rw [Worklists.boxesAt_setBoxesAt, if_neg (by omega), h j hj, Worklists.boxesAt_setBoxesAt,
    if_neg (by omega)]

/-- The credits that testing some boxes may take, with all that follows from it. -/
def testFee (boxes : List Box) : Nat :=
  (boxes.map fun b => 4 * b.extent.volume - 1).sum

/-- The credits that splitting some significant boxes may take. -/
def splitFee (boxes : List Box) : Nat :=
  (boxes.map fun b => 4 * b.extent.volume - 2).sum

@[simp] theorem testFee_cons (b : Box) (boxes : List Box) :
    testFee (b :: boxes) = (4 * b.extent.volume - 1) + testFee boxes := by
  simp [testFee]

@[simp] theorem testFee_append (a b : List Box) : testFee (a ++ b) = testFee a + testFee b := by
  simp [testFee]

@[simp] theorem splitFee_cons (b : Box) (boxes : List Box) :
    splitFee (b :: boxes) = (4 * b.extent.volume - 2) + splitFee boxes := by
  simp [splitFee]

@[simp] theorem splitFee_append (a b : List Box) :
    splitFee (a ++ b) = splitFee a + splitFee b := by
  simp [splitFee]

theorem volume_pos {b : Box} (h : b.isEmpty = false) : 0 < b.extent.volume := by
  have hn : b.extent.volume ≠ 0 := fun hz => by
    rw [volume_eq_zero_iff] at hz
    rw [Box.isEmpty, hz] at h
    cases h
  omega

theorem testFee_add_length (dims : Extents) {boxes : List Box}
    (h : ∀ b ∈ boxes, b.isEmpty = false) :
    testFee boxes + boxes.length = 4 * (places dims boxes).length := by
  induction boxes with
  | nil => rfl
  | cons b rest ih =>
    have hb := volume_pos (h b (by simp))
    have hr := ih fun c hc => h c (by simp [hc])
    simp only [testFee_cons, List.length_cons, places_cons, List.length_append,
      length_indices_box]
    omega

theorem testFee_parts {b : Box} (hs : b.isPixel = false) (he : b.isEmpty = false) :
    testFee b.parts ≤ 4 * b.extent.volume - 2 := by
  have hsum := testFee_add_length ⟨0, 0, 0⟩ fun p hp => (mem_parts (b := b) hp).2
  have hlen := (places_parts ⟨0, 0, 0⟩ b).length_eq
  have htwo := two_le_length_parts hs he
  rw [length_indices_box] at hlen
  omega

end VolumeCodec
