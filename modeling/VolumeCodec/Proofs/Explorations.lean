import VolumeCodec.Proofs.Offspring
import VolumeCodec.Proofs.ArbitraryBits

namespace VolumeCodec

/-- The exchange about the sign that comes right after a decision, if an element was found
significant by it. -/
def Subject.entry (x : Subject) (significant sign : Bool) : List (Query × Bool) :=
  match x, significant with
  | element i, true => [(.sign i, sign)]
  | _, _ => []

/-- Tests of what is due, one after the other in any order, until some of it is left. After each
decision the offspring of a significant subject is due as well. -/
inductive Explores (dims : Extents) : List Due → List (Query × Bool) → List Due → Prop
  | stop {todo left : List Due} (h : todo.Perm left) : Explores dims todo [] left
  | test {todo rest left : List Due} {log : List (Query × Bool)} {x : Subject}
      {implied inferable significant sign : Bool} (h : todo.Perm (⟨x, inferable⟩ :: rest))
      (hi : implied = true → inferable = true)
      (hnext : Explores dims (rest ++ x.successors significant dims) log left) :
      Explores dims todo
        ((.significance x implied, significant) :: (x.entry significant sign ++ log)) left

namespace Explores

variable {dims : Extents} {todo todo' rest mid left : List Due} {log log' : List (Query × Bool)}
  {implied inferable : Bool}

theorem perm (h : Explores dims todo log left) (hp : todo'.Perm todo) :
    Explores dims todo' log left := by
  cases h with
  | stop h => exact .stop (hp.trans h)
  | test h hi hnext => exact .test (hp.trans h) hi hnext

theorem append (h : Explores dims todo log mid) (h' : Explores dims mid log' left) :
    Explores dims todo (log ++ log') left := by
  induction h with
  | stop h => exact h'.perm h
  | test h hi hnext ih =>
    rw [List.cons_append, List.append_assoc]
    exact .test h hi (ih h')

/-- What else is due does not matter. -/
theorem frame (h : Explores dims todo log left) (more : List Due) :
    Explores dims (todo ++ more) log (left ++ more) := by
  induction h with
  | stop h => exact .stop (h.append_right more)
  | @test _ rest _ _ x _ _ significant _ h hi hnext ih =>
    have hp : (rest ++ more ++ x.successors significant dims).Perm
        (rest ++ x.successors significant dims ++ more) := by
      rw [List.append_assoc, List.append_assoc]
      exact List.perm_append_comm.append_left _
    exact .test (h.append_right more) hi (ih.perm hp)

theorem refuse {x : Subject} (hi : implied = true → inferable = true)
    (h : Explores dims rest log left) :
    Explores dims (⟨x, inferable⟩ :: rest) ((.significance x implied, false) :: log) left := by
  have hentry : x.entry false false = [] := by cases x <;> rfl
  have hnext : Explores dims (rest ++ x.successors false dims) log left := by
    rwa [Subject.successors, if_neg Bool.false_ne_true, List.append_nil]
  have ht : Explores dims (⟨x, inferable⟩ :: rest)
      ((.significance x implied, false) :: (x.entry false false ++ log)) left :=
    .test (.refl _) hi hnext
  rwa [hentry] at ht

theorem enter {i : Nat} {sign : Bool} (hi : implied = true → inferable = true)
    (h : Explores dims rest log left) :
    Explores dims (⟨.element i, inferable⟩ :: rest)
      ((.significance (.element i) implied, true) :: (.sign i, sign) :: log) left := by
  refine .test (.refl _) hi ?_
  rwa [Subject.successors, if_pos rfl, Subject.offspring, List.append_nil]

theorem divide {r : Region} (hi : implied = true → inferable = true)
    (h : Explores dims (rest ++ (Subject.region r).offspring dims) log left) :
    Explores dims (⟨.region r, inferable⟩ :: rest)
      ((.significance (.region r) implied, true) :: log) left := by
  show Explores dims _
    ((.significance (.region r) implied, true) :: ((Subject.region r).entry true false ++ log)) left
  exact .test (.refl _) hi h

end Explores

/-- Of a question whether a subject is significant, whether that is implied. -/
def Query.decision? (q : Query) (x : Subject) : Option Bool :=
  match q with
  | .significance y implied => if y = x then some implied else none
  | _ => none

/-- The decisions on a subject, each by whether it was implied. -/
def decisions (log : List (Query × Bool)) (x : Subject) : List Bool :=
  log.filterMap fun e => e.1.decision? x

/-- The elements of which the sign was settled. -/
def signed (log : List (Query × Bool)) : List Nat :=
  log.filterMap fun e => e.1.signed?

section Logs

variable {log : List (Query × Bool)} {x y : Subject} {implied implied' significant sign : Bool}

theorem mem_entry {e : Query × Bool} (h : e ∈ x.entry significant sign) :
    ∃ i, x = .element i ∧ significant = true ∧ e = (.sign i, sign) := by
  match x, significant with
  | .element i, true => exact ⟨i, rfl, rfl, List.mem_singleton.mp h⟩
  | .element _, false => cases h
  | .region _, _ => cases h

theorem decisions_test : decisions
      ((.significance x implied, significant) :: (x.entry significant sign ++ log)) y =
    (if x = y then [implied] else []) ++ decisions log y := by
  have hentry : (x.entry significant sign).filterMap (fun e => e.1.decision? y) = [] := by
    refine List.filterMap_eq_nil_iff.mpr fun e he => ?_
    obtain ⟨i, -, -, rfl⟩ := mem_entry he
    rfl
  unfold decisions
  rw [List.filterMap_cons, List.filterMap_append, hentry, List.nil_append]
  by_cases h : x = y
  · simp [Query.decision?, h]
  · simp [Query.decision?, h]

theorem mem_test (h : (Query.significance y implied, true) ∈
      (.significance x implied', significant) :: (x.entry significant sign ++ log)) :
    (y = x ∧ significant = true) ∨ (Query.significance y implied, true) ∈ log := by
  rcases List.mem_cons.mp h with h | h
  · simp only [Prod.mk.injEq, Query.significance.injEq] at h
    exact .inl ⟨h.1.1, h.2.symm⟩
  · rcases List.mem_append.mp h with h | h
    · obtain ⟨i, -, -, he⟩ := mem_entry h
      cases he
    · exact .inr h

theorem decisions_ne_nil_of_mem (h : (Query.significance x implied, significant) ∈ log) :
    decisions log x ≠ [] := by
  have hm : implied ∈ decisions log x :=
    List.mem_filterMap.mpr ⟨_, h, by simp [Query.decision?]⟩
  exact List.ne_nil_of_mem hm

theorem signed_test : signed
      ((.significance x implied, significant) :: (x.entry significant sign ++ log)) =
    signed (x.entry significant sign) ++ signed log :=
  List.filterMap_append

theorem mem_signed_entry {i : Nat} :
    i ∈ signed (x.entry significant sign) ↔ x = .element i ∧ significant = true := by
  cases x <;> cases significant <;>
    simp [Subject.entry, signed, Query.signed?, eq_comm]

theorem count_sign (log : List (Query × Bool)) (i : Nat) :
    (log.map Prod.fst).count (.sign i) = (signed log).count i := by
  induction log with
  | nil => rfl
  | cons e rest ih =>
    obtain ⟨q, b⟩ := e
    cases q with
    | significance x implied => simpa [signed, Query.signed?] using ih
    | sign j => simpa [signed, Query.signed?, List.count_cons] using ih
    | refinement j => simpa [signed, Query.signed?] using ih

end Logs

namespace Explores

variable {dims : Extents} {todo rest left : List Due} {log : List (Query × Bool)} {x : Subject}

theorem tested {P : Subject → Prop} (h : Explores dims todo log left)
    (ht : ∀ d ∈ todo, P d.subject) (hp : ∀ y, P y → ∀ d ∈ y.offspring dims, P d.subject)
    (hx : decisions log x ≠ []) : P x := by
  induction h with
  | stop h => exact absurd rfl hx
  | @test _ rest _ log y _ _ significant _ h hi hnext ih =>
    have hy := ht _ (h.mem_iff.mpr List.mem_cons_self)
    rw [decisions_test] at hx
    by_cases he : y = x
    · exact he ▸ hy
    · rw [if_neg he, List.nil_append] at hx
      refine ih (fun d hd => ?_) hx
      rcases List.mem_append.mp hd with hd | hd
      · exact ht d (h.mem_iff.mpr (List.mem_cons_of_mem _ hd))
      · exact hp y hy d (Subject.mem_successors.mp hd).2

/-- What has been tested is not tested again. -/
theorem fresh {inferable significant : Bool} (hp : ArePending dims (⟨x, inferable⟩ :: rest))
    (h : Explores dims (rest ++ x.successors significant dims) log left) :
    decisions log x = [] := by
  by_contra hx
  have hx : x.IsWhole dims ∧ x.Follows dims x := by
    refine h.tested (P := fun y => y.IsWhole dims ∧ x.Follows dims y) (fun d hd => ?_) ?_ hx
    · refine ⟨(hp.next significant).whole d hd, ?_⟩
      rcases List.mem_append.mp hd with hd | hd
      · exact hp.follows d hd
      · exact .inl (Subject.size_offspring_lt (hp.whole _ List.mem_cons_self)
          (Subject.mem_successors.mp hd).2)
    · exact fun y hy d hd => ⟨Subject.isWhole_offspring hy.1 hd, hy.2.offspring hy.1 hd⟩
  exact hx.2.ne rfl

theorem decisions_of_later {y : Subject} {implied implied' significant sign : Bool}
    (hx : decisions log x = []) (hy : decisions log y = [implied]) :
    decisions ((.significance x implied', significant) :: (x.entry significant sign ++ log)) y =
      [implied] := by
  have hne : x ≠ y := by
    rintro rfl
    rw [hx] at hy
    cases hy
  rw [decisions_test, if_neg hne, hy, List.nil_append]

/-- What is due is decided once before nothing is left. -/
theorem decisions_of_due (h : Explores dims todo log left) (hl : left = [])
    (hp : ArePending dims todo) :
    ∀ d ∈ todo, ∃ implied, decisions log d.subject = [implied] ∧
      (implied = true → d.inferable = true) := by
  induction h with
  | stop h =>
    intro d hd
    rw [hl] at h
    cases h.mem_iff.mp hd
  | @test _ _ _ _ x implied _ significant _ h hi hnext ih =>
    have hpend := hp.perm h
    have hfresh := hnext.fresh hpend
    intro d hd
    rcases List.mem_cons.mp (h.mem_iff.mp hd) with rfl | hd
    · exact ⟨implied, by rw [decisions_test, if_pos rfl, hfresh, List.append_nil], hi⟩
    · obtain ⟨implied', hd', hi'⟩ := ih hl (hpend.next significant) d (List.mem_append_left _ hd)
      exact ⟨implied', decisions_of_later hfresh hd', hi'⟩

/-- So is the offspring of all that is found significant. -/
theorem decisions_of_offspring (h : Explores dims todo log left) (hl : left = [])
    (hp : ArePending dims todo) {implied : Bool}
    (hx : (Query.significance x implied, true) ∈ log) :
    ∀ d ∈ x.offspring dims, ∃ implied, decisions log d.subject = [implied] ∧
      (implied = true → d.inferable = true) := by
  induction h with
  | stop h => cases hx
  | @test _ _ _ log y _ _ significant _ h hi hnext ih =>
    have hpend := hp.perm h
    have hfresh := hnext.fresh hpend
    have hlater := hpend.next significant
    intro d hd
    have hd' : ∃ implied, decisions log d.subject = [implied] ∧
        (implied = true → d.inferable = true) := by
      rcases mem_test hx with ⟨rfl, rfl⟩ | hx
      · refine hnext.decisions_of_due hl hlater d (List.mem_append_right _ ?_)
        rwa [Subject.successors, if_pos rfl]
      · exact ih hl hlater hx d hd
    obtain ⟨implied', hd', hi'⟩ := hd'
    exact ⟨implied', decisions_of_later hfresh hd', hi'⟩

/-- Nothing is tested but what was due or came up as offspring. -/
theorem origin (h : Explores dims todo log left) (hx : decisions log x ≠ []) :
    (∃ d ∈ todo, d.subject = x) ∨ ∃ y implied, (Query.significance y implied, true) ∈ log ∧
      ∃ d ∈ y.offspring dims, d.subject = x := by
  induction h with
  | stop h => exact absurd rfl hx
  | @test _ _ _ log y implied _ significant sign h hi hnext ih =>
    rw [decisions_test] at hx
    by_cases he : y = x
    · exact .inl ⟨_, h.mem_iff.mpr List.mem_cons_self, he⟩
    · rw [if_neg he, List.nil_append] at hx
      rcases ih hx with ⟨d, hd, hdx⟩ | ⟨z, implied', hz, hoff⟩
      · rcases List.mem_append.mp hd with hd | hd
        · exact .inl ⟨d, h.mem_iff.mpr (List.mem_cons_of_mem _ hd), hdx⟩
        · obtain ⟨rfl, hd⟩ := Subject.mem_successors.mp hd
          exact .inr ⟨y, implied, List.mem_cons_self, d, hd, hdx⟩
      · exact .inr ⟨z, implied', List.mem_cons_of_mem _ (List.mem_append_right _ hz), hoff⟩

/-- The elements with a sign are those found significant. -/
theorem mem_signed {i : Nat} (h : Explores dims todo log left) :
    i ∈ signed log ↔ ∃ implied, (Query.significance (.element i) implied, true) ∈ log := by
  induction h with
  | stop h => simp [signed]
  | @test _ _ _ log y implied _ significant sign h hi hnext ih =>
    rw [signed_test, List.mem_append, mem_signed_entry, ih]
    constructor
    · rintro (⟨rfl, rfl⟩ | ⟨implied', h⟩)
      · exact ⟨implied, List.mem_cons_self⟩
      · exact ⟨implied', List.mem_cons_of_mem _ (List.mem_append_right _ h)⟩
    · rintro ⟨implied', h⟩
      rcases mem_test h with ⟨rfl, hs⟩ | h
      · exact .inl ⟨rfl, hs⟩
      · exact .inr ⟨implied', h⟩

theorem nodup_signed (h : Explores dims todo log left) (hp : ArePending dims todo) :
    (signed log).Nodup := by
  induction h with
  | stop h => exact List.nodup_nil
  | @test _ _ _ log y _ _ significant sign h hi hnext ih =>
    have hpend := hp.perm h
    have hentry : (signed (y.entry significant sign)).Nodup := by
      cases y <;> cases significant <;> simp [Subject.entry, signed, Query.signed?]
    rw [signed_test]
    refine List.nodup_append.mpr ⟨hentry, ih (hpend.next significant), ?_⟩
    rintro i hi j hj rfl
    obtain ⟨rfl, -⟩ := mem_signed_entry.mp hi
    obtain ⟨implied, hj⟩ := hnext.mem_signed.mp hj
    exact decisions_ne_nil_of_mem hj (hnext.fresh hpend)

/-- All questions are about elements of what is due, and none of them is about a refinement. -/
theorem places_of_mem (h : Explores dims todo log left) (hp : ArePending dims todo) :
    ∀ e ∈ log, (∀ i ∈ e.1.indices dims, i ∈ duePlaces dims todo) ∧
      ∀ i, e.1 ≠ .refinement i := by
  induction h with
  | stop h =>
    intro e he
    cases he
  | @test todo rest _ log y implied inferable significant sign h hi hnext ih =>
    have hpend := hp.perm h
    have hplaces : ∀ i, i ∈ duePlaces dims (⟨y, inferable⟩ :: rest) → i ∈ duePlaces dims todo :=
      fun i hi => (h.flatMap_right _).mem_iff.mpr hi
    have hself : ∀ i ∈ y.indices dims, i ∈ duePlaces dims todo := fun i hi =>
      hplaces i (List.mem_append_left _ hi)
    intro e he
    rcases List.mem_cons.mp he with rfl | he
    · exact ⟨hself, fun _ h => Query.noConfusion h⟩
    rcases List.mem_append.mp he with he | he
    · obtain ⟨i, rfl, -, rfl⟩ := mem_entry he
      exact ⟨hself, fun _ h => Query.noConfusion h⟩
    · obtain ⟨hin, href⟩ := ih (hpend.next significant) e he
      refine ⟨fun i hi => hplaces i ?_, href⟩
      have hi := hin i hi
      rw [duePlaces_append] at hi
      rw [duePlaces_cons]
      rcases List.mem_append.mp hi with hi | hi
      · exact List.mem_append_right _ hi
      · obtain ⟨d, hd, hi⟩ := List.mem_flatMap.mp hi
        exact List.mem_append_left _ (Subject.indices_of_offspring
          (hpend.whole _ List.mem_cons_self) (Subject.mem_successors.mp hd).2 i hi)

end Explores

end VolumeCodec
