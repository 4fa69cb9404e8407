import VolumeCodec.Proofs.Exchanges
import VolumeCodec.Proofs.Explorations
import VolumeCodec.Proofs.Partitions

namespace VolumeCodec

/-- A part of a plane tests what is due and lists the elements that it finds significant. -/
structure Tests (dims : Extents) (todo : List Due) (w : Worklists) (log : List (Query × Bool))
    (left : List Due) (w' : Worklists) : Prop where
  explores : Explores dims todo log left
  significant : w'.significant.toList = w.significant.toList ++ signed log

namespace Tests

variable {dims : Extents} {todo todo' rest mid left : List Due} {log log' : List (Query × Bool)}
  {w w₁ w' : Worklists} {implied inferable : Bool}

theorem refl (dims : Extents) (todo : List Due) (w : Worklists) : Tests dims todo w [] todo w :=
  ⟨.stop (.refl todo), (List.append_nil _).symm⟩

theorem perm (h : Tests dims todo w log left w') (hp : todo'.Perm todo) :
    Tests dims todo' w log left w' :=
  ⟨h.explores.perm hp, h.significant⟩

theorem append (h : Tests dims todo w log mid w₁) (h' : Tests dims mid w₁ log' left w') :
    Tests dims todo w (log ++ log') left w' := by
  refine ⟨h.explores.append h'.explores, ?_⟩
  rw [h'.significant, h.significant, signed, signed, signed, List.filterMap_append,
    List.append_assoc]

theorem frame (h : Tests dims todo w log left w') (more : List Due) :
    Tests dims (todo ++ more) w log (left ++ more) w' :=
  ⟨h.explores.frame more, h.significant⟩

theorem refuse {x : Subject} (h : Tests dims rest w₁ log left w')
    (hi : implied = true → inferable = true) (hw : w₁.significant = w.significant) :
    Tests dims (⟨x, inferable⟩ :: rest) w ((.significance x implied, false) :: log) left w' :=
  ⟨.refuse hi h.explores, by rw [h.significant, hw]; rfl⟩

theorem enter {i : Nat} {sign : Bool} (h : Tests dims rest w₁ log left w')
    (hi : implied = true → inferable = true) (hw : w₁.significant = w.significant.push i) :
    Tests dims (⟨.element i, inferable⟩ :: rest) w
      ((.significance (.element i) implied, true) :: (.sign i, sign) :: log) left w' := by
  refine ⟨.enter hi h.explores, ?_⟩
  rw [h.significant, hw, Array.toList_push, List.append_assoc]
  rfl

theorem divide {r : Region}
    (h : Tests dims ((Subject.region r).offspring dims ++ rest) w log left w')
    (hi : implied = true → inferable = true) :
    Tests dims (⟨.region r, inferable⟩ :: rest) w
      ((.significance (.region r) implied, true) :: log) left w' :=
  ⟨.divide hi (h.explores.perm List.perm_append_comm), h.significant⟩

end Tests

/-- What some significant boxes leave to be tested. -/
def offspringOf (dims : Extents) (boxes : List Box) : List Due :=
  boxes.flatMap fun b => (Subject.region (.box b)).offspring dims

theorem offspringOf_append (dims : Extents) (boxes boxes' : List Box) :
    offspringOf dims (boxes ++ boxes') = offspringOf dims boxes ++ offspringOf dims boxes' :=
  List.flatMap_append

theorem offspringOf_singleton (dims : Extents) (b : Box) :
    offspringOf dims [b] = (Subject.region (.box b)).offspring dims :=
  List.flatMap_singleton ..

/-- Boxes that wait, as they are due. -/
def waiting (boxes : List Box) : List Due :=
  boxes.map fun b => ⟨.region (.box b), false⟩

section Passes

open Dialogue

variable {dims : Extents} {w : Worklists}

theorem enter_records (i : Nat) (w : Worklists) :
    (enter i w).Records fun log w' =>
      ∃ sign, log = [(.sign i, sign)] ∧ w' = { w with significant := w.significant.push i } :=
  records_question_bind fun sign => ⟨sign, rfl, rfl⟩

theorem refinementPass_records (l : List Nat) :
    (refinementPass l).Records fun log _ => log.map Prod.fst = l.map .refinement := by
  induction l with
  | nil => rfl
  | cons i rest ih =>
    rw [refinementPass]
    refine records_question_bind fun b => ih.mono fun log _ h => ?_
    rw [List.map_cons, List.map_cons, h]

theorem elementPass_records (dims : Extents) (l : List Nat) (w : Worklists) :
    (elementPass l w).Records fun log w' =>
      Tests dims (l.map fun i => ⟨.element i, false⟩) w log [] w' ∧ w'.boxes = w.boxes := by
  induction l generalizing w with
  | nil => exact ⟨.refl dims [] w, rfl⟩
  | cons i rest ih =>
    rw [elementPass]
    refine records_question_bind fun a => ?_
    cases a with
    | true =>
      refine records_bind (enter_records i _) ?_
      rintro _ w₁ ⟨sign, rfl, rfl⟩
      exact (ih _).mono fun log w' h => ⟨h.1.enter (fun h => Bool.noConfusion h) rfl, h.2⟩
    | false =>
      exact (ih w).mono fun log w' h => ⟨h.1.refuse (fun h => Bool.noConfusion h) rfl, h.2⟩

theorem testEach_records (boxes : List Box) {due inferable : Bool} {level : Nat}
    (hi : due = true → inferable = true) (hb : ∀ b ∈ boxes, level ≤ b.level) (w : Worklists) :
    (testEach dims due boxes w).Records fun log r =>
      Tests dims (boxes.map fun b => ⟨b.subject dims, inferable⟩) w log
        (offspringOf dims r.1.1) r.2 ∧ Keeps level w r.2 ∧ ∀ b ∈ r.1.1, level ≤ b.level := by
  induction boxes generalizing due w with
  | nil =>
    rw [testEach]
    exact ⟨.refl dims [] w, .refl level w, fun b hb => by cases hb⟩
  | cons b rest ih =>
    have hlevel := hb b List.mem_cons_self
    have hrest : ∀ c ∈ rest, level ≤ c.level := fun c hc => hb c (List.mem_cons_of_mem _ hc)
    have himplied : (due && rest.isEmpty) = true → inferable = true := fun h =>
      hi (Bool.and_eq_true_iff.mp h).1
    rw [testEach, List.map_cons]
    split
    next hp =>
      rw [Box.subject, if_pos hp]
      refine records_question_bind fun a => ?_
      have hlater : (due && !a) = true → inferable = true := fun h =>
        hi (Bool.and_eq_true_iff.mp h).1
      cases a with
      | true =>
        refine records_bind (enter_records _ w) ?_
        rintro _ w₁ ⟨sign, rfl, rfl⟩
        refine records_bind (ih hlater hrest _) fun log r h => ?_
        obtain ⟨ht, hk, hl⟩ := h
        exact ⟨by rw [List.append_nil]; exact ht.enter himplied rfl,
          (Keeps.of_boxes_eq rfl level).trans hk, hl⟩
      | false =>
        have hinsert : (pure { w with insignificant := w.insignificant.insert (b.index dims) } :
            Coding Worklists).Records fun log w₁ => log = [] ∧
              w₁ = { w with insignificant := w.insignificant.insert (b.index dims) } := ⟨rfl, rfl⟩
        refine records_bind hinsert ?_
        rintro _ w₁ ⟨rfl, rfl⟩
        refine records_bind (ih hlater hrest _) fun log r h => ?_
        obtain ⟨ht, hk, hl⟩ := h
        exact ⟨by rw [List.append_nil]; exact ht.refuse himplied rfl,
          (Keeps.of_boxes_eq rfl level).trans hk, hl⟩
    next hp =>
      rw [Box.subject, if_neg hp]
      refine records_question_bind fun a => ?_
      cases a with
      | true =>
        have hnone : false = true → inferable = true := fun h => Bool.noConfusion h
        refine records_bind (ih hnone hrest w) fun log r h => ?_
        obtain ⟨ht, hk, hl⟩ := h
        refine ⟨?_, hk, fun c hc => ?_⟩
        · rw [List.append_nil, Found.add, offspringOf_append, offspringOf_singleton]
          exact ((ht.frame _).perm List.perm_append_comm).divide himplied
        · rcases List.mem_append.mp hc with hc | hc
          · exact hl c hc
          · exact List.mem_singleton.mp hc ▸ hlevel
      | false =>
        refine records_bind (ih hi hrest (w.addBox b)) fun log r h => ?_
        obtain ⟨ht, hk, hl⟩ := h
        exact ⟨by rw [List.append_nil]; exact ht.refuse himplied rfl,
          (Keeps.addBox hlevel).trans hk, hl⟩

theorem splitAll_records (stack : List Box) {level : Nat} (hb : ∀ b ∈ stack, level ≤ b.level)
    (w : Worklists) :
    (splitAll dims stack w).Records fun log w' =>
      Tests dims (offspringOf dims stack) w log [] w' ∧ Keeps level w w' := by
  induction stack, w using splitAll.induct with
  | case1 w =>
    rw [splitAll]
    exact ⟨.refl dims [] w, .refl level w⟩
  | case2 b stack w ih =>
    have hparts : ∀ p ∈ b.parts, level ≤ p.level := fun p hp => by
      have hl := hb b List.mem_cons_self
      rw [(mem_parts hp).1]
      omega
    rw [splitAll]
    have hall : true = true → true = true := id
    refine records_bind (testEach_records b.parts hall hparts w) ?_
    rintro log ⟨found, w₁⟩ ⟨ht, hk, hl⟩
    have hstack : ∀ c ∈ found.1 ++ stack, level ≤ c.level := fun c hc => by
      rcases List.mem_append.mp hc with hc | hc
      · exact hl c hc
      · exact hb c (List.mem_cons_of_mem _ hc)
    refine (ih found w₁ hstack).mono fun log' w' h => ⟨?_, hk.trans h.2⟩
    have h' := h.1
    rw [offspringOf_append] at h'
    exact (ht.frame (offspringOf dims stack)).append h'

theorem levelPass_records (boxes : List Box) (kept : Array Box) {level : Nat}
    (hb : ∀ b ∈ boxes, level ≤ b.level) (w : Worklists) :
    (levelPass dims boxes kept w).Records fun log r =>
      Tests dims (waiting boxes) w log [] r.2 ∧ Keeps level w r.2 := by
  induction boxes generalizing kept w with
  | nil => exact ⟨.refl dims [] w, .refl level w⟩
  | cons b rest ih =>
    have hrest : ∀ c ∈ rest, level ≤ c.level := fun c hc => hb c (List.mem_cons_of_mem _ hc)
    rw [levelPass]
    refine records_question_bind fun a => ?_
    cases a with
    | true =>
      have hbox : ∀ c ∈ [b], level ≤ c.level := fun c hc =>
        List.mem_singleton.mp hc ▸ hb b List.mem_cons_self
      refine records_bind (splitAll_records [b] hbox w) fun log w₁ h => ?_
      obtain ⟨ht, hk⟩ := h
      rw [offspringOf_singleton] at ht
      exact (ih kept hrest w₁).mono fun log' r h =>
        ⟨((ht.frame (waiting rest)).append h.1).divide fun h => Bool.noConfusion h,
          hk.trans h.2⟩
    | false =>
      exact (ih (kept.push b) hrest w).mono fun log r h =>
        ⟨h.1.refuse (fun h => Bool.noConfusion h) rfl, h.2⟩

theorem boxPass_records (level : Nat) (w : Worklists)
    (hb : ∀ j < level, ∀ b ∈ (w.boxesAt j).toList, j ≤ b.level) :
    (boxPass dims level w).Records fun log w' =>
      Tests dims (waiting (w.below level)) w log [] w' := by
  induction level generalizing w with
  | zero => exact .refl dims [] w
  | succ level ih =>
    rw [boxPass]
    refine records_bind (levelPass_records _ #[] (hb level (Nat.lt_succ_self level))
      (w.setBoxesAt level #[])) ?_
    rintro log ⟨kept, w₁⟩ ⟨ht, hk⟩
    -- What is split off a level waits at that level or above it, and is not met again.
    have hlow := hk.setBoxesAt (kept ++ w₁.boxesAt level)
    refine (ih _ fun j hj b hb' =>
      hb j (Nat.lt_succ_of_lt hj) b (hlow j hj ▸ hb')).mono fun log' w' h => ?_
    rw [Worklists.below_congr hlow] at h
    have ht : Tests dims (waiting (w.boxesAt level).toList) w log [] w₁ :=
      ⟨ht.explores, ht.significant⟩
    have h : Tests dims (waiting (w.below level)) w₁ log' [] w' := ⟨h.explores, h.significant⟩
    have hdue : (waiting (w.below (level + 1))).Perm
        (waiting (w.boxesAt level).toList ++ waiting (w.below level)) := by
      rw [Worklists.below_succ, waiting, List.map_append]
      exact List.perm_append_comm
    exact ((ht.frame (waiting (w.below level))).append h).perm hdue

theorem shellPass_records (rest : Shell) (w : Worklists) :
    (shellPass dims rest w).Records fun log p => Tests dims rest.due w log [] p.lists := by
  induction rest, w using shellPass.induct dims with
  | case1 rest w he =>
    rw [shellPass, dif_pos he, Shell.due, if_pos he]
    exact .refl dims [] w
  | case2 rest w he ih =>
    rw [shellPass, dif_neg he, Shell.due, if_neg he]
    refine records_question_bind fun a => ?_
    cases a with
    | true =>
      have hnone : false = true → false = true := id
      refine records_bind (testEach_records (rest.peel dims).1 hnone
        (fun b _ => Nat.zero_le b.level) w) ?_
      rintro log ⟨found, w₁⟩ ⟨ht, -, hl⟩
      refine records_bind (splitAll_records found.1 hl w₁) fun log' w₂ hs => ?_
      refine (ih w₂).mono fun log'' p h => ?_
      have hbands := (ht.append hs.1).frame (rest.peel dims).2.due
      rw [← List.append_assoc log]
      refine .divide ?_ fun h => Bool.noConfusion h
      rw [List.append_nil]
      exact hbands.append h
    | false => exact (Tests.refl dims [] w).refuse (fun h => Bool.noConfusion h) rfl

end Passes

/-- What is due before a plane. -/
def Progress.due (p : Progress) : List Due :=
  (p.lists.insignificant.members.map fun i => ⟨.element i, false⟩) ++
    (waiting p.lists.stored ++ p.rest.due)

theorem codePlane_records {dims : Extents} {p : Progress}
    (hb : ∀ j, ∀ b ∈ (p.lists.boxesAt j).toList, j ≤ b.level) :
    (codePlane dims p).Records fun log p' => ∃ refined tests, log = refined ++ tests ∧
      refined.map Prod.fst = p.lists.significant.toList.map .refinement ∧
      Tests dims p.due p.lists tests [] p'.lists := by
  unfold codePlane
  refine Dialogue.records_bind (refinementPass_records _) fun refined _ hr => ?_
  refine Dialogue.records_bind (elementPass_records dims _ p.lists) fun log w h => ?_
  obtain ⟨helements, hboxes⟩ := h
  have hat : ∀ j, w.boxesAt j = p.lists.boxesAt j := fun j => by
    unfold Worklists.boxesAt
    rw [hboxes]
  have hstored : w.below w.boxes.size = p.lists.stored := by
    rw [hboxes]
    exact Worklists.below_congr fun j _ => hat j
  refine Dialogue.records_bind (boxPass_records w.boxes.size w fun j _ b hb' =>
    hb j b (hat j ▸ hb')) fun log' w₁ h => ?_
  rw [hstored] at h
  refine (shellPass_records p.rest w₁).mono fun log'' p' h' => ?_
  exact ⟨refined, log ++ (log' ++ log''), rfl, hr,
    (helements.frame _).append ((h.frame _).append h')⟩

section Pending

variable {dims : Extents} {p : Progress}

theorem duePlaces_elements (dims : Extents) (l : List Nat) :
    duePlaces dims (l.map fun i => ⟨.element i, false⟩) = l := by
  unfold duePlaces
  rw [List.flatMap_map]
  exact List.flatMap_singleton' l

theorem duePlaces_waiting (dims : Extents) (boxes : List Box) :
    duePlaces dims (waiting boxes) = places dims boxes :=
  List.flatMap_map ..

theorem Settled.duePlaces_due (h : Settled dims p) :
    duePlaces dims p.due = p.lists.insignificant.members ++
      (places dims p.lists.stored ++ (Region.shell p.rest).indices dims) := by
  obtain ⟨level, -, hrest⟩ := h.rest
  rw [Progress.due, duePlaces_append, duePlaces_append, duePlaces_elements, duePlaces_waiting,
    hrest, VolumeCodec.duePlaces_due]

theorem Settled.arePending (h : Settled dims p) (hw : p.lists.Within dims) :
    ArePending dims p.due := by
  obtain ⟨level, -, hrest⟩ := h.rest
  refine ⟨fun d hd => ?_, ?_, ?_⟩
  · rcases List.mem_append.mp hd with hd | hd
    · obtain ⟨i, -, rfl⟩ := List.mem_map.mp hd
      trivial
    · rcases List.mem_append.mp hd with hd | hd
      · obtain ⟨b, hb, rfl⟩ := List.mem_map.mp hd
        obtain ⟨j, hb⟩ := Worklists.mem_stored hb
        exact ⟨(h.stored j b hb).isPixel, (h.stored j b hb).isEmpty, hw j b hb⟩
      · rw [hrest] at hd
        exact Subject.isWhole_due hd
  · rw [h.duePlaces_due]
    exact h.disjoint.2.1
  · have hshell : p.rest.due.length ≤ 1 := by
      unfold Shell.due
      split <;> simp
    rw [Progress.due, waiting, List.countP_append, List.countP_append,
      Subject.countP_isShell_map _ fun _ _ => rfl, Subject.countP_isShell_map _ fun _ _ => rfl,
      Nat.zero_add, Nat.zero_add]
    exact Nat.le_trans List.countP_le_length hshell

theorem inferable_of_mem_due {d : Due} (hd : d ∈ p.due) : d.inferable = false := by
  rcases List.mem_append.mp hd with hd | hd
  · obtain ⟨i, -, rfl⟩ := List.mem_map.mp hd
    rfl
  · rcases List.mem_append.mp hd with hd | hd
    · obtain ⟨b, -, rfl⟩ := List.mem_map.mp hd
      rfl
    · unfold Shell.due at hd
      split at hd
      next => cases hd
      next => rw [List.mem_singleton.mp hd]

end Pending

/-- In the exchanges on a plane, which leads from one progress to another, everything that is
pending is tested exactly once. -/
structure IsTestedOnce (dims : Extents) (p p' : Progress) (log : List (Query × Bool)) : Prop where
  /-- An element that was significant is refined once, and nothing else is asked about it. -/
  refined : ∀ i ∈ p.lists.significant.toList,
    ((log.map Prod.fst).filter fun q => decide (i ∈ q.indices dims)) = [.refinement i]
  /-- Each insignificant element, each box that waits and the shell is decided once, by a bit. -/
  due : ∀ d ∈ p.due, decisions log d.subject = [false]
  /-- What comes off a significant region is decided once, by a bit or by inference. -/
  offspring : ∀ x implied, (Query.significance x implied, true) ∈ log →
    ∀ d ∈ x.offspring dims, ∃ implied, decisions log d.subject = [implied] ∧
      (implied = true → d.inferable = true)
  /-- Nothing else is decided. -/
  origin : ∀ x, decisions log x ≠ [] → (∃ d ∈ p.due, d.subject = x) ∨
    ∃ y implied, (Query.significance y implied, true) ∈ log ∧
      ∃ d ∈ y.offspring dims, d.subject = x
  /-- The elements that are found significant are listed with the others. -/
  significant : ∀ i, i ∈ p'.lists.significant.toList ↔ i ∈ p.lists.significant.toList ∨
    ∃ implied, (Query.significance (.element i) implied, true) ∈ log
  /-- Each of them gets one sign and no refinement. -/
  signed : ∀ i ∈ p'.lists.significant.toList, i ∉ p.lists.significant.toList →
    (log.map Prod.fst).count (.sign i) = 1 ∧ .refinement i ∉ log.map Prod.fst

section Refinements

variable {refined tests : List (Query × Bool)} {l : List Nat}

theorem mem_refinements (h : refined.map Prod.fst = l.map .refinement) {e : Query × Bool}
    (he : e ∈ refined) : ∃ i ∈ l, e.1 = .refinement i := by
  have hm := List.mem_map_of_mem (f := Prod.fst) he
  rw [h] at hm
  obtain ⟨i, hi, hq⟩ := List.mem_map.mp hm
  exact ⟨i, hi, hq.symm⟩

theorem filterMap_refinements {β : Type} (h : refined.map Prod.fst = l.map .refinement)
    {f : Query → Option β} (hf : ∀ i, f (.refinement i) = none) :
    (refined ++ tests).filterMap (fun e => f e.1) = tests.filterMap fun e => f e.1 := by
  have hnone : refined.filterMap (fun e => f e.1) = [] := by
    refine List.filterMap_eq_nil_iff.mpr fun e he => ?_
    obtain ⟨i, -, hq⟩ := mem_refinements h he
    rw [hq, hf]
  rw [List.filterMap_append, hnone, List.nil_append]

theorem decisions_refinements (h : refined.map Prod.fst = l.map .refinement) (x : Subject) :
    decisions (refined ++ tests) x = decisions tests x :=
  filterMap_refinements (f := fun q => q.decision? x) h fun _ => rfl

theorem signed_refinements (h : refined.map Prod.fst = l.map .refinement) :
    signed (refined ++ tests) = signed tests :=
  filterMap_refinements (f := Query.signed?) h fun _ => rfl

theorem mem_refinements_append (h : refined.map Prod.fst = l.map .refinement) {x : Subject}
    {implied b : Bool} :
    (Query.significance x implied, b) ∈ refined ++ tests ↔
      (Query.significance x implied, b) ∈ tests := by
  refine ⟨fun hm => ?_, List.mem_append_right _⟩
  rcases List.mem_append.mp hm with hm | hm
  · obtain ⟨i, -, hq⟩ := mem_refinements h hm
    cases hq
  · exact hm

theorem filter_refinements (dims : Extents) (h : refined.map Prod.fst = l.map .refinement)
    (hl : l.Nodup) {i : Nat} (hi : i ∈ l) :
    ((refined.map Prod.fst).filter fun q => decide (i ∈ q.indices dims)) = [.refinement i] := by
  have hq : ((fun q : Query => decide (i ∈ q.indices dims)) ∘ Query.refinement) =
      fun j => j == i := by
    funext j
    simp [Query.indices, Bool.beq_eq_decide_eq, eq_comm]
  rw [h, List.filter_map, hq, List.filter_beq, List.count_eq_one_of_mem hl hi]
  rfl

end Refinements

/-- One plane tests everything that is pending once, whatever the answers are. -/
theorem codePlane_testedOnce {dims : Extents} {p : Progress} (h : Settled dims p)
    (hw : p.lists.Within dims) :
    (codePlane dims p).Records fun log p' => IsTestedOnce dims p p' log := by
  have hpend := h.arePending hw
  obtain ⟨hold, -, hdisj⟩ := h.disjoint
  rw [← h.duePlaces_due] at hdisj
  have hlevel : ∀ j, ∀ b ∈ (p.lists.boxesAt j).toList, j ≤ b.level := fun j b hb =>
    Nat.le_of_eq (h.stored j b hb).level.symm
  refine (codePlane_records hlevel).mono fun log p' hlog => ?_
  obtain ⟨refined, tests, rfl, hr, hexplores, hsig⟩ := hlog
  have hplaces := hexplores.places_of_mem hpend
  have hsigned := hexplores.nodup_signed hpend
  have hsignificant : ∀ x implied, (Query.significance x implied, true) ∈ refined ++ tests ↔
      (Query.significance x implied, true) ∈ tests := fun x implied => mem_refinements_append hr
  refine ⟨fun i hi => ?_, fun d hd => ?_, fun x implied hx d hd => ?_, fun x hx => ?_, fun i => ?_,
    fun i hi hn => ⟨?_, fun hm => ?_⟩⟩
  · have hnone : ((tests.map Prod.fst).filter fun q => decide (i ∈ q.indices dims)) = [] := by
      refine List.filter_eq_nil_iff.mpr fun q hq => ?_
      obtain ⟨e, he, rfl⟩ := List.mem_map.mp hq
      rw [decide_eq_true_iff]
      exact fun hm => hdisj i hi ((hplaces e he).1 i hm)
    rw [List.map_append, List.filter_append, filter_refinements dims hr hold hi, hnone,
      List.append_nil]
  · obtain ⟨implied, hd', hi⟩ := hexplores.decisions_of_due rfl hpend d hd
    rw [inferable_of_mem_due hd] at hi
    rw [decisions_refinements hr, hd', Bool.eq_false_iff.mpr fun h => Bool.noConfusion (hi h)]
  · rw [decisions_refinements hr]
    exact hexplores.decisions_of_offspring rfl hpend ((hsignificant x implied).mp hx) d hd
  · rw [decisions_refinements hr] at hx
    simp only [hsignificant]
    exact hexplores.origin hx
  · simp only [hsignificant]
    rw [hsig, List.mem_append, hexplores.mem_signed]
  · have hfound : i ∈ signed tests := by
      rw [hsig] at hi
      exact (List.mem_append.mp hi).resolve_left hn
    rw [count_sign, signed_refinements hr]
    exact List.count_eq_one_of_mem hsigned hfound
  · obtain ⟨e, he, hq⟩ := List.mem_map.mp hm
    rcases List.mem_append.mp he with he | he
    · obtain ⟨j, hj, hq'⟩ := mem_refinements hr he
      rw [hq'] at hq
      exact hn (Query.refinement.inj hq ▸ hj)
    · exact (hplaces e he).2 i hq

section Runs

variable {α : Type} [Magnitude α] {dims : Extents}

theorem testedOnce_of_planes {σ : Type} {reply : Int → σ → Query → Reply σ} {lowest plane : Int}
    {count : Nat} {p p' : Progress} {s₀ s s' : σ} (hd : dims.validate = .ok ())
    (himplied : ∀ {plane s subject b t},
      reply plane s (.significance subject true) = .answer b t → b = true)
    (h : conductPlanes dims reply lowest count (Progress.initial dims) s₀ = (some p, s))
    (hc : (codePlane dims p).conduct (reply plane) s = (some p', s')) :
    IsTestedOnce dims p p' ((codePlane dims p).exchanges (reply plane) s) :=
  (codePlane_testedOnce (conductPlanes_settled hd himplied h)
    (conductPlanes_within (.initial dims) h)).of_conduct hc

/-- In a run of an encoder or a decoder, on each plane that is completed: what was significant
before the plane is refined once, everything else that was pending is tested once, by a bit, what
comes off a region is tested once, by a bit or by inference, and what is found significant gets one
sign. The bits of the plane are the answers that are not implied, in their order. -/
theorem planes_tested_once (hd : dims.validate = .ok ()) :
    (∀ {κ : Type} (signs : Array Bool) (limit : BitLimit) (goal : Goal α κ)
      (magnitudes : Array α) (highest plane : Int) (p p' : Progress) (s s' : Encoder.State α κ),
      Encoder.run ⟨dims, signs, limit, goal⟩ highest (plane + 1) magnitudes = (some p, s) →
      (codePlane dims p).conduct (Encoder.reply ⟨dims, signs, limit, goal⟩ plane) s =
        (some p', s') →
      ∃ log, log =
          (codePlane dims p).exchanges (Encoder.reply ⟨dims, signs, limit, goal⟩ plane) s ∧
        IsTestedOnce dims p p' log ∧ s'.bits.reverse = s.bits.reverse ++ codedAnswers log) ∧
    ∀ (limit : Nat) (highest plane : Int) (tape : Tape) (p p' : Progress)
      (s s' : Decoder.State α),
      Decoder.runTo α dims limit highest (plane + 1) (tape.seekRead 0) = (some p, s) →
      (codePlane dims p).conduct (Decoder.reply limit plane) s = (some p', s') →
      ∃ log, log = (codePlane dims p).exchanges (Decoder.reply limit plane) s ∧
        IsTestedOnce dims p p' log ∧ (tape.seekRead 0).ahead s'.bitCount =
          (tape.seekRead 0).ahead s.bitCount ++ codedAnswers log := by
  refine ⟨fun signs limit goal magnitudes highest plane p p' s s' h hc =>
    ⟨_, rfl, ?_, Encoder.bits_of_conduct hc⟩,
    fun limit highest plane tape p p' s s' h hc => ⟨_, rfl, ?_, ?_⟩⟩
  · unfold Encoder.run at h
    dsimp only at h
    split at h
    next => cases h
    next => exact testedOnce_of_planes hd Encoder.reply_implied h hc
  · exact testedOnce_of_planes hd Decoder.reply_implied h hc
  · have hstart : (Decoder.State.initial α dims (tape.seekRead 0)).Reads (tape.seekRead 0) :=
      .initial (Tape.isFresh_seekRead tape 0)
    exact (Decoder.bits_of_conduct (Decoder.reads_of_planes hstart h) hc).2

/-- The exchanges on the plane after those of a run, if the run and the plane are completed. -/
def planeLog {σ : Type} (dims : Extents) (reply : σ → Query → Reply σ) :
    Option Progress × σ → Option (List (Query × Bool))
  | (none, _) => none
  | (some p, s) =>
    ((codePlane dims p).conduct reply s).1.map fun _ => (codePlane dims p).exchanges reply s

theorem exists_of_planeLog {σ : Type} {reply : σ → Query → Reply σ} {run : Option Progress × σ}
    {log : List (Query × Bool)} (h : planeLog dims reply run = some log) :
    ∃ p s p' s', run = (some p, s) ∧ (codePlane dims p).conduct reply s = (some p', s') ∧
      (codePlane dims p).exchanges reply s = log := by
  rcases run with ⟨_ | p, s⟩
  · cases h
  · obtain ⟨p', hp, hlog⟩ := Option.map_eq_some_iff.mp h
    exact ⟨p, s, p', _, rfl, Prod.ext hp rfl, hlog⟩

/-- The case of two bytes, in the lower of two planes: the second byte, found significant before by
inference, is refined, and the first one is tested and entered. -/
theorem planes_tested_once_pair : (Axes.row 2).validate = .ok () ∧
    (∃ p s p' s', Encoder.run (⟨Axes.row 2, #[true, false], none, .never⟩ :
          Encoder.Task (BitVec 8) Unit) 2 (1 + 1) #[2#8, 5#8] = (some p, s) ∧
        (codePlane (Axes.row 2) p).conduct
          (Encoder.reply ⟨Axes.row 2, #[true, false], none, .never⟩ 1) s = (some p', s') ∧
        IsTestedOnce (Axes.row 2) p p' [(.refinement 1, false),
          (.significance (.element 0) false, true), (.sign 0, true)] ∧
        s'.bits.reverse = s.bits.reverse ++ [false, true, true]) ∧
    ∃ p s p' s', Decoder.runTo (BitVec 8) (Axes.row 2) 20 2 (1 + 1)
          ((Tape.ofBits [49] 8).seekRead 0) = (some p, s) ∧
        (codePlane (Axes.row 2) p).conduct (Decoder.reply 20 1) s = (some p', s') ∧
        IsTestedOnce (Axes.row 2) p p' [(.refinement 1, false),
          (.significance (.element 0) false, true), (.sign 0, true)] ∧
        ((Tape.ofBits [49] 8).seekRead 0).ahead s'.bitCount =
          ((Tape.ofBits [49] 8).seekRead 0).ahead s.bitCount ++ [false, true, true] := by
  have hd : (Axes.row 2).validate = .ok () := rfl
  obtain ⟨hencoder, hdecoder⟩ := planes_tested_once (α := BitVec 8) hd
  have hwritten : planeLog (Axes.row 2)
      (Encoder.reply (⟨Axes.row 2, #[true, false], none, .never⟩ : Encoder.Task (BitVec 8) Unit) 1)
      (Encoder.run ⟨Axes.row 2, #[true, false], none, .never⟩ 2 (1 + 1) #[2#8, 5#8]) =
        some [(.refinement 1, false), (.significance (.element 0) false, true),
          (.sign 0, true)] := by decide +kernel
  have hread : planeLog (Axes.row 2) (Decoder.reply 20 1)
      (Decoder.runTo (BitVec 8) (Axes.row 2) 20 2 (1 + 1) ((Tape.ofBits [49] 8).seekRead 0)) =
        some [(.refinement 1, false), (.significance (.element 0) false, true),
          (.sign 0, true)] := by decide +kernel
  refine ⟨hd, ?_, ?_⟩
  · obtain ⟨p, s, p', s', hrun, hplane, hlog⟩ := exists_of_planeLog hwritten
    obtain ⟨log, rfl, htested, hbits⟩ := hencoder _ _ _ _ _ _ p p' s s' hrun hplane
    rw [hlog] at htested hbits
    exact ⟨p, s, p', s', hrun, hplane, htested, hbits⟩
  · obtain ⟨p, s, p', s', hrun, hplane, hlog⟩ := exists_of_planeLog hread
    obtain ⟨log, rfl, htested, hbits⟩ := hdecoder 20 2 1 _ p p' s s' hrun hplane
    rw [hlog] at htested hbits
    exact ⟨p, s, p', s', hrun, hplane, htested, hbits⟩

end Runs

end VolumeCodec
