import VolumeCodec.Proofs.PlaneRule

namespace VolumeCodec

variable {σ : Type} {dims : Extents} {reply : σ → Query → Reply σ} {k : Insight}
  {I : Nat → (Nat → Phase) → σ → Prop} {H : σ → Prop}

/-- In some phases of the elements the worklists are sorted and the invariant of a respondent
holds. -/
def Kept (dims : Extents) (I : Nat → (Nat → Phase) → σ → Prop) (c : Nat) (w : Worklists)
    (outside untested : List Nat) (s : σ) : Prop :=
  ∃ ph, Sorted dims ph w outside untested ∧ I c ph s

section Passes

variable {c level : Nat} {w : Worklists} {outside untested : List Nat} {s : σ}

theorem Kept.spend (R : PlaneRule dims reply k I H) {c' : Nat}
    (h : Kept dims I c w outside untested s) (hc : c' ≤ c) :
    Kept dims I c' w outside untested s := by
  obtain ⟨ph, hs, hI⟩ := h
  exact ⟨ph, hs, R.spend hI hc⟩

theorem Kept.perm {outside' untested' : List Nat} (h : Kept dims I c w outside untested s)
    (ho : outside'.Perm outside) (hu : untested'.Perm untested) :
    Kept dims I c w outside' untested' s := by
  obtain ⟨ph, hs, hI⟩ := h
  exact ⟨ph, hs.perm ho hu, hI⟩

theorem settle_ensures (R : PlaneRule dims reply k I H) {subject : Subject} {implied : Bool}
    {l : List Nat} (hl : subject.indices dims = l)
    (h : Kept dims I (c + 1) w outside (l ++ untested) s) (hlt : ∀ i ∈ l, i < dims.volume)
    (hf : implied = true → k.Finds l) :
    (settle subject implied).Ensures reply s
      (fun a t => (implied = true → a = true) ∧
        (a = true → k.Finds l ∧ Kept dims I c w outside (l ++ untested) t) ∧
        (a = false → k.Excludes l ∧ Kept dims I c w outside untested t)) H := by
  obtain ⟨ph, hs, hI⟩ := h
  subst hl
  have hw : ∀ i ∈ subject.indices dims, i < dims.volume ∧ ph i = .waiting := fun i hi =>
    ⟨hlt i hi, hs.waiting i (List.mem_append_left _ hi)⟩
  apply (Dialogue.ensures_question (R.test hI hw hf)).mono
  intro a t h
  obtain ⟨himp, hyes, hno⟩ := h
  refine ⟨himp, fun ha => ?_, fun ha => ?_⟩
  · obtain ⟨hfinds, hI'⟩ := hyes ha
    exact ⟨hfinds, ph, hs, hI'⟩
  · obtain ⟨hex, hI'⟩ := hno ha
    exact ⟨hex, _, hs.chill, hI'⟩

theorem enter_ensures (R : PlaneRule dims reply k I H) {i : Nat}
    (h : Kept dims I (c + 1) w (i :: outside) (i :: untested) s) (hf : k.Finds [i]) :
    (enter i w).Ensures reply s
      (fun w' t => Kept dims I c w' outside untested t ∧
        w' = { w with significant := w.significant.push i }) H := by
  obtain ⟨ph, hs, hI⟩ := h
  have hlt := hs.lt_of_outside (i := i) (by simp)
  have hw := hs.waiting i (by simp)
  refine Dialogue.ensures_bind ((Dialogue.ensures_question (R.sign hI hlt hw hf)).mono ?_)
  exact fun a t hI' => Dialogue.ensures_pure ⟨⟨_, hs.enter, hI'⟩, rfl⟩

/-- What is known of a box that was found significant. -/
structure IsFound (k : Insight) (dims : Extents) (level : Nat) (b : Box) : Prop where
  isPixel : b.isPixel = false
  isEmpty : b.isEmpty = false
  level_le : level ≤ b.level
  finds : k.Finds ((Region.box b).indices dims)

theorem Keeps.of_boxes_eq {w w' : Worklists} (h : w'.boxes = w.boxes) (level : Nat) :
    Keeps level w w' := fun j _ => by
  unfold Worklists.boxesAt
  rw [h]

theorem testEach_ensures (R : PlaneRule dims reply k I H) (boxes : List Box) {due : Bool}
    (h : Kept dims I (c + testFee boxes) w (places dims boxes ++ outside)
      (places dims boxes ++ untested) s)
    (hb : ∀ b ∈ boxes, b.isEmpty = false ∧ level ≤ b.level)
    (hdue : due = true → boxes ≠ [] → k.Finds (places dims boxes)) :
    (testEach dims due boxes w).Ensures reply s
      (fun r t => Kept dims I (c + splitFee r.1.1) r.2 (places dims r.1.1 ++ outside)
          (places dims r.1.1 ++ untested) t ∧
        Keeps level w r.2 ∧ ∀ b ∈ r.1.1, IsFound k dims level b) H := by
  induction boxes generalizing due w c outside untested s with
  | nil =>
    rw [testEach]
    exact Dialogue.ensures_pure ⟨h, .refl _ _, fun b hb => by cases hb⟩
  | cons b rest ih =>
    obtain ⟨hne, hlevel⟩ := hb b (by simp)
    have hrest : ∀ b ∈ rest, b.isEmpty = false ∧ level ≤ b.level := fun b hm => hb b (by simp [hm])
    have hvol := volume_pos hne
    have hlt : ∀ i ∈ (Region.box b).indices dims, i < dims.volume := by
      obtain ⟨ph, hs, -⟩ := h
      exact fun i hi => hs.lt_of_outside (by simp [hi])
    have himplied : (due && rest.isEmpty) = true → k.Finds ((Region.box b).indices dims) := by
      intro hi
      rw [Bool.and_eq_true, List.isEmpty_iff] at hi
      have hf := hdue hi.1 (by simp)
      rw [hi.2, places_cons, places_nil, List.append_nil] at hf
      exact hf
    have hlater : k.Excludes ((Region.box b).indices dims) → due = true → rest ≠ [] →
        k.Finds (places dims rest) := fun hex hd _ => (hdue hd (by simp)).rest hex
    rw [testFee_cons] at h
    rw [places_cons, List.append_assoc, List.append_assoc] at h
    rw [testEach]
    split
    next hp =>
      have hi := indices_of_isPixel hp dims
      have h' : Kept dims I (c + testFee rest + 1 + 1) w
          ([b.index dims] ++ (places dims rest ++ outside))
          ([b.index dims] ++ (places dims rest ++ untested)) s := by
        rw [← hi]
        exact h.spend R (by omega)
      rw [hi] at hlt himplied hlater
      refine Dialogue.ensures_bind
        ((settle_ensures R (l := [b.index dims]) rfl h' hlt himplied).mono ?_)
      intro a t h
      obtain ⟨-, hyes, hno⟩ := h
      cases a with
      | true =>
        obtain ⟨hf, hk⟩ := hyes rfl
        refine Dialogue.ensures_bind ((enter_ensures R hk hf).mono ?_)
        intro w' t' h
        obtain ⟨hk', hw'⟩ := h
        refine Dialogue.ensures_bind ((ih hk' hrest fun hd => ?_).mono ?_)
        · simp at hd
        · intro r u hr
          obtain ⟨found, w''⟩ := r
          obtain ⟨hk'', hkeep, hfound⟩ := hr
          exact Dialogue.ensures_pure
            ⟨hk'', (Keeps.of_boxes_eq (by rw [hw']) level).trans hkeep, hfound⟩
      | false =>
        obtain ⟨hex, ph, hs, hI⟩ := hno rfl
        refine Dialogue.ensures_bind (Dialogue.ensures_pure ?_)
        have hk' : Kept dims I (c + testFee rest)
            { w with insignificant := w.insignificant.insert (b.index dims) }
            (places dims rest ++ outside) (places dims rest ++ untested) t :=
          ⟨ph, hs.insert, R.spend hI (by omega)⟩
        refine Dialogue.ensures_bind ((ih hk' hrest fun hd => ?_).mono ?_)
        · exact hlater hex (by simpa using hd)
        · intro r u hr
          obtain ⟨found, w''⟩ := r
          obtain ⟨hk'', hkeep, hfound⟩ := hr
          exact Dialogue.ensures_pure ⟨hk'', (Keeps.of_boxes_eq rfl level).trans hkeep, hfound⟩
    next hp =>
      have hp' : b.isPixel = false := by simpa using hp
      have h' : Kept dims I (c + (4 * b.extent.volume - 2) + testFee rest + 1) w
          ((Region.box b).indices dims ++ (places dims rest ++ outside))
          ((Region.box b).indices dims ++ (places dims rest ++ untested)) s :=
        h.spend R (by omega)
      refine Dialogue.ensures_bind
        ((settle_ensures R (l := (Region.box b).indices dims) rfl h' hlt himplied).mono ?_)
      intro a t h
      obtain ⟨-, hyes, hno⟩ := h
      cases a with
      | true =>
        obtain ⟨hf, hk⟩ := hyes rfl
        have hk' := hk.perm (List.perm_append_comm_assoc (places dims rest) _ outside)
          (List.perm_append_comm_assoc (places dims rest) _ untested)
        refine Dialogue.ensures_bind ((ih hk' hrest fun hd => by cases hd).mono ?_)
        intro r u hr
        obtain ⟨found, w''⟩ := r
        obtain ⟨hk'', hkeep, hfound⟩ := hr
        refine Dialogue.ensures_pure ⟨?_, hkeep, fun b' hb' => ?_⟩
        · simp only [Found.add, places_append, places_cons, places_nil, List.append_nil,
            List.append_assoc]
          apply hk''.spend R
          simp [splitFee]
          omega
        · rcases List.mem_append.mp hb' with hb' | hb'
          · exact hfound b' hb'
          · rw [List.mem_singleton] at hb'
            exact hb' ▸ ⟨hp', hne, hlevel, hf⟩
      | false =>
        obtain ⟨hex, ph, hs, hI⟩ := hno rfl
        have hk' : Kept dims I (c + testFee rest) (w.addBox b) (places dims rest ++ outside)
            (places dims rest ++ untested) t :=
          ⟨_, hs.addBox ⟨rfl, hp', hne⟩, R.spend hI (by omega)⟩
        refine Dialogue.ensures_bind ((ih hk' hrest (hlater hex)).mono ?_)
        intro r u hr
        obtain ⟨found, w''⟩ := r
        obtain ⟨hk'', hkeep, hfound⟩ := hr
        exact Dialogue.ensures_pure ⟨hk'', (Keeps.addBox hlevel).trans hkeep, hfound⟩

theorem splitAll_ensures (R : PlaneRule dims reply k I H) (stack : List Box)
    (h : Kept dims I (c + splitFee stack) w (places dims stack ++ outside)
      (places dims stack ++ untested) s)
    (hb : ∀ b ∈ stack, IsFound k dims level b) :
    (splitAll dims stack w).Ensures reply s
      (fun w' t => Kept dims I c w' outside untested t ∧ Keeps level w w') H := by
  induction stack, w using splitAll.induct generalizing s with
  | case1 w =>
    rw [splitAll]
    exact Dialogue.ensures_pure ⟨h, .refl _ _⟩
  | case2 b stack w ih =>
    have hfound := hb b (by simp)
    have hparts := places_parts dims b
    have hfee := testFee_parts hfound.isPixel hfound.isEmpty
    rw [splitFee_cons, places_cons, List.append_assoc, List.append_assoc] at h
    have h' : Kept dims I (c + splitFee stack + testFee b.parts) w
        (places dims b.parts ++ (places dims stack ++ outside))
        (places dims b.parts ++ (places dims stack ++ untested)) s :=
      (h.perm (hparts.append_right _) (hparts.append_right _)).spend R (by omega)
    have hlevel : ∀ p ∈ b.parts, p.isEmpty = false ∧ level ≤ p.level := by
      intro p hp
      obtain ⟨hl, he⟩ := mem_parts hp
      have := hfound.level_le
      exact ⟨he, by omega⟩
    rw [splitAll]
    refine Dialogue.ensures_bind
      ((testEach_ensures R b.parts h' hlevel fun _ _ => hfound.finds.perm hparts.symm).mono ?_)
    intro r t hr
    obtain ⟨found, w'⟩ := r
    obtain ⟨hk, hkeep, hnew⟩ := hr
    have hk' : Kept dims I (c + splitFee (found.1 ++ stack)) w'
        (places dims (found.1 ++ stack) ++ outside) (places dims (found.1 ++ stack) ++ untested)
        t := by
      rw [places_append, splitFee_append, List.append_assoc, List.append_assoc]
      exact hk.spend R (by dsimp only; omega)
    have hall : ∀ b' ∈ found.1 ++ stack, IsFound k dims level b' := by
      intro b' hb'
      rcases List.mem_append.mp hb' with hb' | hb'
      · exact hnew b' hb'
      · exact hb b' (by simp [hb'])
    apply (ih found w' hk' hall).mono
    intro w'' u h
    obtain ⟨hk'', hkeep'⟩ := h
    exact ⟨hk'', hkeep.trans hkeep'⟩

theorem levelPass_ensures (R : PlaneRule dims reply k I H) (boxes : List Box) {kept : Array Box}
    (h : Kept dims I (c + testFee boxes) w
      (places dims boxes ++ (places dims kept.toList ++ outside))
      (places dims boxes ++ untested) s)
    (hb : ∀ b ∈ boxes, b.WaitsAt level) (hkept : ∀ b ∈ kept.toList, b.WaitsAt level) :
    (levelPass dims boxes kept w).Ensures reply s
      (fun r t => Kept dims I c r.2 (places dims r.1.toList ++ outside) untested t ∧
        Keeps level w r.2 ∧ ∀ b ∈ r.1.toList, b.WaitsAt level) H := by
  induction boxes generalizing kept w s with
  | nil =>
    rw [levelPass]
    exact Dialogue.ensures_pure ⟨h, .refl _ _, hkept⟩
  | cons b rest ih =>
    have hwait := hb b (by simp)
    have hrest : ∀ b ∈ rest, b.WaitsAt level := fun b hm => hb b (by simp [hm])
    have hvol := volume_pos hwait.isEmpty
    have hlt : ∀ i ∈ (Region.box b).indices dims, i < dims.volume := by
      obtain ⟨ph, hs, -⟩ := h
      exact fun i hi => hs.lt_of_outside (by simp [hi])
    rw [testFee_cons, places_cons, List.append_assoc, List.append_assoc] at h
    have h' : Kept dims I (c + testFee rest + (4 * b.extent.volume - 2) + 1) w
        ((Region.box b).indices dims ++
          (places dims rest ++ (places dims kept.toList ++ outside)))
        ((Region.box b).indices dims ++ (places dims rest ++ untested)) s :=
      h.spend R (by omega)
    rw [levelPass]
    refine Dialogue.ensures_bind ((settle_ensures R (l := (Region.box b).indices dims) rfl h' hlt
      fun hi => by cases hi).mono ?_)
    intro a t h
    obtain ⟨-, hyes, hno⟩ := h
    cases a with
    | true =>
      obtain ⟨hf, hk⟩ := hyes rfl
      have hk' : Kept dims I (c + testFee rest + splitFee [b]) w
          (places dims [b] ++ (places dims rest ++ (places dims kept.toList ++ outside)))
          (places dims [b] ++ (places dims rest ++ untested)) t := by
        simpa [splitFee] using hk
      have hfound : ∀ b' ∈ [b], IsFound k dims level b' := by
        intro b' hb'
        rw [List.mem_singleton] at hb'
        exact hb' ▸ ⟨hwait.isPixel, hwait.isEmpty, Nat.le_of_eq hwait.level.symm, hf⟩
      refine Dialogue.ensures_bind ((splitAll_ensures R [b] hk' hfound).mono ?_)
      intro w' t' h
      obtain ⟨hk'', hkeep⟩ := h
      apply (ih hk'' hrest hkept).mono
      intro r u h
      obtain ⟨hr, hkeep', hr'⟩ := h
      exact ⟨hr, hkeep.trans hkeep', hr'⟩
    | false =>
      obtain ⟨-, hk⟩ := hno rfl
      refine ih ((hk.perm ?_ (.refl _)).spend R (by omega)) hrest fun b' hb' => ?_
      · rw [Array.toList_push, places_append, places_cons, places_nil, List.append_nil,
          List.append_assoc]
        refine (List.perm_iff_count.mpr fun i => ?_)
        simp only [List.count_append]
        omega
      · rw [Array.toList_push, List.mem_append, List.mem_singleton] at hb'
        rcases hb' with hb' | rfl
        · exact hkept b' hb'
        · exact hwait

/-- Every level below a bound is tested, and what waits at it afterwards is cold. -/
theorem boxPass_ensures (R : PlaneRule dims reply k I H) (level : Nat)
    (h : Kept dims I (c + testFee (w.below level)) w outside
      (places dims (w.below level) ++ untested) s) :
    (boxPass dims level w).Ensures reply s (fun w' t => Kept dims I c w' outside untested t) H := by
  induction level generalizing w s with
  | zero =>
    rw [boxPass]
    exact Dialogue.ensures_pure h
  | succ level ih =>
    obtain ⟨ph, hs, hI⟩ := h
    have hwaits := hs.stored level
    have htaken : Sorted dims ph (w.setBoxesAt level #[])
        (places dims (w.boxesAt level).toList ++ (places dims (#[] : Array Box).toList ++ outside))
        (places dims (w.below (level + 1)) ++ untested) :=
      hs.exchange level #[] rfl rfl (w.boxesAt_setBoxesAt level #[])
          (fun b hb => by cases hb) (.refl _)
    have hout := htaken.perm (.refl _)
      (List.perm_append_comm_assoc (places dims (w.boxesAt level).toList)
        (places dims (w.below level)) untested |>.trans (.of_eq (by
          rw [Worklists.below_succ, places_append, List.append_assoc])))
    rw [Worklists.below_succ, testFee_append, ← Nat.add_assoc] at hI
    rw [boxPass]
    refine Dialogue.ensures_bind ((levelPass_ensures R (w.boxesAt level).toList ⟨ph, hout, hI⟩
      hwaits fun b hb => by cases hb).mono ?_)
    intro r t hr
    obtain ⟨kept, w'⟩ := r
    obtain ⟨⟨ph', hs', hI'⟩, hkeep, hkept⟩ := hr
    have hback : Sorted dims ph' (w'.setBoxesAt level (kept ++ w'.boxesAt level)) outside
        (places dims (w.below level) ++ untested) := by
      refine hs'.exchange level _ rfl rfl (w'.boxesAt_setBoxesAt level _) (fun b hb => ?_) ?_
      · rw [Array.toList_append, List.mem_append] at hb
        rcases hb with hb | hb
        · exact hkept b hb
        · exact hs'.stored level b hb
      · rw [Array.toList_append, places_append, List.append_assoc]
        exact List.perm_append_comm_assoc _ _ _
    have hbelow : (w'.setBoxesAt level (kept ++ w'.boxesAt level)).below level = w.below level :=
      Worklists.below_congr (hkeep.setBoxesAt _)
    refine ih ⟨ph', ?_, ?_⟩
    · rw [hbelow]
      exact hback
    · rw [hbelow]
      exact hI'

end Passes

end VolumeCodec
