import VolumeCodec.Proofs.Passes

namespace VolumeCodec

variable {σ : Type} {dims : Extents} {reply : σ → Query → Reply σ} {k : Insight}
  {I : Nat → (Nat → Phase) → σ → Prop} {H : σ → Prop}

section Passes

variable {c : Nat} {w : Worklists} {outside untested : List Nat} {s : σ}

theorem refinementPass_ensures (R : PlaneRule dims reply k I H) (l : List Nat) {ph : Nat → Phase}
    (hI : I (c + l.length) ph s) (hl : l.Nodup) (hold : ∀ i ∈ l, i < dims.volume ∧ ph i = .old) :
    (refinementPass l).Ensures reply s (fun _ t => I c (mark ph l .done) t) H := by
  induction l generalizing ph s with
  | nil =>
    rw [refinementPass]
    exact Dialogue.ensures_pure hI
  | cons i rest ih =>
    obtain ⟨hi, hrest⟩ := List.nodup_cons.mp hl
    obtain ⟨hlt, hph⟩ := hold i (by simp)
    rw [refinementPass]
    refine Dialogue.ensures_bind ((Dialogue.ensures_question (R.refine hI hlt hph)).mono ?_)
    intro a t ht
    have hmark : mark (mark ph [i] .done) rest .done = mark ph (i :: rest) .done := by
      funext j
      simp only [mark, List.mem_cons, List.not_mem_nil, or_false]
      grind
    rw [← hmark]
    apply ih ht hrest
    intro j hj
    have hne : j ∉ [i] := fun hm => hi (by rw [List.mem_singleton] at hm; exact hm ▸ hj)
    rw [mark_of_not_mem hne]
    exact hold j (by simp [hj])

theorem elementPass_ensures (R : PlaneRule dims reply k I H) (l : List Nat)
    (h : Kept dims I (c + 2 * l.length) w outside (l ++ untested) s)
    (hl : ∀ i ∈ l, i ∈ w.insignificant.members) :
    (elementPass l w).Ensures reply s
      (fun w' t => Kept dims I c w' outside untested t ∧ w'.boxes = w.boxes) H := by
  induction l generalizing w s with
  | nil =>
    rw [elementPass]
    exact Dialogue.ensures_pure ⟨h, rfl⟩
  | cons i rest ih =>
    have hi := hl i (by simp)
    have hrest : ∀ j ∈ rest, j ∈ w.insignificant.members := fun j hj => hl j (by simp [hj])
    have hlt : ∀ j ∈ [i], j < dims.volume := by
      obtain ⟨ph, hs, -⟩ := h
      intro j hj
      rw [List.mem_singleton] at hj
      exact hj ▸ hs.lt_of_member hi
    have hnodup : i ∉ rest := by
      obtain ⟨ph, hs, -⟩ := h
      have hn := hs.nodup
      rw [List.cons_append, List.nodup_cons, List.mem_append, not_or] at hn
      exact hn.1.1
    have h' : Kept dims I (c + 2 * rest.length + 1 + 1) w outside ([i] ++ (rest ++ untested)) s :=
      h.spend R (by simp; omega)
    rw [elementPass]
    refine Dialogue.ensures_bind ((settle_ensures R (l := [i]) rfl h' hlt
      fun hf => by cases hf).mono ?_)
    intro a t h
    obtain ⟨-, hyes, hno⟩ := h
    cases a with
    | true =>
      obtain ⟨hf, ph, hs, hI⟩ := hyes rfl
      refine Dialogue.ensures_bind ((enter_ensures R ⟨ph, hs.erase hi, hI⟩ hf).mono ?_)
      intro w' t' h
      obtain ⟨hk, rfl⟩ := h
      apply ih hk
      intro j hj
      have hne : j ≠ i := fun he => hnodup (he ▸ hj)
      have hm := (IndexSet.members_erase hi).mem_iff.mpr (hrest j hj)
      simpa [hne] using hm
    | false =>
      obtain ⟨-, hk⟩ := hno rfl
      exact ih (hk.spend R (by omega)) hrest

theorem shellPass_ensures (R : PlaneRule dims reply k I H) (level : Nat)
    (h : Kept dims I
      (c + (4 * ((Region.shell (shellAt dims level)).indices dims).length + level + 1)) w
      ((Region.shell (shellAt dims level)).indices dims)
      ((Region.shell (shellAt dims level)).indices dims) s) :
    (shellPass dims (shellAt dims level) w).Ensures reply s
      (fun p t => (∃ l ≤ level, p.rest = shellAt dims l) ∧
        Kept dims I c p.lists ((Region.shell p.rest).indices dims) [] t) H := by
  induction level generalizing w s with
  | zero =>
    have hempty : (shellAt dims 0).isEmpty = true := rfl
    rw [shellPass, dif_pos hempty]
    refine Dialogue.ensures_pure ⟨⟨0, Nat.le_refl 0, rfl⟩, ?_⟩
    rw [indices_shellAt_zero] at h ⊢
    exact h.spend R (by omega)
  | succ level ih =>
    have hempty : ¬(shellAt dims (level + 1)).isEmpty = true := by simp [shellAt, Shell.isEmpty]
    have hbandsEq : ((shellAt dims (level + 1)).peel dims).1 = detailBands dims (level + 1) := by
      rw [peel_shellAt]
    have hrestEq : ((shellAt dims (level + 1)).peel dims).2 = shellAt dims level := by
      rw [peel_shellAt]
    have hpeel := places_peel dims level
    have hlt : ∀ i ∈ (Region.shell (shellAt dims (level + 1))).indices dims, i < dims.volume := by
      obtain ⟨ph, hs, -⟩ := h
      exact fun i hi => hs.lt_of_outside hi
    have hbands : ∀ b ∈ detailBands dims (level + 1), b.isEmpty = false ∧ 0 ≤ b.level :=
      fun b hb => ⟨(mem_detailBands hb).2, Nat.zero_le _⟩
    have hfee := testFee_add_length dims fun b hb => (hbands b hb).1
    have hlen := hpeel.length_eq
    rw [List.length_append] at hlen
    rw [← hbandsEq] at hpeel hbands hfee hlen
    have h' : Kept dims I (c + (4 * ((Region.shell (shellAt dims level)).indices dims).length +
        level + 1) + testFee ((shellAt dims (level + 1)).peel dims).1 + 1) w
        ((Region.shell (shellAt dims (level + 1))).indices dims)
        ((Region.shell (shellAt dims (level + 1))).indices dims ++ []) s := by
      rw [List.append_nil]
      exact h.spend R (by omega)
    rw [shellPass, dif_neg hempty]
    refine Dialogue.ensures_bind ((settle_ensures R
      (l := (Region.shell (shellAt dims (level + 1))).indices dims) rfl h' hlt
      fun hf => by cases hf).mono ?_)
    intro a t h
    obtain ⟨-, hyes, hno⟩ := h
    cases a with
    | true =>
      obtain ⟨-, hk⟩ := hyes rfl
      rw [List.append_nil] at hk
      refine Dialogue.ensures_bind ((testEach_ensures R _
        (hk.perm hpeel.symm hpeel.symm) hbands fun hd => by cases hd).mono ?_)
      intro r t' hr
      obtain ⟨found, w'⟩ := r
      obtain ⟨hk', -, hfound⟩ := hr
      refine Dialogue.ensures_bind ((splitAll_ensures R found.1 hk' hfound).mono ?_)
      intro w'' u h
      obtain ⟨hk'', -⟩ := h
      rw [hrestEq]
      apply (ih hk'').mono
      intro p u h
      obtain ⟨⟨l, hl, hrest⟩, hp⟩ := h
      exact ⟨⟨l, Nat.le_succ_of_le hl, hrest⟩, hp⟩
    | false =>
      obtain ⟨-, hk⟩ := hno rfl
      exact Dialogue.ensures_pure ⟨⟨level + 1, Nat.le_refl _, rfl⟩, hk.spend R (by omega)⟩

end Passes

/-- Before and after each plane every element stands in one place. -/
structure Settled (dims : Extents) (p : Progress) : Prop where
  bound : p.lists.insignificant.bound = dims.volume
  cover : (p.lists.significant.toList ++ (p.lists.insignificant.members ++
    (places dims p.lists.stored ++ (Region.shell p.rest).indices dims))).Perm
      (List.range dims.volume)
  stored : ∀ level, ∀ b ∈ (p.lists.boxesAt level).toList, b.WaitsAt level
  rest : ∃ level ≤ levelLimit, p.rest = shellAt dims level

/-- The phases before a plane. -/
def IsStart (dims : Extents) (p : Progress) (ph : Nat → Phase) : Prop :=
  ∀ i < dims.volume, ph i = if i ∈ p.lists.significant.toList then .old else .waiting

/-- The phases after a plane. -/
def IsEnd (dims : Extents) (p : Progress) (ph : Nat → Phase) : Prop :=
  ∀ i < dims.volume, ph i = if i ∈ p.lists.significant.toList then .done else .cold

/-- The credits that one plane may take. -/
def planeFee (dims : Extents) : Nat :=
  4 * dims.volume + (levelLimit + 1)

namespace Settled

variable {p : Progress} {ph : Nat → Phase}

theorem disjoint (h : Settled dims p) :
    (p.lists.significant.toList).Nodup ∧
      (p.lists.insignificant.members ++ (places dims p.lists.stored ++
        (Region.shell p.rest).indices dims)).Nodup ∧
      ∀ i ∈ p.lists.significant.toList, i ∉ p.lists.insignificant.members ++
        (places dims p.lists.stored ++ (Region.shell p.rest).indices dims) := by
  have hn := h.cover.nodup_iff.mpr List.nodup_range
  obtain ⟨h1, h2, h3⟩ := List.nodup_append.mp hn
  exact ⟨h1, h2, fun i hi hm => h3 i hi i hm rfl⟩

theorem sorted (h : Settled dims p) (hph : IsStart dims p ph) :
    Sorted dims (mark ph p.lists.significant.toList .done) p.lists
      ((Region.shell p.rest).indices dims) (p.lists.insignificant.members ++
        (places dims p.lists.stored ++ (Region.shell p.rest).indices dims)) := by
  obtain ⟨-, hnodup, hdisj⟩ := h.disjoint
  refine ⟨h.bound, h.cover, h.stored, fun i hi => mark_of_mem hi, fun i hi => ?_,
    fun i hi hs hn => ?_, hnodup⟩
  · have hs : i ∉ p.lists.significant.toList := fun hs => hdisj i hs hi
    have hlt := List.mem_range.mp (h.cover.mem_iff.mp (List.mem_append_right _ hi))
    rw [mark_of_not_mem hs, hph i hlt, if_neg hs]
  · rcases List.mem_append.mp (h.cover.mem_iff.mpr (List.mem_range.mpr hi)) with hm | hm
    · exact absurd hm hs
    · exact absurd hm hn

theorem fee_le (h : Settled dims p) {level : Nat} (hl : level ≤ levelLimit) :
    p.lists.significant.toList.length + 2 * p.lists.insignificant.members.length +
      testFee p.lists.stored +
      (4 * ((Region.shell p.rest).indices dims).length + level + 1) ≤ planeFee dims := by
  have hlen := h.cover.length_eq
  have hstored : ∀ b ∈ p.lists.stored, b.isEmpty = false := fun b hb => by
    obtain ⟨l, hb⟩ := Worklists.mem_stored hb
    exact (h.stored l b hb).isEmpty
  have hfee := testFee_add_length dims hstored
  simp only [List.length_append, List.length_range] at hlen
  unfold planeFee
  omega

end Settled

theorem Sorted.settled {p : Progress} {ph : Nat → Phase} {level : Nat} (hl : level ≤ levelLimit)
    (hr : p.rest = shellAt dims level)
    (h : Sorted dims ph p.lists ((Region.shell p.rest).indices dims) []) :
    Settled dims p ∧ IsEnd dims p ph := by
  refine ⟨⟨h.bound, h.cover, h.stored, level, hl, hr⟩, fun i hi => ?_⟩
  split
  next hs => exact h.done i hs
  next hs => exact h.cold i hi hs (by simp)

/-- In one plane every element is tested or refined, whatever the answers are, and the worklists
are settled again in the end. -/
theorem codePlane_ensures (R : PlaneRule dims reply k I H) {p : Progress} {ph : Nat → Phase}
    {c : Nat} {s : σ} (hp : Settled dims p) (hph : IsStart dims p ph)
    (hI : I (c + planeFee dims) ph s) :
    (codePlane dims p).Ensures reply s
      (fun p' t => Settled dims p' ∧ ∃ ph', IsEnd dims p' ph' ∧ I c ph' t) H := by
  obtain ⟨level, hl, hrest⟩ := hp.rest
  obtain ⟨hnodup, -, -⟩ := hp.disjoint
  have hfee := hp.fee_le hl
  have hsorted := hp.sorted hph
  have hold : ∀ i ∈ p.lists.significant.toList, i < dims.volume ∧ ph i = .old := by
    intro i hi
    have hlt := List.mem_range.mp (hp.cover.mem_iff.mp (List.mem_append_left _ hi))
    exact ⟨hlt, by rw [hph i hlt, if_pos hi]⟩
  have hI' : I (c + (4 * ((Region.shell p.rest).indices dims).length + level + 1) +
      testFee p.lists.stored + 2 * p.lists.insignificant.members.length +
      p.lists.significant.toList.length) ph s := R.spend hI (by omega)
  unfold codePlane
  refine Dialogue.ensures_bind ((refinementPass_ensures R _ hI' hnodup hold).mono fun _ t ht => ?_)
  refine Dialogue.ensures_bind ((elementPass_ensures R _ ⟨_, hsorted, ht⟩ fun i hi => hi).mono ?_)
  intro w t h
  obtain ⟨hk, hboxes⟩ := h
  have hstored : p.lists.stored = w.below w.boxes.size := by
    unfold Worklists.stored Worklists.below Worklists.boxesAt
    rw [hboxes]
  rw [hstored] at hk
  refine Dialogue.ensures_bind ((boxPass_ensures R _ hk).mono fun w' t hk' => ?_)
  rw [hrest] at hk' ⊢
  apply (shellPass_ensures R level hk').mono
  intro p' t h
  obtain ⟨⟨l, hle, hrest'⟩, ph', hs', hI'⟩ := h
  obtain ⟨hsettled, hend⟩ := hs'.settled (Nat.le_trans hle hl) hrest'
  exact ⟨hsettled, ph', hend, hI'⟩

theorem ensures_relabel {ι ι' α : Type} {f : ι → ι'} {reply : σ → ι' → Reply σ}
    {d : Dialogue ι α} {s : σ} {post : α → σ → Prop} {halted : σ → Prop}
    (h : d.Ensures (fun s q => reply s (f q)) s post halted) :
    (d.relabel f).Ensures reply s post halted := by
  unfold Dialogue.Ensures
  rw [Dialogue.conduct_relabel]
  exact h

/-- What holds between planes is kept by a run through all of them, if it gives what each plane
needs, and each plane gives it back. -/
theorem codePlanes_ensures {respond : σ → Int × Query → Reply σ} {lowest : Int} {N : Nat}
    {k : Nat → Insight} {I : Nat → Nat → (Nat → Phase) → σ → Prop}
    {A : Nat → Nat → Progress → σ → Prop}
    (R : ∀ n < N, PlaneRule dims (fun s q => respond s (lowest + n, q)) (k n) (I n) H)
    (hstart : ∀ n c p s, A (n + 1) c p s → ∃ ph, IsStart dims p ph ∧ I n c ph s)
    (hend : ∀ n c p ph s, IsEnd dims p ph → I n c ph s → A n c p s)
    {n c : Nat} (hn : n ≤ N) {p : Progress} {s : σ} (hp : Settled dims p)
    (h : A n (c + n * planeFee dims) p s) :
    (codePlanes dims lowest n p).Ensures respond s
      (fun p' t => Settled dims p' ∧ A 0 c p' t) H := by
  induction n generalizing p s with
  | zero =>
    rw [Nat.zero_mul] at h
    exact Dialogue.ensures_pure ⟨hp, h⟩
  | succ n ih =>
    rw [Nat.succ_mul, ← Nat.add_assoc] at h
    obtain ⟨ph, hph, hI⟩ := hstart n _ p s h
    have hplane := codePlane_ensures (R n (by omega)) hp hph hI
    refine Dialogue.ensures_bind ((ensures_relabel hplane).mono ?_)
    intro p' t h
    obtain ⟨hp', ph', hph', hI'⟩ := h
    exact ih (by omega) hp' (hend n _ p' ph' t hph' hI')

/-- Worklists in which nothing stands yet, with room for boxes below a level. -/
def Worklists.blank (dims : Extents) (levels : Nat) : Worklists :=
  ⟨IndexSet.empty dims.volume, Array.replicate levels #[], #[]⟩

namespace Worklists

theorem boxesAt_blank (dims : Extents) (levels j : Nat) : (blank dims levels).boxesAt j = #[] := by
  unfold boxesAt blank
  rw [Array.getD_eq_getD_getElem?, Array.getElem?_replicate]
  split <;> rfl

theorem stored_blank (dims : Extents) (levels : Nat) : (blank dims levels).stored = [] := by
  unfold stored below
  rw [List.flatMap_eq_nil_iff]
  intro j _
  rw [boxesAt_blank, Array.toList_empty]

end Worklists

section Initial

variable {rest : Shell} {levels : Nat}

theorem settled_of_element {i : Nat}
    (hc : (i :: (Region.shell rest).indices dims).Perm (List.range dims.volume))
    (hr : ∃ level ≤ levelLimit, rest = shellAt dims level) :
    Settled dims ⟨{ Worklists.blank dims levels with
      insignificant := (IndexSet.empty dims.volume).insert i }, rest⟩ := by
  have hlt : i < dims.volume := List.mem_range.mp (hc.mem_iff.mp (by simp))
  have hmem := IndexSet.members_empty dims.volume
  have hins := IndexSet.members_insert (s := IndexSet.empty dims.volume) hlt (by rw [hmem]; simp)
  rw [hmem] at hins
  refine ⟨rfl, ?_, fun j b hb => ?_, hr⟩
  · refine .trans ?_ hc
    show (((IndexSet.empty dims.volume).insert i).members ++
      (places dims (Worklists.blank dims levels).stored ++ (Region.shell rest).indices dims)).Perm _
    rw [Worklists.stored_blank, places_nil, List.nil_append]
    exact hins.append_right _
  · change b ∈ ((Worklists.blank dims levels).boxesAt j).toList at hb
    rw [Worklists.boxesAt_blank] at hb
    cases hb

theorem settled_of_box {b : Box} (hb : b.WaitsAt b.level)
    (hc : ((Region.box b).indices dims ++ (Region.shell rest).indices dims).Perm
      (List.range dims.volume))
    (hr : ∃ level ≤ levelLimit, rest = shellAt dims level) :
    Settled dims ⟨(Worklists.blank dims levels).addBox b, rest⟩ := by
  have hmem := IndexSet.members_empty dims.volume
  have hadd := places_perm dims (Worklists.stored_addBox (Worklists.blank dims levels) b)
  rw [Worklists.stored_blank, places_cons, places_nil, List.append_nil] at hadd
  refine ⟨rfl, ?_, fun j b' hb' => ?_, hr⟩
  · refine .trans ?_ hc
    show ((IndexSet.empty dims.volume).members ++
      (places dims ((Worklists.blank dims levels).addBox b).stored ++
        (Region.shell rest).indices dims)).Perm _
    rw [hmem, List.nil_append]
    exact hadd.append_right _
  · change b' ∈ (((Worklists.blank dims levels).addBox b).boxesAt j).toList at hb'
    rw [Worklists.boxesAt_addBox, Worklists.boxesAt_blank] at hb'
    split at hb'
    next he =>
      rw [Array.toList_push, Array.toList_empty, List.nil_append, List.mem_singleton] at hb'
      rw [hb', he]
      exact hb
    next => cases hb'

theorem initial_eq (dims : Extents) :
    Progress.initial dims =
      if (partition dims).1.isPixel then
        ⟨{ Worklists.blank dims ((partition dims).1.level + 1) with
          insignificant := (IndexSet.empty dims.volume).insert ((partition dims).1.index dims) },
          (partition dims).2⟩
      else ⟨(Worklists.blank dims ((partition dims).1.level + 1)).addBox (partition dims).1,
        (partition dims).2⟩ := rfl

end Initial

theorem Settled.initial (hd : dims.validate = .ok ()) :
    Settled dims (Progress.initial dims) ∧
      (Progress.initial dims).lists.significant.toList = [] := by
  have hcover := places_partition dims
  have hempty := isEmpty_root hd
  have hrest : ∃ level ≤ levelLimit, (partition dims).2 = shellAt dims level :=
    ⟨_, partitionLevels_le dims, rfl⟩
  rw [initial_eq]
  generalize partition dims = start at hcover hempty hrest ⊢
  obtain ⟨root, rest⟩ := start
  split
  next hp =>
    rw [indices_of_isPixel hp dims] at hcover
    exact ⟨settled_of_element hcover hrest, rfl⟩
  next hp => exact ⟨settled_of_box ⟨rfl, by simpa using hp, hempty⟩ hcover hrest, rfl⟩

end VolumeCodec
