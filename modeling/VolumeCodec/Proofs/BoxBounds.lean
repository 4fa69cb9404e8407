import VolumeCodec.Proofs.PlaneCoding

namespace VolumeCodec

section Always

variable {ι α β σ : Type}

/-- The result of a dialogue has a property, whatever the answers are. -/
def Dialogue.Always (post : α → Prop) : Dialogue ι α → Prop
  | .done a => post a
  | .ask _ next => ∀ b, (next b).Always post

namespace Dialogue

variable {post : α → Prop} {post' : β → Prop}

theorem always_bind {d : Dialogue ι α} {f : α → Dialogue ι β} (h : d.Always post)
    (hf : ∀ a, post a → (f a).Always post') : (d >>= f).Always post' := by
  induction d with
  | done a => exact hf a h
  | ask q next ih => exact fun b => ih b (h b)

theorem always_question_bind {q : ι} {f : Bool → Dialogue ι β} (hf : ∀ b, (f b).Always post') :
    (question q >>= f).Always post' := hf

/-- So it has this property with any respondent that lets the dialogue come to a result. -/
theorem Always.of_conduct {d : Dialogue ι α} (h : d.Always post) {reply : σ → ι → Reply σ}
    {s t : σ} {a : α} (hc : d.conduct reply s = (some a, t)) : post a := by
  induction d generalizing s with
  | done a' =>
    cases hc
    exact h
  | ask q next ih =>
    rw [conduct] at hc
    cases hr : reply s q with
    | answer b s' =>
      rw [hr] at hc
      exact ih b (h b) hc
    | halt s' =>
      rw [hr] at hc
      cases hc

end Dialogue

end Always

/-- A box that does not reach over the end of an array on any axis. -/
structure Box.Within (b : Box) (dims : Extents) : Prop where
  x : b.origin.x + b.extent.x ≤ dims.x
  y : b.origin.y + b.extent.y ≤ dims.y
  z : b.origin.z + b.extent.z ≤ dims.z

namespace Box.Within

variable {b : Box} {dims : Extents}

theorem part (h : b.Within dims) (corner : Axes Bool) : (b.part corner).Within dims := by
  obtain ⟨hx, hy, hz⟩ := h
  have haxis : ∀ (far : Bool) (o n d : Nat), o + n ≤ d →
      ((if far then (n + 1) / 2 else 0) + o) + (if far then n - (n + 1) / 2 else (n + 1) / 2) ≤
        d := by
    intro far o n d h
    cases far with
    | false => simp; omega
    | true => simp; omega
  exact ⟨haxis corner.x _ _ _ hx, haxis corner.y _ _ _ hy, haxis corner.z _ _ _ hz⟩

theorem of_mem_parts {p : Box} (h : b.Within dims) (hp : p ∈ b.parts) : p.Within dims := by
  obtain ⟨hp, -⟩ := List.mem_filter.mp hp
  obtain ⟨corner, -, rfl⟩ := List.mem_map.mp hp
  exact h.part corner

theorem of_mem_detailBands {level : Nat} (hb : b ∈ detailBands dims level) : b.Within dims := by
  have hsum : ∀ n, (bandLengths n level).1 + (bandLengths n level).2 ≤ n := by
    intro n
    cases level with
    | zero => simp [bandLengths]
    | succ level =>
      have hle := approximation_le n level
      simp only [bandLengths]
      omega
  have haxis : ∀ (far : Bool) (n : Nat), (if far then (bandLengths n level).1 else 0) +
      (if far then (bandLengths n level).2 else (bandLengths n level).1) ≤ n := by
    intro far n
    have hn := hsum n
    cases far with
    | false => simp; omega
    | true => simpa using hn
  obtain ⟨hb, -⟩ := List.mem_filter.mp hb
  obtain ⟨corner, -, rfl⟩ := List.mem_map.mp hb
  exact ⟨haxis corner.x _, haxis corner.y _, haxis corner.z _⟩

theorem partition (dims : Extents) : (partition dims).1.Within dims := by
  have haxis : ∀ n, 0 + (bandLengths n (partitionLevels dims)).1 ≤ n := fun n =>
    (Nat.zero_add _).symm ▸ approximation_le n _
  exact ⟨haxis _, haxis _, haxis _⟩

end Box.Within

/-- All boxes that wait lie inside an array. -/
def Worklists.Within (w : Worklists) (dims : Extents) : Prop :=
  ∀ level, ∀ b ∈ (w.boxesAt level).toList, b.Within dims

namespace Worklists.Within

variable {w : Worklists} {dims : Extents}

theorem addBox {b : Box} (h : w.Within dims) (hb : b.Within dims) : (w.addBox b).Within dims := by
  intro level c hc
  rw [boxesAt_addBox] at hc
  split at hc
  next =>
    rw [Array.toList_push, List.mem_append, List.mem_singleton] at hc
    rcases hc with hc | rfl
    · exact h level c hc
    · exact hb
  next => exact h level c hc

theorem setBoxesAt {level : Nat} {boxes : Array Box} (h : w.Within dims)
    (hb : ∀ b ∈ boxes.toList, b.Within dims) : (w.setBoxesAt level boxes).Within dims := by
  intro j c hc
  rw [boxesAt_setBoxesAt] at hc
  split at hc
  next => exact hb c hc
  next => exact h j c hc

end Worklists.Within

section Passes

open Dialogue

variable {dims : Extents} {w : Worklists}

theorem enter_within (i : Nat) (h : w.Within dims) :
    (enter i w).Always fun w' => w'.Within dims :=
  always_question_bind fun _ => h

theorem elementPass_within (l : List Nat) (h : w.Within dims) :
    (elementPass l w).Always fun w' => w'.Within dims := by
  induction l generalizing w with
  | nil => exact h
  | cons i rest ih =>
    rw [elementPass]
    refine always_question_bind fun b => ?_
    cases b with
    | true => exact always_bind (enter_within i h) fun w' hw' => ih hw'
    | false => exact ih h

theorem testEach_within (due : Bool) (boxes : List Box) (h : w.Within dims)
    (hb : ∀ b ∈ boxes, b.Within dims) :
    (testEach dims due boxes w).Always fun r =>
      r.2.Within dims ∧ ∀ b ∈ r.1.1, b.Within dims := by
  induction boxes generalizing due w with
  | nil =>
    rw [testEach]
    exact ⟨h, fun b hb => by cases hb⟩
  | cons b rest ih =>
    have hrest : ∀ c ∈ rest, c.Within dims := fun c hc => hb c (by simp [hc])
    rw [testEach]
    split
    next =>
      refine always_question_bind fun a => ?_
      cases a with
      | true =>
        exact always_bind (enter_within _ h) fun w' hw' =>
          always_bind (ih _ hw' hrest) fun r hr => hr
      | false =>
        have hinsert : (pure { w with insignificant := w.insignificant.insert (b.index dims) } :
            Coding Worklists).Always fun w' => w'.Within dims := h
        exact always_bind hinsert fun w' hw' => always_bind (ih _ hw' hrest) fun r hr => hr
    next =>
      refine always_question_bind fun a => ?_
      cases a with
      | true =>
        refine always_bind (ih _ h hrest) fun r hr => ⟨hr.1, fun c hc => ?_⟩
        rcases List.mem_append.mp hc with hc | hc
        · exact hr.2 c hc
        · exact hb c (by simpa using Or.inl (List.mem_singleton.mp hc))
      | false => exact always_bind (ih _ (h.addBox (hb b (by simp))) hrest) fun r hr => hr

theorem splitAll_within (stack : List Box) (h : w.Within dims)
    (hb : ∀ b ∈ stack, b.Within dims) :
    (splitAll dims stack w).Always fun w' => w'.Within dims := by
  induction stack, w using splitAll.induct with
  | case1 w =>
    rw [splitAll]
    exact h
  | case2 b stack w ih =>
    rw [splitAll]
    have hparts : ∀ p ∈ b.parts, p.Within dims := fun p hp => (hb b (by simp)).of_mem_parts hp
    refine always_bind (testEach_within true b.parts h hparts) fun r hr => ?_
    refine ih r.1 r.2 hr.1 fun c hc => ?_
    rcases List.mem_append.mp hc with hc | hc
    · exact hr.2 c hc
    · exact hb c (by simp [hc])

theorem levelPass_within (boxes : List Box) {kept : Array Box} (h : w.Within dims)
    (hb : ∀ b ∈ boxes, b.Within dims) (hk : ∀ b ∈ kept.toList, b.Within dims) :
    (levelPass dims boxes kept w).Always fun r =>
      r.2.Within dims ∧ ∀ b ∈ r.1.toList, b.Within dims := by
  induction boxes generalizing kept w with
  | nil => exact ⟨h, hk⟩
  | cons b rest ih =>
    have hbox : b.Within dims := hb b (by simp)
    have hrest : ∀ c ∈ rest, c.Within dims := fun c hc => hb c (by simp [hc])
    rw [levelPass]
    refine always_question_bind fun a => ?_
    cases a with
    | true =>
      exact always_bind (splitAll_within [b] h (by simpa using hbox)) fun w' hw' => ih hw' hrest hk
    | false =>
      refine ih h hrest fun c hc => ?_
      rw [Array.toList_push, List.mem_append, List.mem_singleton] at hc
      rcases hc with hc | rfl
      · exact hk c hc
      · exact hbox

theorem boxPass_within (level : Nat) (h : w.Within dims) :
    (boxPass dims level w).Always fun w' => w'.Within dims := by
  induction level generalizing w with
  | zero => exact h
  | succ level ih =>
    rw [boxPass]
    refine always_bind (levelPass_within _ (h.setBoxesAt fun b hb => by cases hb) (h level)
      fun b hb => by cases hb) fun r hr => ih (hr.1.setBoxesAt fun b hb => ?_)
    rw [Array.toList_append, List.mem_append] at hb
    rcases hb with hb | hb
    · exact hr.2 b hb
    · exact hr.1 level b hb

theorem shellPass_within (rest : Shell) (h : w.Within dims) :
    (shellPass dims rest w).Always fun p => p.lists.Within dims := by
  induction rest, w using shellPass.induct dims with
  | case1 rest w he =>
    rw [shellPass, dif_pos he]
    exact h
  | case2 rest w he ih =>
    have hpeel : ∀ b ∈ (rest.peel dims).1, b.Within dims := by
      intro b hb
      rw [Shell.peel, if_neg he] at hb
      exact .of_mem_detailBands hb
    rw [shellPass, dif_neg he]
    refine always_question_bind fun a => ?_
    cases a with
    | true =>
      refine always_bind (testEach_within false _ h hpeel) fun r hr => ?_
      exact always_bind (splitAll_within r.1.1 hr.1 hr.2) fun w' hw' => ih w' hw'
    | false => exact h

/-- Boxes are only ever split or peeled off the shell, so none of them reaches over the end. -/
theorem codePlane_within {p : Progress} (h : p.lists.Within dims) :
    (codePlane dims p).Always fun p' => p'.lists.Within dims := by
  have hrefine : ∀ l : List Nat, (refinementPass l).Always fun _ => True := by
    intro l
    induction l with
    | nil => trivial
    | cons i rest ih => exact always_question_bind fun _ => ih
  unfold codePlane
  refine always_bind (hrefine _) fun _ _ => ?_
  refine always_bind (elementPass_within _ h) fun w hw => ?_
  exact always_bind (boxPass_within _ hw) fun w' hw' => shellPass_within p.rest hw'

end Passes

theorem Worklists.Within.initial (dims : Extents) : (Progress.initial dims).lists.Within dims := by
  have hblank : ∀ levels, (Worklists.blank dims levels).Within dims := by
    intro levels j b hb
    rw [Worklists.boxesAt_blank] at hb
    cases hb
  rw [initial_eq]
  split
  next => exact hblank _
  next => exact (hblank _).addBox (.partition dims)

end VolumeCodec
