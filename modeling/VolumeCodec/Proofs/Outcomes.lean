import VolumeCodec.Fault
import Mathlib.Data.List.Forall2

namespace VolumeCodec

variable {α β γ δ : Type}

theorem ok_of_bind {u : Except Fault α} {f : α → Except Fault β} {b : β}
    (h : (u >>= f) = .ok b) : ∃ a, u = .ok a ∧ f a = .ok b := by
  cases u with
  | error e => cases h
  | ok a => exact ⟨a, rfl, h⟩

theorem ok_of_check {c : Prop} [Decidable c] {fault : Fault} {r : Except Fault α} {a : α}
    (h : (do if c then throw fault
             r : Except Fault α) = .ok a) : ¬c ∧ r = .ok a := by
  by_cases hc : c
  · rw [if_pos hc] at h
    cases h
  · rw [if_neg hc] at h
    exact ⟨hc, h⟩

/-- Both fail with the same fault, or both succeed with results in some relation. -/
def Alike (R : α → β → Prop) : Except Fault α → Except Fault β → Prop
  | .ok a, .ok b => R a b
  | .error e, .error e' => e = e'
  | _, _ => False

namespace Alike

variable {R : α → β → Prop} {S : γ → δ → Prop} {u : Except Fault α} {v : Except Fault β}

theorem bind {f : α → Except Fault γ} {g : β → Except Fault δ} (h : Alike R u v)
    (hfg : ∀ a b, R a b → Alike S (f a) (g b)) : Alike S (u >>= f) (v >>= g) := by
  cases u with
  | error e =>
    cases v with
    | error e' => exact h
    | ok b => exact h.elim
  | ok a =>
    cases v with
    | error e' => exact h.elim
    | ok b => exact hfg a b h

theorem refl {R : α → α → Prop} (u : Except Fault α) (h : ∀ a, u = .ok a → R a a) :
    Alike R u u := by
  cases u with
  | error e => exact rfl
  | ok a => exact h a rfl

theorem mono {R' : α → β → Prop} (h : Alike R u v) (hr : ∀ a b, R a b → R' a b) :
    Alike R' u v := by
  cases u with
  | error e => cases v <;> exact h
  | ok a =>
    cases v with
    | error e' => exact h
    | ok b => exact hr a b h

/-- Two traversals that are alike at each element are alike. -/
theorem mapM {f : α → Except Fault β} {g : α → Except Fault γ} {R : α → β → γ → Prop}
    {l : List α} (h : ∀ a ∈ l, Alike (R a) (f a) (g a)) :
    Alike (fun bs cs => ∃ rows : List (α × β × γ), rows.map (·.1) = l ∧ rows.map (·.2.1) = bs ∧
      rows.map (·.2.2) = cs ∧ ∀ r ∈ rows, R r.1 r.2.1 r.2.2) (l.mapM f) (l.mapM g) := by
  induction l with
  | nil => exact ⟨[], rfl, rfl, rfl, fun r hr => by cases hr⟩
  | cons a rest ih =>
    rw [List.mapM_cons, List.mapM_cons]
    apply (h a List.mem_cons_self).bind
    intro b c hbc
    refine (ih fun x hx => h x (List.mem_cons_of_mem a hx)).bind ?_
    intro bs cs h
    obtain ⟨rows, hl, hb, hc, hr⟩ := h
    refine ⟨(a, b, c) :: rows, ?_, ?_, ?_, fun r hm => ?_⟩
    · rw [List.map_cons, hl]
    · rw [List.map_cons, hb]
    · rw [List.map_cons, hc]
    · rcases List.mem_cons.mp hm with rfl | hm
      · exact hbc
      · exact hr r hm

end Alike

theorem mapM_congr {f g : α → Except Fault β} {l : List α} (h : ∀ a ∈ l, f a = g a) :
    l.mapM f = l.mapM g := by
  induction l with
  | nil => rfl
  | cons a rest ih =>
    rw [List.mapM_cons, List.mapM_cons, h a List.mem_cons_self,
      ih fun x hx => h x (List.mem_cons_of_mem a hx)]

theorem forall₂_of_mapM {f : α → Except Fault β} {l : List α} {bs : List β}
    (h : l.mapM f = .ok bs) : List.Forall₂ (fun a b => f a = .ok b) l bs := by
  induction l generalizing bs with
  | nil =>
    cases h
    exact .nil
  | cons a rest ih =>
    rw [List.mapM_cons] at h
    cases ha : f a with
    | error e =>
      rw [ha] at h
      cases h
    | ok b =>
      cases hr : rest.mapM f with
      | error e =>
        rw [ha, hr] at h
        cases h
      | ok bs' =>
        rw [ha, hr] at h
        cases h
        exact .cons ha (ih hr)

/-- Results that are kept with what they are results of. -/
theorem mapM_keyed {f : α → Except Fault β} {l : List α} {rows : List (α × β)}
    (h : (l.mapM fun a => (a, ·) <$> f a) = .ok rows) :
    rows.map (·.1) = l ∧ ∀ r ∈ rows, f r.1 = .ok r.2 := by
  induction l generalizing rows with
  | nil =>
    cases h
    exact ⟨rfl, fun r hr => nomatch hr⟩
  | cons a rest ih =>
    rw [List.mapM_cons] at h
    cases ha : f a with
    | error e =>
      rw [ha] at h
      cases h
    | ok b =>
      rw [ha] at h
      obtain ⟨rows', hrest, h⟩ := ok_of_bind (show (rest.mapM _ >>= fun rows' =>
        pure ((a, b) :: rows')) = Except.ok rows from h)
      obtain rfl := Except.ok.inj h
      obtain ⟨hkeys, hvalues⟩ := ih hrest
      refine ⟨congrArg (a :: ·) hkeys, fun r hr => ?_⟩
      rcases List.mem_cons.mp hr with rfl | hr
      · exact ha
      · exact hvalues r hr

theorem mapM_succeeds_iff {f : α → Except Fault β} {l : List α} :
    (∃ bs, l.mapM f = .ok bs) ↔ ∀ a ∈ l, ∃ b, f a = .ok b := by
  induction l with
  | nil =>
    constructor
    · intro _ a ha
      cases ha
    · exact fun _ => ⟨[], rfl⟩
  | cons a rest ih =>
    rw [List.mapM_cons]
    constructor
    · intro h x hx
      obtain ⟨bs, h⟩ := h
      obtain ⟨b, hb, h⟩ := ok_of_bind h
      obtain ⟨bs', hbs, -⟩ := ok_of_bind h
      rcases List.mem_cons.mp hx with rfl | hx
      · exact ⟨b, hb⟩
      · exact ih.mp ⟨bs', hbs⟩ x hx
    · intro h
      obtain ⟨b, hb⟩ := h a List.mem_cons_self
      obtain ⟨bs, hbs⟩ := ih.mpr fun x hx => h x (List.mem_cons_of_mem a hx)
      rw [hb, hbs]
      exact ⟨b :: bs, rfl⟩

/-- A traversal ends at the first element that fails. -/
theorem mapM_of_error {f : α → Except Fault β} {before after : List α} {a : α} {fault : Fault}
    (hbefore : ∀ b ∈ before, ∃ c, f b = .ok c) (h : f a = .error fault) :
    (before ++ a :: after).mapM f = .error fault := by
  obtain ⟨cs, hcs⟩ := mapM_succeeds_iff.mpr hbefore
  rw [List.mapM_append, hcs, List.mapM_cons, h]
  rfl

end VolumeCodec
