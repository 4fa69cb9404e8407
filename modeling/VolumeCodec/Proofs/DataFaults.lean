import VolumeCodec.Memory
import VolumeCodec.Proofs.ActionRuns
import VolumeCodec.Proofs.Outcomes

namespace VolumeCodec

/-- The fault of damaged data, of a memory that refuses a request, or of a number that is too large
for a machine. No caller is to blame for it. -/
def Fault.IsBlameless (f : Fault) : Prop :=
  f.comesFromData = true ∨ (∃ bytes, f = .allocation bytes) ∨ f = .overflow

variable {σ α β : Type}

/-- A result has a property, or there is a fault for which no caller is to blame. -/
def EndsWell (r : Except Fault α) (post : α → Prop) : Prop :=
  match r with
  | .ok a => post a
  | .error f => f.IsBlameless

section Results

variable {r : Except Fault α} {post : α → Prop}

theorem EndsWell.mono {post' : α → Prop} (h : EndsWell r post) (hp : ∀ a, post a → post' a) :
    EndsWell r post' := by
  cases r with
  | ok a => exact hp a h
  | error f => exact h

theorem endsWell_bind {f : α → Except Fault β} {post' : β → Prop} (h : EndsWell r post)
    (hf : ∀ a, post a → EndsWell (f a) post') : EndsWell (r >>= f) post' := by
  cases r with
  | ok a => exact hf a h
  | error fault => exact h

theorem endsWell_check {c : Prop} [Decidable c] {fault : Fault} (hc : c → fault.IsBlameless)
    (h : ¬c → EndsWell r post) :
    EndsWell (do if c then throw fault
                 r : Except Fault α) post := by
  by_cases h' : c
  · rw [if_pos h']
    exact hc h'
  · rw [if_neg h']
    exact h h'

theorem endsWell_mapM {f : β → Except Fault α} {l : List β} {P : β → α → Prop}
    (h : ∀ b ∈ l, EndsWell (f b) (P b)) :
    EndsWell (l.mapM f) fun as => List.Forall₂ P l as := by
  induction l with
  | nil => exact .nil
  | cons b rest ih =>
    rw [List.mapM_cons]
    refine endsWell_bind (h b List.mem_cons_self) fun a ha => ?_
    refine endsWell_bind (ih fun c hc => h c (List.mem_cons_of_mem b hc)) fun as has => ?_
    exact .cons ha has

/-- A memory only ever refuses. -/
theorem endsWell_request (memory : Memory) (bytes : Nat) :
    EndsWell (memory.request bytes) fun _ => True := by
  unfold Memory.request
  split
  next => trivial
  next => exact .inr (.inl ⟨bytes, rfl⟩)

theorem endsWell_requestArray (memory : Memory) (length elementBytes : Nat) :
    EndsWell (memory.requestArray length elementBytes) fun _ => True :=
  endsWell_request memory _

end Results

namespace Action

/-- As `EndsWell`, for a step on a state. -/
def EndsWell (u : Action σ α) (s : σ) (post : α → σ → Prop) : Prop :=
  match u.run.run s with
  | (.ok a, t) => post a t
  | (.error f, _) => f.IsBlameless

variable {u : Action σ α} {s : σ} {post : α → σ → Prop}

theorem endsWell_pure {a : α} (h : post a s) : (pure a : Action σ α).EndsWell s post := h

theorem endsWell_bind {f : α → Action σ β} {post : β → σ → Prop}
    (h : u.EndsWell s fun a t => (f a).EndsWell t post) : (u >>= f).EndsWell s post := by
  unfold EndsWell at h ⊢
  rw [run_bind]
  rcases hu : u.run.run s with ⟨e | a, t⟩
  · rw [hu] at h
    exact h
  · rw [hu] at h
    exact h

theorem EndsWell.mono {post' : α → σ → Prop} (h : u.EndsWell s post)
    (hp : ∀ a t, post a t → post' a t) : u.EndsWell s post' := by
  unfold EndsWell at h ⊢
  rcases hu : u.run.run s with ⟨e | a, t⟩
  · rw [hu] at h
    exact h
  · rw [hu] at h
    exact hp a t h

theorem endsWell_map {f : α → β} {post : β → σ → Prop} (h : u.EndsWell s fun a t => post (f a) t) :
    (f <$> u).EndsWell s post := by
  rw [map_eq_pure_bind]
  exact endsWell_bind h

theorem endsWell_check {c : Prop} [Decidable c] {fault : Fault} (hc : c → fault.IsBlameless)
    (h : ¬c → u.EndsWell s post) :
    (do if c then throw fault
        u : Action σ α).EndsWell s post := by
  by_cases h' : c
  · rw [if_pos h']
    exact hc h'
  · rw [if_neg h']
    exact h h'

theorem endsWell_lift {r : Except Fault α} (h : VolumeCodec.EndsWell r fun a => post a s) :
    (liftM r : Action σ α).EndsWell s post := by
  cases r with
  | ok a => exact h
  | error f => exact h

theorem endsWell_get {post : σ → σ → Prop} (h : post s s) : (get : Action σ σ).EndsWell s post := h

theorem endsWell_set {t : σ} {post : PUnit → σ → Prop} (h : post ⟨⟩ t) :
    (set t : Action σ PUnit).EndsWell s post := h

theorem endsWell_modify {f : σ → σ} {post : PUnit → σ → Prop} (h : post ⟨⟩ (f s)) :
    (modify f : Action σ PUnit).EndsWell s post := h

/-- The result of a step alone. -/
theorem EndsWell.result {post : α → Prop} (h : u.EndsWell s fun a _ => post a) :
    VolumeCodec.EndsWell (u.run.run s).1 post := by
  unfold EndsWell at h
  rcases hu : u.run.run s with ⟨e | a, t⟩
  · rw [hu] at h
    exact h
  · rw [hu] at h
    exact h

end Action

end VolumeCodec
