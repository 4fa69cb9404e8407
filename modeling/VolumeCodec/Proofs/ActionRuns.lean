import VolumeCodec.Fault

namespace VolumeCodec

variable {σ α β : Type}

namespace Action

theorem run_bind (u : Action σ α) (f : α → Action σ β) (s : σ) :
    (u >>= f).run.run s = match u.run.run s with
      | (.ok a, s) => (f a).run.run s
      | (.error e, s) => (.error e, s) := by
  show (ExceptT.bindCont f =<< u.run).run s = _
  simp only [Bind.bindLeft, StateT.run_bind]
  show (match u.run.run s with | (a, s) => _) = _
  rcases h : u.run.run s with ⟨_ | _, s'⟩ <;> rfl

/-- Two steps succeed exactly if the first one does and the second one does from there. -/
theorem run_bind_eq_ok {u : Action σ α} {f : α → Action σ β} {s t : σ} {b : β} :
    (u >>= f).run.run s = (.ok b, t) ↔
      ∃ a r, u.run.run s = (.ok a, r) ∧ (f a).run.run r = (.ok b, t) := by
  rw [run_bind]
  rcases u.run.run s with ⟨e | a, r⟩
  · constructor
    · intro h
      cases h
    · rintro ⟨a, r, h, -⟩
      cases h
  · constructor
    · exact fun h => ⟨a, r, rfl, h⟩
    · rintro ⟨a, r, h, h'⟩
      cases h
      exact h'

theorem run_eq_of_fst {u : Action σ α} {s : σ} {a : α} (h : (u.run.run s).1 = .ok a) :
    ∃ t, u.run.run s = (.ok a, t) :=
  ⟨_, Prod.ext h rfl⟩

theorem run_map (f : α → β) (u : Action σ α) (s : σ) :
    (f <$> u).run.run s = ((u.run.run s).1.map f, (u.run.run s).2) := by
  rw [map_eq_pure_bind, run_bind]
  rcases u.run.run s with ⟨_ | _, s'⟩ <;> rfl

theorem run_pure (a : α) (s : σ) : (pure a : Action σ α).run.run s = (.ok a, s) := rfl

theorem run_throw (e : Fault) (s : σ) : (throw e : Action σ α).run.run s = (.error e, s) := rfl

theorem run_get (s : σ) : (get : Action σ σ).run.run s = (.ok s, s) := rfl

theorem run_set (s t : σ) : (set t : Action σ PUnit).run.run s = (.ok ⟨⟩, t) := rfl

theorem run_modify (f : σ → σ) (s : σ) : (modify f : Action σ PUnit).run.run s = (.ok ⟨⟩, f s) :=
  rfl

theorem run_lift (e : Except Fault α) (s : σ) : (liftM e : Action σ α).run.run s = (e, s) := by
  cases e <;> rfl

/-- A computation that does not look at the state leaves it as it is. -/
theorem run_lift_eq_ok {r : Except Fault α} {a : α} {s t : σ}
    (h : (liftM r : Action σ α).run.run s = (.ok a, t)) : r = .ok a ∧ t = s := by
  rw [run_lift] at h
  cases h
  exact ⟨rfl, rfl⟩

theorem run_ite (c : Prop) [Decidable c] (u v : Action σ α) (s : σ) :
    (if c then u else v).run.run s = if c then u.run.run s else v.run.run s := by
  split <;> rfl

end Action

end VolumeCodec
