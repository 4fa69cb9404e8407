namespace VolumeCodec

/-- A computation that asks yes-or-no questions on its way to a result. It does not say who answers
them, so that a coder that knows the answers and one that is told them can hold the same one. -/
inductive Dialogue (ι α : Type)
  | done (result : α)
  | ask (question : ι) (next : Bool → Dialogue ι α)

namespace Dialogue

def bind {ι α β : Type} (d : Dialogue ι α) (f : α → Dialogue ι β) : Dialogue ι β :=
  match d with
  | done a => f a
  | ask q next => ask q fun b => (next b).bind f

instance {ι : Type} : Monad (Dialogue ι) where
  pure := done
  bind := bind

theorem bind_done {ι α : Type} (d : Dialogue ι α) : d.bind done = d := by
  induction d with
  | done a => rfl
  | ask q next ih => simp only [bind, ih]

theorem bind_bind {ι α β γ : Type} (d : Dialogue ι α) (f : α → Dialogue ι β)
    (g : β → Dialogue ι γ) : (d.bind f).bind g = d.bind fun a => (f a).bind g := by
  induction d with
  | done a => rfl
  | ask q next ih => simp only [bind, ih]

instance {ι : Type} : LawfulMonad (Dialogue ι) :=
  LawfulMonad.mk' (Dialogue ι)
    (fun d => bind_done d)
    (fun _ _ => rfl)
    (fun d f g => bind_bind d f g)

def question {ι : Type} (q : ι) : Dialogue ι Bool :=
  ask q done

end Dialogue

inductive Reply (σ : Type)
  | answer (bit : Bool) (state : σ)
  | halt (state : σ)

/-- Holds a dialogue with a respondent. There is no result if the respondent breaks off. -/
def Dialogue.conduct {ι σ α : Type} (reply : σ → ι → Reply σ) : Dialogue ι α → σ → Option α × σ
  | done a, s => (some a, s)
  | ask q next, s =>
    match reply s q with
    | .answer b s => (next b).conduct reply s
    | .halt s => (none, s)

theorem Dialogue.conduct_bind {ι σ α β : Type} (reply : σ → ι → Reply σ) (d : Dialogue ι α)
    (f : α → Dialogue ι β) (s : σ) :
    (d.bind f).conduct reply s =
      match d.conduct reply s with
      | (some a, s) => (f a).conduct reply s
      | (none, s) => (none, s) := by
  induction d generalizing s with
  | done a => rfl
  | ask q next ih =>
    simp only [bind, conduct]
    cases reply s q with
    | answer b s => exact ih b s
    | halt s => rfl

end VolumeCodec
