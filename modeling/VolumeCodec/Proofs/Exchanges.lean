import VolumeCodec.Proofs.ArbitraryBits

namespace VolumeCodec

section Dialogues

variable {ι α β σ : Type}

namespace Dialogue

/-- The questions of a dialogue, each with the answer that a respondent gives to it. -/
def exchanges (reply : σ → ι → Reply σ) : Dialogue ι α → σ → List (ι × Bool)
  | done _, _ => []
  | ask q next, s =>
    match reply s q with
    | .answer b s => (q, b) :: (next b).exchanges reply s
    | .halt _ => []

/-- What relates a respondent before and after each of its answers relates it before and after a
dialogue that comes to a result. -/
theorem exchanges_induct {reply : σ → ι → Reply σ} {R : σ → List (ι × Bool) → σ → Prop}
    (refl : ∀ s, R s [] s)
    (step : ∀ {s q b t log u}, reply s q = .answer b t → R t log u → R s ((q, b) :: log) u)
    {d : Dialogue ι α} {s t : σ} {a : α} (h : d.conduct reply s = (some a, t)) :
    R s (d.exchanges reply s) t := by
  induction d generalizing s with
  | done a' =>
    cases h
    exact refl t
  | ask q next ih =>
    rw [conduct] at h
    rw [exchanges]
    cases hr : reply s q with
    | answer b s' =>
      rw [hr] at h
      exact step hr (ih b h)
    | halt s' =>
      rw [hr] at h
      cases h

/-- The result of a dialogue and the exchanges that lead to it have a property, whatever the answers
are. -/
def Records (post : List (ι × Bool) → α → Prop) : Dialogue ι α → Prop
  | done a => post [] a
  | ask q next => ∀ b, (next b).Records fun log a => post ((q, b) :: log) a

theorem Records.mono {d : Dialogue ι α} {post post' : List (ι × Bool) → α → Prop}
    (h : d.Records post) (hp : ∀ log a, post log a → post' log a) : d.Records post' := by
  induction d generalizing post post' with
  | done a => exact hp [] a h
  | ask q next ih => exact fun b => ih b (h b) fun log a => hp ((q, b) :: log) a

theorem records_bind {d : Dialogue ι α} {f : α → Dialogue ι β}
    {post : List (ι × Bool) → α → Prop} {post' : List (ι × Bool) → β → Prop} (h : d.Records post)
    (hf : ∀ log a, post log a → (f a).Records fun log' b => post' (log ++ log') b) :
    (d >>= f).Records post' := by
  induction d generalizing post post' with
  | done a => exact hf [] a h
  | ask q next ih => exact fun b => ih b (h b) fun log a => hf ((q, b) :: log) a

theorem records_question_bind {q : ι} {f : Bool → Dialogue ι β}
    {post : List (ι × Bool) → β → Prop}
    (hf : ∀ b, (f b).Records fun log c => post ((q, b) :: log) c) :
    (question q >>= f).Records post := hf

theorem Records.of_conduct {d : Dialogue ι α} {post : List (ι × Bool) → α → Prop}
    (h : d.Records post) {reply : σ → ι → Reply σ} {s t : σ} {a : α}
    (hc : d.conduct reply s = (some a, t)) : post (d.exchanges reply s) a := by
  induction d generalizing post s with
  | done a' =>
    cases hc
    exact h
  | ask q next ih =>
    rw [conduct] at hc
    rw [exchanges]
    cases hr : reply s q with
    | answer b s' =>
      rw [hr] at hc
      exact ih b (h b) hc
    | halt s' =>
      rw [hr] at hc
      cases hc

end Dialogue

end Dialogues

/-- The answers that are not implied, each of which takes a bit. -/
def codedAnswers (log : List (Query × Bool)) : List Bool :=
  (log.filter fun e => !e.1.isImplied).map Prod.snd

@[simp] theorem codedAnswers_nil : codedAnswers [] = [] := rfl

theorem codedAnswers_cons (q : Query) (b : Bool) (log : List (Query × Bool)) :
    codedAnswers ((q, b) :: log) =
      (if q.isImplied then [] else [b]) ++ codedAnswers log := by
  cases h : q.isImplied with
  | true => simp [codedAnswers, h]
  | false => simp [codedAnswers, h]

variable {α β κ : Type} [Magnitude α]

theorem Encoder.bits_of_answer {task : Encoder.Task α κ} {plane : Int} {s t : Encoder.State α κ}
    {q : Query} {b : Bool} (h : Encoder.reply task plane s q = .answer b t) :
    t.bits.reverse = s.bits.reverse ++ if q.isImplied then [] else [b] := by
  cases hq : q.isImplied with
  | true =>
    rw [reply_of_implied task plane s hq] at h
    cases h
    simp
  | false =>
    rw [reply_of_coded task plane s hq] at h
    rcases emit_cases task (prepare task plane s q).1 (prepare task plane s q).2 with
      ⟨he, -⟩ | ⟨-, ⟨he, -⟩ | ⟨he, -⟩⟩
    · rw [he] at h
      cases h
    · rw [he] at h
      cases h
    · rw [he] at h
      cases h
      simp [State.write]

/-- The bits that an encoder adds in the course of a dialogue are its coded answers. -/
theorem Encoder.bits_of_conduct {task : Encoder.Task α κ} {plane : Int} {d : Coding β}
    {s t : Encoder.State α κ} {a : β}
    (h : d.conduct (Encoder.reply task plane) s = (some a, t)) :
    t.bits.reverse =
      s.bits.reverse ++ codedAnswers (d.exchanges (Encoder.reply task plane) s) := by
  refine Dialogue.exchanges_induct (R := fun s log t =>
    t.bits.reverse = s.bits.reverse ++ codedAnswers log) (fun s => by simp) ?_ h
  intro s q b t log u hr hu
  rw [hu, bits_of_answer hr, codedAnswers_cons, List.append_assoc]

theorem Tape.ahead_snoc (t : Tape) (n : Nat) :
    t.ahead (n + 1) = t.ahead n ++ [t.bit (t.readPosition + n)] := by
  rw [ahead, List.range_succ, List.map_append, List.map_singleton, ahead]

namespace Decoder

/-- A decoder has read a tape from some position on, and can go on reading it. -/
structure State.Reads (s : State α) (tape : Tape) : Prop where
  fresh : s.tape.IsFresh
  moved : tape.HasMoved s.bitCount s.tape

variable {tape : Tape} {limit : Nat} {plane : Int} {s t : State α}

theorem State.Reads.initial {dims : Extents} (h : tape.IsFresh) :
    (State.initial α dims tape).Reads tape :=
  ⟨h, .refl tape⟩

theorem bits_of_answer {q : Query} {b : Bool} (hs : s.Reads tape)
    (h : reply limit plane s q = .answer b t) :
    t.Reads tape ∧
      tape.ahead t.bitCount = tape.ahead s.bitCount ++ if q.isImplied then [] else [b] := by
  change respond limit s (plane, q) = .answer b t at h
  have hfree : isFree (plane, q) = q.isImplied := rfl
  cases hq : q.isImplied with
  | true =>
    rw [respond_of_free (hfree.trans hq)] at h
    cases h
    exact ⟨hs, by simp⟩
  | false =>
    by_cases hlt : s.bitCount < limit
    · obtain ⟨u, hr, htape, hcount, -⟩ := respond_of_coded (hfree.trans hq) hlt
      rw [hr] at h
      cases h
      refine ⟨⟨htape ▸ Tape.isFresh_readBit hs.fresh, ?_⟩, ?_⟩
      · rw [htape, hcount, Nat.add_comm]
        exact hs.moved.trans (.readBit s.tape)
      · have hbit := Tape.readBit_fst hs.fresh
        rw [hs.moved.bit, hs.moved.readPosition] at hbit
        rw [hcount, Tape.ahead_snoc, hbit]
        rfl
    · rw [respond_at_limit (hfree.trans hq) (Nat.not_lt.mp hlt)] at h
      cases h

/-- The bits that a decoder reads in the course of a dialogue are its coded answers. -/
theorem bits_of_conduct {d : Coding β} {a : β} (hs : s.Reads tape)
    (h : d.conduct (reply limit plane) s = (some a, t)) :
    t.Reads tape ∧ tape.ahead t.bitCount =
      tape.ahead s.bitCount ++ codedAnswers (d.exchanges (reply limit plane) s) := by
  refine Dialogue.exchanges_induct (R := fun s log t => s.Reads tape → t.Reads tape ∧
    tape.ahead t.bitCount = tape.ahead s.bitCount ++ codedAnswers log)
    (fun s hs => ⟨hs, by simp⟩) ?_ h hs
  intro s q b t log u hr hu hs
  obtain ⟨ht, hbits⟩ := bits_of_answer hs hr
  obtain ⟨hu, hlog⟩ := hu ht
  refine ⟨hu, ?_⟩
  rw [hlog, hbits, codedAnswers_cons, List.append_assoc]

theorem reads_of_planes {dims : Extents} {lowest : Int} {count : Nat} {p p' : Progress}
    (hs : s.Reads tape)
    (h : conductPlanes dims (reply limit) lowest count p s = (some p', t)) : t.Reads tape := by
  induction count generalizing p s with
  | zero =>
    cases h
    exact hs
  | succ n ih =>
    rw [conductPlanes] at h
    rcases hc : (codePlane dims p).conduct (reply limit (lowest + n)) s with ⟨_ | p'', s'⟩
    · rw [hc] at h
      cases h
    · rw [hc] at h
      exact ih (bits_of_conduct hs hc).1 h

end Decoder

end VolumeCodec
