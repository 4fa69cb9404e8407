import VolumeCodec.Bitplane

namespace VolumeCodec

variable {ι κ σ α β : Type}

/-- What holds of a respondent after a question, whether it answered or broke off. -/
def Reply.Yields (r : Reply σ) (answered : Bool → σ → Prop) (halted : σ → Prop) : Prop :=
  match r with
  | .answer b s => answered b s
  | .halt s => halted s

theorem Reply.Yields.mono {r : Reply σ} {answered answered' : Bool → σ → Prop} {halted : σ → Prop}
    (h : r.Yields answered halted) (ha : ∀ b s, answered b s → answered' b s) :
    r.Yields answered' halted := by
  cases r with
  | answer b s => exact ha b s h
  | halt s => exact h

namespace Dialogue

/-- What holds of a respondent after a dialogue, whether it came to a result or was broken off. -/
def Ensures (reply : σ → ι → Reply σ) (d : Dialogue ι α) (s : σ) (post : α → σ → Prop)
    (halted : σ → Prop) : Prop :=
  match d.conduct reply s with
  | (some a, s) => post a s
  | (none, s) => halted s

variable {reply : σ → ι → Reply σ} {post : α → σ → Prop} {halted : σ → Prop}

theorem ensures_pure {a : α} {s : σ} (h : post a s) :
    (pure a : Dialogue ι α).Ensures reply s post halted := h

theorem ensures_question {q : ι} {s : σ} {post : Bool → σ → Prop}
    (h : (reply s q).Yields post halted) : (question q).Ensures reply s post halted := by
  unfold Ensures question conduct
  revert h
  cases reply s q with
  | answer b s => exact id
  | halt s => exact id

theorem ensures_bind {d : Dialogue ι α} {f : α → Dialogue ι β} {s : σ} {post : β → σ → Prop}
    (h : d.Ensures reply s (fun a s => (f a).Ensures reply s post halted) halted) :
    (d >>= f).Ensures reply s post halted := by
  unfold Ensures
  show match (d.bind f).conduct reply s with | (some a, s) => post a s | (none, s) => halted s
  rw [conduct_bind]
  unfold Ensures at h
  rcases hd : d.conduct reply s with ⟨_ | a, s'⟩
  · simpa [hd] using h
  · simpa [hd] using h

theorem Ensures.mono {d : Dialogue ι α} {s : σ} {post' : α → σ → Prop}
    (h : d.Ensures reply s post halted) (hp : ∀ a s, post a s → post' a s) :
    d.Ensures reply s post' halted := by
  unfold Ensures at h ⊢
  rcases hd : d.conduct reply s with ⟨_ | a, s'⟩
  · simpa [hd] using h
  · exact hp a s' (by simpa [hd] using h)

/-- The same dialogue with other names for its questions. -/
def relabel (f : ι → κ) : Dialogue ι α → Dialogue κ α
  | done a => done a
  | ask q next => ask (f q) fun b => (next b).relabel f

theorem conduct_relabel (f : ι → κ) (reply : σ → κ → Reply σ) (d : Dialogue ι α) (s : σ) :
    (d.relabel f).conduct reply s = d.conduct (fun s q => reply s (f q)) s := by
  induction d generalizing s with
  | done a => rfl
  | ask q next ih =>
    simp only [relabel, conduct]
    cases reply s (f q) with
    | answer b s => exact ih b s
    | halt s => rfl

/-- Answers a dialogue from a list of bits. Questions that are free are answered with yes and take
no bit. There is no result if a bit is missing, and the bits that are left over are returned. -/
def follow (free : ι → Bool) (use : σ → ι → Bool → σ) :
    Dialogue ι α → List Bool → σ → Option α × List Bool × σ
  | done a, bits, s => (some a, bits, s)
  | ask q next, bits, s =>
    if free q then (next true).follow free use bits s
    else
      match bits with
      | [] => (none, [], s)
      | b :: rest => (next b).follow free use rest (use s q b)

variable {free : ι → Bool} {use : σ → ι → Bool → σ}

theorem follow_free {q : ι} (h : free q = true) (next : Bool → Dialogue ι α) (bits : List Bool)
    (s : σ) : (ask q next).follow free use bits s = (next true).follow free use bits s := by
  cases bits <;> simp [follow, h]

theorem follow_nil {q : ι} (h : free q = false) (next : Bool → Dialogue ι α) (s : σ) :
    (ask q next).follow free use [] s = (none, [], s) := by
  simp [follow, h]

theorem follow_cons {q : ι} (h : free q = false) (next : Bool → Dialogue ι α) (b : Bool)
    (bits : List Bool) (s : σ) :
    (ask q next).follow free use (b :: bits) s = (next b).follow free use bits (use s q b) := by
  simp [follow, h]

theorem follow_bind (d : Dialogue ι α) (f : α → Dialogue ι β) (bits : List Bool) (s : σ) :
    (d.bind f).follow free use bits s =
      match d.follow free use bits s with
      | (some a, rest, s) => (f a).follow free use rest s
      | (none, rest, s) => (none, rest, s) := by
  induction d generalizing bits s with
  | done a => cases bits <;> rfl
  | ask q next ih =>
    rw [bind]
    cases hf : free q with
    | true =>
      rw [follow_free hf, follow_free hf]
      exact ih true bits s
    | false =>
      cases bits with
      | nil => rw [follow_nil hf, follow_nil hf]
      | cons b rest =>
        rw [follow_cons hf, follow_cons hf]
        exact ih b rest (use s q b)

theorem follow_of_no_bits (d : Dialogue ι α) (s : σ) : (d.follow free use [] s).2 = ([], s) := by
  induction d with
  | done a => rfl
  | ask q next ih =>
    cases hf : free q with
    | true => rw [follow_free hf, ih true]
    | false => rw [follow_nil hf]

theorem rest_of_follow_none {d : Dialogue ι α} {bits rest : List Bool} {s t : σ}
    (h : d.follow free use bits s = (none, rest, t)) : rest = [] := by
  induction d generalizing bits s with
  | done a => cases bits <;> simp [follow] at h
  | ask q next ih =>
    cases hf : free q with
    | true => exact ih true (by rwa [follow_free hf] at h)
    | false =>
      cases bits with
      | nil =>
        rw [follow_nil hf] at h
        exact (congrArg (fun r => r.2.1) h).symm
      | cons b bits => exact ih b (by rwa [follow_cons hf] at h)

theorem follow_append {d : Dialogue ι α} {a : α} {bits rest : List Bool} {s t : σ}
    (h : d.follow free use bits s = (some a, rest, t)) (more : List Bool) :
    d.follow free use (bits ++ more) s = (some a, rest ++ more, t) := by
  induction d generalizing bits s with
  | done a' =>
    simp only [follow, Prod.mk.injEq] at h ⊢
    obtain ⟨ha, hb, hs⟩ := h
    exact ⟨ha, by rw [hb], hs⟩
  | ask q next ih =>
    cases hf : free q with
    | true =>
      rw [follow_free hf] at h ⊢
      exact ih true h
    | false =>
      cases bits with
      | nil => simp [follow_nil hf] at h
      | cons b bits =>
        rw [List.cons_append, follow_cons hf] at *
        exact ih b h

/-- Does a dialogue, answered from these bits, use up every one of them? -/
def Exhausts (free : ι → Bool) (d : Dialogue ι α) (bits : List Bool) : Prop :=
  (d.follow free (fun _ _ _ => ()) bits ()).2.1 = []

/-- What is left over does not depend on what is made of the bits. -/
theorem follow_rest (d : Dialogue ι α) (bits : List Bool) (s : σ) :
    ((d.follow free use bits s).1, (d.follow free use bits s).2.1) =
      ((d.follow free (fun _ _ _ => ()) bits ()).1,
        (d.follow free (fun _ _ _ => ()) bits ()).2.1) := by
  induction d generalizing bits s with
  | done a => cases bits <;> rfl
  | ask q next ih =>
    cases hf : free q with
    | true =>
      rw [follow_free hf, follow_free hf]
      exact ih true bits s
    | false =>
      cases bits with
      | nil => rw [follow_nil hf, follow_nil hf]
      | cons b rest =>
        rw [follow_cons hf, follow_cons hf]
        exact ih b rest (use s q b)

theorem Exhausts.rest {d : Dialogue ι α} {bits : List Bool} (h : d.Exhausts free bits) (s : σ) :
    (d.follow free use bits s).2.1 = [] :=
  (congrArg Prod.snd (follow_rest d bits s)).trans h

/-- A dialogue that uses up some bits does not come to an end with fewer of them. -/
theorem Exhausts.starved {d : Dialogue ι α} {bits more : List Bool}
    (h : d.Exhausts free (bits ++ more)) (hm : more ≠ []) (s : σ) :
    (d.follow free use bits s).1 = none := by
  rcases hd : d.follow free use bits s with ⟨_ | a, rest, t⟩
  · rfl
  · have hr : (d.follow free use (bits ++ more) s).2.1 = [] := h.rest s
    rw [follow_append hd more] at hr
    simp only [List.append_eq_nil_iff] at hr
    exact absurd hr.2 hm

theorem Exhausts.prefix {d : Dialogue ι α} {bits more : List Bool}
    (h : d.Exhausts free (bits ++ more)) : d.Exhausts free bits := by
  by_cases hm : more = []
  · simpa [hm] using h
  · exact rest_of_follow_none (Prod.ext (h.starved hm ()) rfl)

theorem Exhausts.follow_bind {d : Dialogue ι α} {f : α → Dialogue ι β} {bits : List Bool}
    (h : d.Exhausts free bits) (s : σ) :
    ((d.bind f).follow free use bits s).2 = (d.follow free use bits s).2 := by
  have hr : (d.follow free use bits s).2.1 = [] := h.rest s
  rw [Dialogue.follow_bind]
  rcases hd : d.follow free use bits s with ⟨_ | a, rest, t⟩
  · rfl
  · rw [hd] at hr
    dsimp only at hr ⊢
    rw [hr]
    exact follow_of_no_bits _ _

theorem Exhausts.bind {d : Dialogue ι α} {f : α → Dialogue ι β} {bits : List Bool}
    (h : d.Exhausts free bits) : (d.bind f).Exhausts free bits :=
  (congrArg Prod.fst (h.follow_bind ())).trans h

end Dialogue

/-- Codes `count` planes one after the other, the lowest of them last, as one dialogue. Each question
comes with its plane. -/
def codePlanes (dims : Extents) (lowest : Int) : Nat → Progress → Dialogue (Int × Query) Progress
  | 0, p => .done p
  | n + 1, p => ((codePlane dims p).relabel (lowest + n, ·)).bind (codePlanes dims lowest n)

theorem conductPlanes_eq_conduct (dims : Extents) (reply : Int → σ → Query → Reply σ)
    (lowest : Int) (count : Nat) (p : Progress) (s : σ) :
    conductPlanes dims reply lowest count p s =
      (codePlanes dims lowest count p).conduct (fun s q => reply q.1 s q.2) s := by
  induction count generalizing p s with
  | zero => rfl
  | succ n ih =>
    rw [conductPlanes, codePlanes, Dialogue.conduct_bind, Dialogue.conduct_relabel]
    rcases (codePlane dims p).conduct (reply (lowest + n)) s with ⟨_ | p', s'⟩
    · rfl
    · exact ih p' s'

theorem codePlanes_add (dims : Extents) (lowest : Int) (m n : Nat) (p : Progress) :
    codePlanes dims lowest (m + n) p =
      (codePlanes dims (lowest + m) n p).bind (codePlanes dims lowest m) := by
  induction n generalizing p with
  | zero => rfl
  | succ n ih =>
    have hl : lowest + ((m + n : Nat) : Int) = lowest + m + n := by omega
    have hf : codePlanes dims lowest (m + n) =
        fun p => (codePlanes dims (lowest + m) n p).bind (codePlanes dims lowest m) := funext ih
    rw [← Nat.add_assoc, codePlanes, codePlanes, hl, hf, Dialogue.bind_bind]

end VolumeCodec
