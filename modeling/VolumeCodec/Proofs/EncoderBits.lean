import VolumeCodec.Encoder
import VolumeCodec.Proofs.Conduct

namespace VolumeCodec

variable {α κ τ β : Type}

/-- An implied answer is known to both sides and costs no bit. -/
def Query.isImplied : Query → Bool
  | .significance _ implied => implied
  | .sign _ => false
  | .refinement _ => false

/-- A question of some plane is free if its answer is implied. -/
def isFree (q : Int × Query) : Bool :=
  q.2.isImplied

namespace Encoder

/-- The state after a bit has been written. -/
def State.write (s : State α κ) (bit : Bool) : State α κ :=
  { s with bits := bit :: s.bits, bitCount := s.bitCount + 1 }

theorem emit_cases (task : Task α κ) (bit : Bool) (s : State α κ) :
    (emit task bit s = .halt s ∧ task.limit.isReached s.bitCount = true) ∨
    (task.limit.isReached s.bitCount = false ∧
      ((emit task bit s = .halt (s.write bit) ∧
          (task.limit.isReached (s.bitCount + 1) || task.goal.met s.missing) = true) ∨
        (emit task bit s = .answer bit (s.write bit) ∧
          (task.limit.isReached (s.bitCount + 1) || task.goal.met s.missing) = false))) := by
  unfold emit
  cases hl : task.limit.isReached s.bitCount with
  | true => exact .inl ⟨rfl, rfl⟩
  | false =>
    refine .inr ⟨rfl, ?_⟩
    cases hr : (task.limit.isReached (s.bitCount + 1) || task.goal.met s.missing) with
    | true =>
      refine .inl ⟨?_, rfl⟩
      simp only [Bool.false_eq_true, if_false]
      rw [if_pos hr]
      rfl
    | false =>
      refine .inr ⟨?_, rfl⟩
      simp only [Bool.false_eq_true, if_false]
      rw [if_neg (by simp [hr])]
      rfl

variable [Magnitude α]

/-- The bit that answers a question, and the state in which it is written: residuals change before
the bit goes out. -/
def prepare (task : Task α κ) (plane : Int) (s : State α κ) : Query → Bool × State α κ
  | .significance subject _ =>
    (subject.any task.dims (reaches (Magnitude.pow2 plane) s.residuals), s)
  | .sign i => (task.signs.getD i true, reduce task (Magnitude.pow2 plane) i s)
  | .refinement i =>
    if reaches (Magnitude.pow2 plane) s.residuals i then
      (true, reduce task (Magnitude.pow2 plane) i s)
    else (false, s)

theorem reply_of_implied (task : Task α κ) (plane : Int) (s : State α κ) {q : Query}
    (h : q.isImplied = true) : reply task plane s q = .answer true s := by
  cases q with
  | significance subject implied =>
    cases implied with
    | true => rfl
    | false => cases h
  | sign i => cases h
  | refinement i => cases h

theorem reply_of_coded (task : Task α κ) (plane : Int) (s : State α κ) {q : Query}
    (h : q.isImplied = false) :
    reply task plane s q = emit task (prepare task plane s q).1 (prepare task plane s q).2 := by
  cases q with
  | significance subject implied =>
    cases implied with
    | true => cases h
    | false => rfl
  | sign i => rfl
  | refinement i =>
    simp only [reply, prepare]
    split <;> rfl

@[simp] theorem bits_prepare (task : Task α κ) (plane : Int) (s : State α κ) (q : Query) :
    (prepare task plane s q).2.bits = s.bits := by
  cases q with
  | significance subject implied => rfl
  | sign i => rfl
  | refinement i =>
    simp only [prepare]
    split <;> rfl

@[simp] theorem bitCount_prepare (task : Task α κ) (plane : Int) (s : State α κ) (q : Query) :
    (prepare task plane s q).2.bitCount = s.bitCount := by
  cases q with
  | significance subject implied => rfl
  | sign i => rfl
  | refinement i =>
    simp only [prepare]
    split <;> rfl

/-- The replies of an encoder to questions that come with their plane. -/
def respond (task : Task α κ) (s : State α κ) (q : Int × Query) : Reply (State α κ) :=
  reply task q.1 s q.2

/-- An encoder together with a follower who is told every bit that is written. -/
def followed (task : Task α κ) (use : τ → Int × Query → Bool → τ) (s : State α κ × τ)
    (q : Int × Query) : Reply (State α κ × τ) :=
  match respond task s.1 q with
  | .answer b t => .answer b (t, if isFree q then s.2 else use s.2 q b)
  | .halt t =>
    .halt (t, if s.1.bitCount < t.bitCount then use s.2 q (t.bits.headD true) else s.2)

theorem followed_yields (task : Task α κ) (use : τ → Int × Query → Bool → τ) {s : State α κ × τ}
    {q : Int × Query} {answered : Bool → State α κ × τ → Prop} {halted : State α κ × τ → Prop}
    (hq : q.2.isImplied = false) (hroom : task.limit.isReached s.1.bitCount = false)
    (hh : halted ((prepare task q.1 s.1 q.2).2.write (prepare task q.1 s.1 q.2).1,
      use s.2 q (prepare task q.1 s.1 q.2).1))
    (ha : task.limit.isReached (s.1.bitCount + 1) = false →
      answered (prepare task q.1 s.1 q.2).1
        ((prepare task q.1 s.1 q.2).2.write (prepare task q.1 s.1 q.2).1,
          use s.2 q (prepare task q.1 s.1 q.2).1)) :
    (followed task use s q).Yields answered halted := by
  have hfree : isFree q = false := hq
  unfold followed respond
  rw [reply_of_coded task q.1 s.1 hq]
  rcases emit_cases task (prepare task q.1 s.1 q.2).1 (prepare task q.1 s.1 q.2).2 with
    ⟨-, hr⟩ | ⟨-, ⟨he, -⟩ | ⟨he, hr⟩⟩
  · rw [bitCount_prepare, hroom] at hr
    cases hr
  · rw [he]
    simpa [Reply.Yields, State.write] using hh
  · rw [bitCount_prepare, Bool.or_eq_false_iff] at hr
    rw [he]
    simpa [Reply.Yields, hfree] using ha hr.1

theorem conduct_followed (task : Task α κ) (use : τ → Int × Query → Bool → τ)
    (d : Dialogue (Int × Query) β) (s : State α κ) (t : τ) :
    d.conduct (respond task) s = ((d.conduct (followed task use) (s, t)).1,
      (d.conduct (followed task use) (s, t)).2.1) := by
  induction d generalizing s t with
  | done a => rfl
  | ask q next ih =>
    simp only [Dialogue.conduct, followed]
    cases respond task s q with
    | answer b s' => exact ih b s' _
    | halt s' => rfl

/-- What a follower makes of the bits that are written is what anyone makes of them who is given
them afterwards. They are used up, whether or not the encoder was stopped. -/
theorem followed_eq_follow (task : Task α κ) (use : τ → Int × Query → Bool → τ)
    (d : Dialogue (Int × Query) β) (s : State α κ) (t : τ) :
    ∃ written : List Bool,
      (d.conduct (followed task use) (s, t)).2.1.bits = written.reverse ++ s.bits ∧
      (d.conduct (followed task use) (s, t)).2.1.bitCount = s.bitCount + written.length ∧
      (d.follow isFree use written t).2 = ([], (d.conduct (followed task use) (s, t)).2.2) ∧
      ∀ a, (d.conduct (followed task use) (s, t)).1 = some a →
        (d.follow isFree use written t).1 = some a := by
  induction d generalizing s t with
  | done a => exact ⟨[], rfl, rfl, rfl, fun _ h => h⟩
  | ask q next ih =>
    simp only [Dialogue.conduct, followed]
    cases hf : q.2.isImplied with
    | true =>
      have hq : isFree q = true := hf
      simp only [respond, reply_of_implied task q.1 s hf, hq, if_true]
      obtain ⟨written, hbits, hcount, hrest, hres⟩ := ih true s t
      exact ⟨written, hbits, hcount, by rw [Dialogue.follow_free hq, hrest],
        by rw [Dialogue.follow_free hq]; exact hres⟩
    | false =>
      have hq : isFree q = false := hf
      simp only [respond, reply_of_coded task q.1 s hf]
      -- The encoder stops before this bit, right behind it, or goes on.
      rcases emit_cases task (prepare task q.1 s q.2).1 (prepare task q.1 s q.2).2 with
        ⟨he, -⟩ | ⟨-, ⟨he, -⟩ | ⟨he, -⟩⟩
      · refine ⟨[], ?_, ?_, ?_, fun a h => ?_⟩
        · simp [he]
        · simp [he]
        · rw [Dialogue.follow_of_no_bits]
          simp [he]
        · simp [he] at h
      · refine ⟨[(prepare task q.1 s q.2).1], ?_, ?_, ?_, fun a h => ?_⟩
        · simp [he, State.write]
        · simp [he, State.write]
        · rw [Dialogue.follow_cons hq, Dialogue.follow_of_no_bits]
          simp [he, State.write]
        · simp [he] at h
      · simp only [he, hq, Bool.false_eq_true, if_false]
        obtain ⟨written, hbits, hcount, hrest, hres⟩ :=
          ih (prepare task q.1 s q.2).1 ((prepare task q.1 s q.2).2.write _)
            (use t q (prepare task q.1 s q.2).1)
        refine ⟨(prepare task q.1 s q.2).1 :: written, ?_, ?_, ?_, ?_⟩
        · rw [hbits]
          simp [State.write]
        · rw [hcount]
          simp [State.write]
          omega
        · rw [Dialogue.follow_cons hq, hrest]
        · rw [Dialogue.follow_cons hq]
          exact hres

/-- The same task without a limit and without a goal. -/
def Task.unlimited (task : Task α κ) : Task α Unit :=
  ⟨task.dims, task.signs, none, .never⟩

/-- Two encoders that have done the same so far, though they may go by different goals. -/
structure Agrees {κ' : Type} (s : State α κ) (u : State α κ') : Prop where
  residuals : s.residuals = u.residuals
  bits : s.bits = u.bits
  bitCount : s.bitCount = u.bitCount

theorem prepare_agrees (task : Task α κ) (plane : Int) {s : State α κ} {u : State α Unit}
    (h : Agrees s u) (q : Query) :
    (prepare task plane s q).1 = (prepare task.unlimited plane u q).1 ∧
      Agrees (prepare task plane s q).2 (prepare task.unlimited plane u q).2 := by
  cases q with
  | significance subject implied =>
    simp only [prepare, h.residuals]
    exact ⟨rfl, h⟩
  | sign i =>
    simp only [prepare]
    exact ⟨rfl, ⟨by simp only [reduce, h.residuals], h.bits, h.bitCount⟩⟩
  | refinement i =>
    simp only [prepare, h.residuals]
    split
    next => exact ⟨rfl, ⟨by simp only [reduce, h.residuals], h.bits, h.bitCount⟩⟩
    next => exact ⟨rfl, h⟩

theorem respond_unlimited (task : Task α κ) (u : State α Unit) {q : Int × Query}
    (h : q.2.isImplied = false) :
    respond task.unlimited u q = .answer (prepare task.unlimited q.1 u q.2).1
      ((prepare task.unlimited q.1 u q.2).2.write (prepare task.unlimited q.1 u q.2).1) := by
  rw [respond, reply_of_coded _ _ _ h]
  rfl

theorem bits_conduct (task : Task α κ) (d : Dialogue (Int × Query) β) (s : State α κ) :
    ∃ more, (d.conduct (respond task) s).2.bits = more ++ s.bits := by
  obtain ⟨written, hbits, -⟩ := followed_eq_follow task (fun _ _ _ => ()) d s ()
  have hc := conduct_followed task (fun _ _ _ => ()) d s ()
  exact ⟨written.reverse, by rw [hc]; exact hbits⟩

/-- A limit or a goal does not change what is written before it stops the encoder. -/
theorem conduct_unlimited (task : Task α κ) (d : Dialogue (Int × Query) β) (s : State α κ)
    (u : State α Unit) (h : Agrees s u) :
    (∃ a, (d.conduct (respond task) s).1 = some a ∧
      (d.conduct (respond task.unlimited) u).1 = some a ∧
      Agrees (d.conduct (respond task) s).2 (d.conduct (respond task.unlimited) u).2) ∨
    ((d.conduct (respond task) s).1 = none ∧
      ∃ more, (d.conduct (respond task.unlimited) u).2.bits =
        more ++ (d.conduct (respond task) s).2.bits) := by
  induction d generalizing s u with
  | done a => exact .inl ⟨a, rfl, rfl, h⟩
  | ask q next ih =>
    simp only [Dialogue.conduct]
    cases hf : q.2.isImplied with
    | true =>
      simp only [respond, reply_of_implied _ q.1 _ hf]
      exact ih true s u h
    | false =>
      obtain ⟨hbit, hprep⟩ := prepare_agrees task q.1 h q.2
      simp only [respond_unlimited task u hf, ← hbit]
      simp only [respond, reply_of_coded task q.1 s hf]
      have hu := bits_conduct task.unlimited (next (prepare task q.1 s q.2).1)
        ((prepare task.unlimited q.1 u q.2).2.write (prepare task q.1 s q.2).1)
      obtain ⟨more, hmore⟩ := hu
      rcases emit_cases task (prepare task q.1 s q.2).1 (prepare task q.1 s q.2).2 with
        ⟨he, -⟩ | ⟨-, ⟨he, -⟩ | ⟨he, -⟩⟩
      · refine .inr ⟨by simp [he], more ++ [(prepare task q.1 s q.2).1], ?_⟩
        rw [hmore, he]
        simp [State.write, h.bits]
      · refine .inr ⟨by simp [he], more, ?_⟩
        rw [hmore, he]
        simp [State.write, h.bits]
      · rw [he]
        exact ih _ _ _ ⟨hprep.residuals, by simp only [State.write, hprep.bits],
          by simp only [State.write, hprep.bitCount]⟩

theorem conduct_unlimited_isSome (task : Task α κ) (d : Dialogue (Int × Query) β)
    (u : State α Unit) : (d.conduct (respond task.unlimited) u).1.isSome = true := by
  induction d generalizing u with
  | done a => rfl
  | ask q next ih =>
    simp only [Dialogue.conduct]
    cases hf : q.2.isImplied with
    | true =>
      simp only [respond, reply_of_implied _ q.1 _ hf]
      exact ih true u
    | false =>
      simp only [respond_unlimited task u hf]
      exact ih _ _

theorem bitCount_conduct_limit {task : Task α κ} {n : Nat} (hl : task.limit = some n)
    (hg : ∀ k, task.goal.met k = false) (d : Dialogue (Int × Query) β) (s : State α κ)
    (hs : s.bitCount ≤ n) :
    (d.conduct (respond task) s).2.bitCount ≤ n ∧
      ((d.conduct (respond task) s).1 = none → (d.conduct (respond task) s).2.bitCount = n) := by
  induction d generalizing s with
  | done a => exact ⟨hs, fun h => by cases h⟩
  | ask q next ih =>
    simp only [Dialogue.conduct]
    cases hf : q.2.isImplied with
    | true =>
      simp only [respond, reply_of_implied _ q.1 _ hf]
      exact ih true s hs
    | false =>
      simp only [respond, reply_of_coded task q.1 s hf]
      have hreach : ∀ k, task.limit.isReached k = decide (n ≤ k) := fun k => by rw [hl]; rfl
      rcases emit_cases task (prepare task q.1 s q.2).1 (prepare task q.1 s q.2).2 with
        ⟨he, hr⟩ | ⟨hn, ⟨he, hr⟩ | ⟨he, hr⟩⟩
      · rw [hreach, bitCount_prepare, decide_eq_true_eq] at hr
        rw [he]
        simp only [bitCount_prepare, forall_const]
        omega
      · rw [hreach, bitCount_prepare, decide_eq_false_iff_not] at hn
        rw [hreach, hg, bitCount_prepare, Bool.or_false, decide_eq_true_eq] at hr
        rw [he]
        simp only [State.write, bitCount_prepare, forall_const]
        omega
      · rw [hreach, bitCount_prepare, decide_eq_false_iff_not] at hn
        rw [he]
        exact ih _ _ (by simp only [State.write, bitCount_prepare]; omega)

end Encoder

end VolumeCodec
