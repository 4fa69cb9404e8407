import VolumeCodec.Proofs.History

namespace VolumeCodec

open ExactPlanes (counts)

variable {α κ τ : Type} [Magnitude α]

/-- The difference, if there is one, that an encoder forms to answer a question: what is left of an
element, and the threshold that is taken off. -/
def Encoder.subtraction (plane : Int) (s : Encoder.State α κ) (q : Query) : List (α × α) :=
  let threshold : α := Magnitude.pow2 plane
  match q with
  | .significance _ _ => []
  | .sign i => [(s.residuals.getD i Magnitude.zero, threshold)]
  | .refinement i =>
    if reaches threshold s.residuals i then [(s.residuals.getD i Magnitude.zero, threshold)]
    else []

/-- No residual changes but by such a difference. -/
theorem Encoder.residuals_prepare (task : Encoder.Task α κ) (plane : Int) (s : Encoder.State α κ)
    (q : Query) :
    (subtraction plane s q = [] ∧ (prepare task plane s q).2.residuals = s.residuals) ∨
      ∃ i threshold, subtraction plane s q = [(s.residuals.getD i Magnitude.zero, threshold)] ∧
        (prepare task plane s q).2.residuals = s.residuals.setIfInBounds i
          (Magnitude.sub (s.residuals.getD i Magnitude.zero) threshold) := by
  cases q with
  | significance subject implied => exact .inl ⟨rfl, rfl⟩
  | sign i => exact .inr ⟨i, _, rfl, rfl⟩
  | refinement i =>
    unfold subtraction prepare
    dsimp only
    split
    next => exact .inr ⟨i, _, rfl, rfl⟩
    next => exact .inl ⟨rfl, rfl⟩

/-- All differences that an encoder forms. -/
def Encoder.subtractions (task : Encoder.Task α κ) (magnitudes : Array α) : List (α × α) :=
  notes (fun plane s q _ => subtraction plane s q) task magnitudes

/-- The sum, if there is one, that a bit makes a decoder form: what has been recovered of an
element, and the threshold that is added. -/
def Sketch.addition (k : Sketch α) (plane : Int) (q : Query) (b : Bool) : List (α × α) :=
  match q with
  | .refinement i => if b then [(k.magnitudes.getD i Magnitude.zero, Magnitude.pow2 plane)] else []
  | _ => []

/-- No magnitude changes but by such a sum, or by being set to a threshold. -/
theorem Sketch.magnitudes_use (k : Sketch α) (plane : Int) (q : Query) (b : Bool) :
    (∃ i threshold, k.addition plane q b = [(k.magnitudes.getD i Magnitude.zero, threshold)] ∧
        (k.use (plane, q) b).magnitudes =
          k.magnitudes.modify i (Magnitude.add · threshold)) ∨
      k.addition plane q b = [] ∧ ((k.use (plane, q) b).magnitudes = k.magnitudes ∨
        ∃ i, (k.use (plane, q) b).magnitudes =
          k.magnitudes.setIfInBounds i (Magnitude.pow2 plane)) := by
  cases q with
  | significance subject implied => exact .inr ⟨rfl, .inl rfl⟩
  | sign i => exact .inr ⟨rfl, .inr ⟨i, rfl⟩⟩
  | refinement i =>
    cases b with
    | true => exact .inl ⟨i, _, rfl, rfl⟩
    | false => exact .inr ⟨rfl, .inl rfl⟩

/-- All sums that a decoder forms. -/
def Decoder.additions (α : Type) [Magnitude α] (outline : Outline) (limit : Nat) (tape : Tape) :
    List (α × α) :=
  notes (fun plane s q r =>
    match r with
    | .answer b _ => s.sketch.addition plane q b
    | .halt _ => []) outline limit tape

theorem Decoder.additions_eq_turns {outline : Outline} {bits : List Bool} {t : Tape}
    (hb : (t.seekRead 0).ahead bits.length = bits) :
    Decoder.additions α outline bits.length t =
      (Trail.ofBits α outline.dims outline.topPlane.toInt bits).flatMap fun x =>
        x.before.addition x.question.1 x.question.2 x.bit := by
  refine notes_eq_turns (fun s t q b _ => rfl) (fun _ _ => rfl) (fun s q h => ?_) hb
  obtain ⟨plane, q⟩ := q
  cases q with
  | significance subject implied => rfl
  | sign i => cases h
  | refinement i => cases h

/-- One who follows an encoder and keeps the turns, with a note of the differences that the encoder
forms. -/
def Encoder.watched (task : Encoder.Task α κ)
    (s : (Encoder.State α κ × (Sketch α × Trail α)) × List (α × α)) (q : Int × Query) :
    Reply ((Encoder.State α κ × (Sketch α × Trail α)) × List (α × α)) :=
  noting (fun s q _ => Encoder.subtraction q.1 s.1 q.2)
    (Encoder.followed task (keeping Sketch.use)) s q

theorem Encoder.followed_watched (task : Encoder.Task α κ)
    (s : (Encoder.State α κ × (Sketch α × Trail α)) × List (α × α)) (q : Int × Query) :
    Encoder.followed task (keeping Sketch.use) s.1 q =
      (Encoder.watched task s q).map Prod.fst := by
  unfold Encoder.watched noting
  cases Encoder.followed task (keeping Sketch.use) s.1 q <;> rfl

theorem Encoder.noting_watched (task : Encoder.Task α κ)
    (s : (Encoder.State α κ × (Sketch α × Trail α)) × List (α × α)) (q : Int × Query) :
    noting (fun s q _ => Encoder.subtraction q.1 s q.2) (Encoder.respond task) (s.1.1, s.2) q =
      (Encoder.watched task s q).map fun t => (t.1.1, t.2) := by
  unfold Encoder.watched noting Encoder.followed
  dsimp only
  cases Encoder.respond task s.1.1 q <;> rfl

variable [ExactPlanes α]

/-- The difference of two numbers of units, which is one itself. -/
def IsExactDifference (x : α × α) : Prop :=
  ∃ m n, counts x.1 (m + n) ∧ counts x.2 n ∧ counts (Magnitude.sub x.1 x.2) m

/-- The sum of two numbers of units, which is one itself. -/
def IsExactSum (x : α × α) : Prop :=
  ∃ m n, counts x.1 m ∧ counts x.2 n ∧ counts (Magnitude.add x.1 x.2) (m + n)

section Step

variable {task : Encoder.Task α κ} {m : Nat → Nat} {e n : Nat} {ph ph' : Nat → Phase}
  {s t : Encoder.State α κ × Sketch α} {q : Query} {b : Bool} {a r : α} {x : α × α}

theorem isExactDifference_threshold (he : Magnitude.minPlane α + e ≤ Magnitude.maxPlane α)
    (ha : counts a n) (hr : counts r (n % 2 ^ (e + 1))) (hle : 2 ^ e ≤ n % 2 ^ (e + 1)) :
    IsExactDifference (r, (Magnitude.pow2 (Magnitude.minPlane α + e) : α)) := by
  obtain ⟨hsplit, hsub⟩ := counts_sub_threshold he ha hr hle
  rw [hsplit] at hr
  exact ⟨_, _, hr, ExactPlanes.pow2 e he, hsub⟩

theorem isExactSum_threshold (he : Magnitude.minPlane α + e ≤ Magnitude.maxPlane α)
    (ha : counts a n) (hr : counts r (n - n % 2 ^ (e + 1))) (hle : 2 ^ e ≤ n % 2 ^ (e + 1)) :
    IsExactSum (r, (Magnitude.pow2 (Magnitude.minPlane α + e) : α)) := by
  obtain ⟨hsum, hadd⟩ := counts_add_threshold he ha hr hle
  rw [← hsum] at hadd
  exact ⟨_, _, hr, ExactPlanes.pow2 e he, hadd⟩

theorem Running.reaches_iff (h : Running task m e ph s) {i : Nat} (hi : i < task.dims.volume)
    (hph : ph i = .old) (he : Magnitude.minPlane α + e ≤ Magnitude.maxPlane α) :
    Encoder.reaches (Magnitude.pow2 (Magnitude.minPlane α + e)) s.1.residuals i = true ↔
      2 ^ e ≤ m i % 2 ^ (e + 1) := by
  have hres := h.inStep.residual i hi
  rw [hph] at hres
  rw [Encoder.reaches, ExactPlanes.reaches hres (ExactPlanes.pow2 e he), decide_eq_true_iff]
  rfl

/-- A threshold is only taken off a number that has the bit. -/
theorem Running.exact_subtraction (h : Running task m e ph s) (h' : Running task m e ph' t)
    (he : Magnitude.minPlane α + e ≤ Magnitude.maxPlane α)
    (hstep : PhaseStep task.dims ph q b ph')
    (hx : x ∈ Encoder.subtraction (Magnitude.minPlane α + e) s.1 q) : IsExactDifference x := by
  cases q with
  | significance subject implied => cases hx
  | sign i =>
    obtain ⟨hi, hph, rfl⟩ := hstep
    obtain ⟨a, ha⟩ := h.inStep.number i hi
    have hres := h.inStep.residual i hi
    have hbefore := h.found i hi
    have hafter := h'.found i hi
    rw [hph] at hres hbefore
    rw [mark_of_mem (by simp)] at hafter
    have hlt : m i < 2 ^ (e + 1) := Nat.not_le.mp fun hle => Bool.noConfusion (hbefore.mpr hle)
    have hle : 2 ^ e ≤ m i := hafter.mp rfl
    rw [Encoder.subtraction, List.mem_singleton] at hx
    rw [hx]
    exact isExactDifference_threshold he ha hres (by rwa [Nat.mod_eq_of_lt hlt])
  | refinement i =>
    obtain ⟨hi, hph, -⟩ := hstep
    obtain ⟨a, ha⟩ := h.inStep.number i hi
    have hres := h.inStep.residual i hi
    rw [hph] at hres
    rw [Encoder.subtraction] at hx
    split at hx
    next hreach =>
      rw [List.mem_singleton] at hx
      rw [hx]
      exact isExactDifference_threshold he ha hres ((h.reaches_iff hi hph he).mp hreach)
    next => cases hx

/-- A threshold is only added to a number that has the bit. -/
theorem Running.exact_addition (h : Running task m e ph s)
    (he : Magnitude.minPlane α + e ≤ Magnitude.maxPlane α)
    (hstep : PhaseStep task.dims ph q b ph')
    (hb : (Encoder.prepare task (Magnitude.minPlane α + e) s.1 q).1 = b)
    (hx : x ∈ s.2.addition (Magnitude.minPlane α + e) q b) : IsExactSum x := by
  cases q with
  | significance subject implied => cases hx
  | sign i => cases hx
  | refinement i =>
    obtain ⟨hi, hph, -⟩ := hstep
    obtain ⟨a, ha⟩ := h.inStep.number i hi
    have hrec := h.inStep.recovered i hi
    rw [hph] at hrec
    rw [Encoder.prepare] at hb
    split at hb
    next hreach =>
      subst hb
      rw [Sketch.addition, if_pos rfl, List.mem_singleton] at hx
      rw [hx]
      exact isExactSum_threshold he ha hrec ((h.reaches_iff hi hph he).mp hreach)
    next =>
      subst hb
      cases hx

end Step

section Run

variable {dims : Extents} {m : Nat → Nat}

/-- All sums and differences so far are exact. -/
structure ExactSoFar (s : (Encoder.State α κ × (Sketch α × Trail α)) × List (α × α)) : Prop where
  subtractions : ∀ x ∈ s.2, IsExactDifference x
  additions : ∀ x ∈ s.1.2.2, ∀ y ∈ x.before.addition x.question.1 x.question.2 x.bit, IsExactSum y

theorem exact_rule (task : Encoder.Task α κ) (m : Nat → Nat) (e : Nat)
    (he : Magnitude.minPlane α + e ≤ Magnitude.maxPlane α) :
    PlaneRule task.dims (fun s q => Encoder.watched task s (Magnitude.minPlane α + e, q))
      ⟨True, fun i => 2 ^ e ≤ m i⟩
      (fun _ ph s => Running task m e ph (s.1.1, s.1.2.1) ∧ ExactSoFar s) fun _ => True := by
  refine (running_rule task m e he).extend
    (π := fun s : (Encoder.State α κ × (Sketch α × Trail α)) × List (α × α) => (s.1.1, s.1.2.1))
    (fun s q => ?_) ?_
  · rw [Encoder.followed_keeping task Sketch.use s.1, Encoder.watched, noting]
    cases Encoder.followed task (keeping Sketch.use) s.1 (Magnitude.minPlane α + e, q) <;> rfl
  · intro _ ph ph' s t q b hs ht hanswer hstep h
    unfold Encoder.watched noting at hanswer
    cases hreply : Encoder.followed task (keeping Sketch.use) s.1
        (Magnitude.minPlane α + e, q) with
    | halt u =>
      rw [hreply] at hanswer
      cases hanswer
    | answer b' u =>
      rw [hreply] at hanswer
      cases hanswer
      refine ⟨fun x hx => ?_, fun x hx y hy => ?_⟩
      · rcases List.mem_append.mp hx with hx | hx
        · exact h.subtractions x hx
        · exact hs.exact_subtraction ht he hstep hx
      · rcases Encoder.answer_of_followed hreply with ⟨-, -, hkept⟩ | ⟨-, hb, hkept⟩
        · rw [hkept] at hx
          exact h.additions x hx y hy
        · rw [hkept, keeping] at hx
          rcases List.mem_append.mp hx with hx | hx
          · exact h.additions x hx y hy
          · rw [List.mem_singleton] at hx
            subst hx
            exact hs.exact_addition he hstep hb.symm hy

/-- An encoder without a limit and all decoders of its bits take thresholds off and add them only
where the result is a number of the type. So nothing is rounded, and nothing wraps around. -/
theorem exact_written (signs : Array Bool) {magnitudes : Array α}
    (hd : dims.validate = .ok ()) (hm : Counted dims magnitudes m) :
    let all : Encoder.Task α Unit := ⟨dims, signs, none, .never⟩
    (∀ x ∈ Encoder.subtractions all magnitudes, IsExactDifference x) ∧
      ∀ x ∈ Trail.ofBits α dims (topPlane magnitudes).toInt (Encoder.written all magnitudes),
        ∀ y ∈ x.before.addition x.question.1 x.question.2 x.bit, IsExactSum y := by
  intro all
  let start : (Encoder.State α Unit × (Sketch α × Trail α)) × List (α × α) :=
    ((Encoder.State.initial all magnitudes, (Sketch.blank α dims, [])), [])
  obtain ⟨hend, hrunning⟩ := running_initial hd hm (rfl : all.limit.isReached 0 = false)
  have hexact : ExactSoFar start := ⟨fun x hx => (by cases hx), fun x hx => (by cases hx)⟩
  have hensures := ownPlanes_run (s := start)
    (A := fun e p s => ∃ ph, IsEnd dims p ph ∧ Running all m e ph (s.1.1, s.1.2.1) ∧ ExactSoFar s)
    magnitudes (hd : all.dims.validate = .ok ()) (exact_rule all m)
    (fun e p s h => by
      obtain ⟨ph, hph, hs, hexact⟩ := h
      obtain ⟨ph', hstart, hs'⟩ := hs.next hph
      exact ⟨ph', hstart, hs', hexact⟩)
    (fun e p ph s hph h => ⟨ph, hph, h⟩) ⟨_, hend, hrunning, hexact⟩
  obtain ⟨p, u, hconduct⟩ := Encoder.conduct_keeping dims signs magnitudes
  have hwatched := Dialogue.conduct_map Prod.fst (Encoder.followed_watched all)
    (Encoder.ownPlanes all magnitudes) start
  have hnoted := Dialogue.conduct_map _ (Encoder.noting_watched all)
    (Encoder.ownPlanes all magnitudes) start
  change (Encoder.ownPlanes all magnitudes).conduct (Encoder.followed all (keeping Sketch.use))
    (Encoder.State.initial all magnitudes, (Sketch.blank α dims, [])) = _ at hwatched
  rw [hconduct] at hwatched
  unfold Dialogue.Ensures at hensures
  rcases hrun : (Encoder.ownPlanes all magnitudes).conduct (Encoder.watched all) start
    with ⟨_ | p', s⟩
  · rw [hrun] at hwatched
    cases hwatched
  · rw [hrun] at hensures hwatched hnoted
    obtain ⟨ph, -, -, hall⟩ := hensures
    have hkept : Trail.ofBits α dims _ _ = s.1.2.2 := congrArg (fun r => r.2.2.2) hwatched
    have hlog := congrArg (fun r => r.2.2) hnoted
    dsimp only at hlog
    refine ⟨?_, ?_⟩
    · rcases Encoder.notes_cases (fun plane s q _ => Encoder.subtraction plane s q) all magnitudes
        with ⟨-, hnotes⟩ | ⟨-, hnotes⟩
      · rw [Encoder.subtractions, hnotes]
        exact fun x hx => by cases hx
      · rw [Encoder.subtractions, hnotes]
        exact fun x hx => hall.subtractions x (hlog ▸ hx)
    · exact fun x hx => hall.additions x (hkept ▸ hx)

end Run

end VolumeCodec
