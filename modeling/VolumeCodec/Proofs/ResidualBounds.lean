import VolumeCodec.Proofs.ArbitraryBits

namespace VolumeCodec

section Notes

variable {σ ε β : Type} {dims : Extents} {reply : σ → Query → Reply σ} {k : Insight}
  {I : Nat → (Nat → Phase) → σ → Prop} {H : σ → Prop}

/-- What a question takes for granted is so: the subject of an implied answer is significant, and so
is an element whose sign is asked for. -/
def Query.IsFounded (q : Query) (dims : Extents) (k : Insight) : Prop :=
  match q with
  | .significance subject implied => implied = true → k.Finds (subject.indices dims)
  | .sign i => k.Finds [i]
  | .refinement _ => True

theorem Reply.Yields.noted {note : σ → Query → Reply σ → List ε} {P : ε → Prop}
    {answered : Bool → σ → Prop} {s : σ × List ε} {q : Query}
    (h : (reply s.1 q).Yields answered H) (hs : ∀ x ∈ s.2, P x)
    (hnote : ∀ x ∈ note s.1 q (reply s.1 q), P x) :
    (noting note reply s q).Yields (fun b t => answered b t.1 ∧ ∀ x ∈ t.2, P x)
      (fun t => H t.1 ∧ ∀ x ∈ t.2, P x) := by
  have hall : ∀ x ∈ s.2 ++ note s.1 q (reply s.1 q), P x := by
    intro x hx
    rcases List.mem_append.mp hx with hx | hx
    · exact hs x hx
    · exact hnote x hx
  unfold noting
  revert h hall
  cases reply s.1 q with
  | answer b t => exact fun h hall => ⟨h, hall⟩
  | halt t => exact fun h hall => ⟨h, hall⟩

/-- Who takes notes keeps the same invariant, and the notes have a property that they have on every
question that is due and founded. -/
theorem PlaneRule.noted (R : PlaneRule dims reply k I H) (note : σ → Query → Reply σ → List ε)
    {P : ε → Prop}
    (hnote : ∀ {c ph s q}, I (c + 1) ph s → q.IsDue dims ph → q.IsFounded dims k →
      ∀ x ∈ note s q (reply s q), P x) :
    PlaneRule dims (noting note reply) k (fun c ph s => I c ph s.1 ∧ ∀ x ∈ s.2, P x)
      fun s => H s.1 ∧ ∀ x ∈ s.2, P x where
  spend h hc := ⟨R.spend h.1 hc, h.2⟩
  refine {_ _ _ i} h hi hph :=
    (R.refine h.1 hi hph).noted h.2 (hnote (q := .refinement i) h.1 ⟨hi, hph⟩ trivial)
  sign {_ _ _ i} h hi hph hf :=
    (R.sign h.1 hi hph hf).noted h.2 (hnote (q := .sign i) h.1 ⟨hi, hph⟩ hf)
  test {_ _ _ subject implied} h hw hf := by
    refine ((R.test h.1 hw hf).noted h.2
      (hnote (q := .significance subject implied) h.1 hw hf)).mono fun b t ht => ?_
    obtain ⟨⟨himp, hyes, hno⟩, hall⟩ := ht
    exact ⟨himp, fun hb => ⟨(hyes hb).1, (hyes hb).2, hall⟩,
      fun hb => ⟨(hno hb).1, (hno hb).2, hall⟩⟩

/-- Notes are only added to. -/
theorem Dialogue.conduct_noting {ι : Type} (note : σ → ι → Reply σ → List ε)
    (reply : σ → ι → Reply σ) (d : Dialogue ι β) (s : σ) (l : List ε) :
    ∃ more, (d.conduct (noting note reply) (s, l)).2.2 = l ++ more := by
  induction d generalizing s l with
  | done b => exact ⟨[], (List.append_nil l).symm⟩
  | ask q next ih =>
    simp only [conduct, noting]
    cases reply s q with
    | halt t => exact ⟨_, rfl⟩
    | answer b t =>
      obtain ⟨more, hmore⟩ := ih b t (l ++ note s q (.answer b t))
      exact ⟨note s q (.answer b t) ++ more, hmore.trans (List.append_assoc ..)⟩

end Notes

section Run

variable {α κ τ β ε : Type} [Magnitude α]

namespace Encoder

/-- As far as an encoder comes, it is asked what one is asked that nothing stops, and has the same
left of the numbers. -/
theorem conduct_noting_unlimited (note : Int → Array α → Query → List ε) (task : Task α κ)
    (d : Dialogue (Int × Query) β) {s : State α κ} {u : State α Unit} (h : Agrees s u)
    (l : List ε) :
    ∃ more, (d.conduct (noting (fun s q _ => note q.1 s.residuals q.2) (respond task.unlimited))
        (u, l)).2.2 =
      (d.conduct (noting (fun s q _ => note q.1 s.residuals q.2) (respond task)) (s, l)).2.2 ++
        more := by
  induction d generalizing s u l with
  | done b => exact ⟨[], (List.append_nil l).symm⟩
  | ask q next ih =>
    simp only [Dialogue.conduct, noting]
    cases hf : q.2.isImplied with
    | true =>
      simp only [respond, reply_of_implied _ q.1 _ hf, Reply.map, h.residuals]
      exact ih true h _
    | false =>
      obtain ⟨hbit, hprep⟩ := prepare_agrees task q.1 h q.2
      simp only [respond_unlimited task u hf, ← hbit, Reply.map, ← h.residuals]
      simp only [respond, reply_of_coded task q.1 s hf]
      have hmore := Dialogue.conduct_noting (fun s q _ => note q.1 s.residuals q.2)
        (respond task.unlimited) (next (prepare task q.1 s q.2).1)
        ((prepare task.unlimited q.1 u q.2).2.write (prepare task q.1 s q.2).1)
        (l ++ note q.1 s.residuals q.2)
      rcases emit_cases task (prepare task q.1 s q.2).1 (prepare task q.1 s q.2).2 with
        ⟨he, -⟩ | ⟨-, ⟨he, -⟩ | ⟨he, -⟩⟩
      · rw [he]
        exact hmore
      · rw [he]
        exact hmore
      · have hagrees : Agrees ((prepare task q.1 s q.2).2.write (prepare task q.1 s q.2).1)
            ((prepare task.unlimited q.1 u q.2).2.write (prepare task q.1 s q.2).1) :=
          ⟨hprep.residuals, by simp only [State.write, hprep.bits],
            by simp only [State.write, hprep.bitCount]⟩
        rw [he]
        exact ih _ hagrees _

theorem notes_of_unlimited (note : Int → Array α → Query → List ε) (task : Task α κ)
    (magnitudes : Array α) :
    notes (fun plane s q _ => note plane s.residuals q) task.unlimited magnitudes =
      ((ownPlanes task magnitudes).conduct
        (noting (fun s q _ => note q.1 s.residuals q.2) (respond task.unlimited))
        (State.initial task.unlimited magnitudes, [])).2.2 := by
  unfold notes
  dsimp only
  rw [if_neg (fun h => Bool.false_ne_true h.2), conductPlanes_eq_conduct]
  rfl

theorem notes_unlimited (note : Int → Array α → Query → List ε) (task : Task α κ)
    (magnitudes : Array α) :
    ∃ more, notes (fun plane s q _ => note plane s.residuals q) task.unlimited magnitudes =
      notes (fun plane s q _ => note plane s.residuals q) task magnitudes ++ more := by
  have hall := notes_of_unlimited note task magnitudes
  rcases notes_cases (fun plane s q _ => note plane s.residuals q) task magnitudes with
    ⟨-, hnotes⟩ | ⟨-, hnotes⟩
  · exact ⟨_, by rw [hnotes, List.nil_append]⟩
  · rw [hall, hnotes]
    exact conduct_noting_unlimited note task _ ⟨rfl, rfl, rfl⟩ []

/-- Where an encoder comes to the end of a dialogue, it has the same left of the numbers as one that
nothing stops. -/
theorem residuals_of_unlimited {task : Task α κ} {use : τ → Int × Query → Bool → τ}
    {d : Dialogue (Int × Query) β} {s t : State α κ} {u : State α Unit × τ} {b : β}
    {post : β → State α Unit × τ → Prop} {H : State α Unit × τ → Prop} (h : Agrees s u.1)
    (hd : d.Ensures (followed task.unlimited use) u post H)
    (hc : d.conduct (respond task) s = (some b, t)) :
    ∃ v, post b v ∧ t.residuals = v.1.residuals := by
  have hsame := conduct_unlimited task d s u.1 h
  rw [conduct_followed task.unlimited use d u.1 u.2, hc] at hsame
  unfold Dialogue.Ensures at hd
  rcases hsame with ⟨b', hb, hb', hagrees⟩ | ⟨hnone, -⟩
  · cases hb
    rcases hend : d.conduct (followed task.unlimited use) u with ⟨_ | a, v⟩
    · rw [hend] at hb'
      cases hb'
    · rw [hend] at hb' hagrees hd
      cases hb'
      exact ⟨v, hd, hagrees.residuals⟩
  · cases hnone

theorem noting_followed (note : Int → Array α → Query → List ε) (task : Task α κ)
    (use : τ → Int × Query → Bool → τ) (s : (State α κ × τ) × List ε) (q : Int × Query) :
    noting (fun s q _ => note q.1 s.residuals q.2) (respond task) (s.1.1, s.2) q =
      (noting (fun s q _ => note q.1 s.1.residuals q.2) (followed task use) s q).map
        fun t => (t.1.1, t.2) := by
  unfold noting followed
  dsimp only
  cases respond task s.1.1 q <;> rfl

variable [ExactPlanes α] {m : Nat → Nat}

/-- What an encoder that nothing stops notes on each question that is due and founded, any encoder
notes. -/
theorem notes_hold {task : Task α κ} {magnitudes : Array α} (hd : task.dims.validate = .ok ())
    (hm : Counted task.dims magnitudes m) (note : Int → Array α → Query → List ε) {P : ε → Prop}
    (hnote : ∀ {e : Nat} {ph s q}, Magnitude.minPlane α + e ≤ Magnitude.maxPlane α →
      Running task.unlimited m e ph s → q.IsDue task.dims ph →
      q.IsFounded task.dims ⟨True, fun i => 2 ^ e ≤ m i⟩ →
      ∀ x ∈ note (Magnitude.minPlane α + e) s.1.residuals q, P x) :
    ∀ x ∈ notes (fun plane s q _ => note plane s.residuals q) task magnitudes, P x := by
  let all : Task α Unit := task.unlimited
  let watched := noting
    (fun (s : State α Unit × Sketch α) (q : Int × Query) _ => note q.1 s.1.residuals q.2)
    (followed all Sketch.use)
  let start : (State α Unit × Sketch α) × List ε :=
    ((State.initial all magnitudes, Sketch.blank α task.dims), [])
  have hd : all.dims.validate = .ok () := hd
  have hrule : ∀ e : Nat, Magnitude.minPlane α + e ≤ Magnitude.maxPlane α →
      PlaneRule task.dims (fun s q => watched s (Magnitude.minPlane α + e, q))
        ⟨True, fun i => 2 ^ e ≤ m i⟩ (fun _ ph s => Running all m e ph s.1 ∧ ∀ x ∈ s.2, P x)
        (fun s => Stopped all m s.1 ∧ ∀ x ∈ s.2, P x) := fun e he =>
    (running_rule all m e he).noted (fun s q _ => note (Magnitude.minPlane α + e) s.1.residuals q)
      fun hs hdue hf => hnote he hs hdue hf
  have hrun := ownPlanes_run (s := start) (A := fun e p (s : (State α Unit × Sketch α) × List ε) =>
      (∃ ph, IsEnd task.dims p ph ∧ Running all m e ph s.1) ∧ ∀ x ∈ s.2, P x)
    magnitudes hd hrule
    (fun e p s h => by
      obtain ⟨⟨ph, hph, hs⟩, hall⟩ := h
      obtain ⟨ph', hstart, hs'⟩ := hs.next hph
      exact ⟨ph', hstart, hs', hall⟩)
    (fun e p ph s hph h => ⟨⟨ph, hph, h.1⟩, h.2⟩)
    ⟨⟨_, running_initial hd hm rfl⟩, fun x hx => by cases hx⟩
  have hnotes := hrun.final (Q := fun s => ∀ x ∈ s.2, P x) (fun p s h => h.2) fun s h => h.2
  have hmap := Dialogue.conduct_map _ (noting_followed note all Sketch.use)
    (ownPlanes all magnitudes) start
  obtain ⟨more, hmore⟩ := notes_unlimited note task magnitudes
  rcases notes_cases (fun plane s q _ => note plane s.residuals q) all magnitudes with
    ⟨-, hlog⟩ | ⟨-, hlog⟩
  · rw [hlog] at hmore
    intro x hx
    rw [(List.append_eq_nil_iff.mp hmore.symm).1] at hx
    cases hx
  · have hlist := hlog.trans (congrArg (fun r => r.2.2) hmap)
    rw [hlist] at hmore
    intro x hx
    exact hnotes x (hmore ▸ List.mem_append_left more hx)

/-- Where the upper planes of an array have been coded without a stop, an encoder is in step. -/
theorem upperPlanes_ensures (task : Task α κ) {magnitudes : Array α}
    (hd : task.dims.validate = .ok ()) (hm : Counted task.dims magnitudes m)
    (hroom : task.limit.isReached 0 = false) {lower n : Nat}
    (hn : lower + n = ownCount magnitudes) :
    (codePlanes task.dims ((lowestPlane magnitudes).toInt + lower) n
      (Progress.initial task.dims)).Ensures (followed task Sketch.use)
      (State.initial task magnitudes, Sketch.blank α task.dims)
      (fun p t => ∃ ph, IsEnd task.dims p ph ∧ Running task m (bottom magnitudes + lower) ph t)
      (Stopped task m) := by
  obtain ⟨hsettled, -⟩ := Settled.initial hd
  have hlow := lowestPlane_eq magnitudes
  have hrule : ∀ j < n, PlaneRule task.dims
      (fun s q => followed task Sketch.use s ((lowestPlane magnitudes).toInt + lower + j, q))
      ⟨True, fun i => 2 ^ (bottom magnitudes + (lower + j)) ≤ m i⟩
      (fun _ => Running task m (bottom magnitudes + (lower + j))) (Stopped task m) := by
    intro j hj
    have hplane : (lowestPlane magnitudes).toInt + lower + j =
        Magnitude.minPlane α + ((bottom magnitudes + (lower + j) : Nat) : Int) := by omega
    rw [hplane]
    exact running_rule task m _ (ownPlane_le (by omega))
  have hinitial := running_initial hd hm hroom
  rw [← hn] at hinitial
  refine (codePlanes_ensures (c := 0) (A := fun j _ p t => ∃ ph, IsEnd task.dims p ph ∧
    Running task m (bottom magnitudes + (lower + j)) ph t) hrule (fun j _ p s h => ?_)
    (fun j _ p ph s hph h => ⟨ph, hph, h⟩) (Nat.le_refl _) hsettled ⟨_, hinitial⟩).mono
    fun p t h => h.2
  obtain ⟨ph, hph, h⟩ := h
  exact h.next hph

end Encoder

end Run

/-- A question that an encoder is asked: in which plane, and what is left of the numbers then. -/
structure Encoder.Asked (α : Type) where
  plane : Int
  residuals : Array α
  query : Query
  deriving DecidableEq

/-- All questions that an encoder is asked. -/
def Encoder.asked {α κ : Type} [Magnitude α] (task : Task α κ) (magnitudes : Array α) :
    List (Asked α) :=
  notes (fun plane s q _ => [⟨plane, s.residuals, q⟩]) task magnitudes

/-- Nothing that is left reaches the threshold of the plane above, and where an answer is implied,
something that is left reaches the threshold of this plane. -/
structure Encoder.Asked.IsSound {n : Nat} (x : Asked (BitVec n)) (dims : Extents) : Prop where
  lt : ∀ i < dims.volume, (x.residuals.getD i 0#n).toNat < 2 ^ (x.plane + 1).toNat
  implied : ∀ subject, x.query = .significance subject true →
    ∃ i ∈ subject.indices dims, i < dims.volume ∧
      (Magnitude.pow2 x.plane : BitVec n) ≤ x.residuals.getD i 0#n

section Integers

variable {w : Width} {κ : Type} {task : Encoder.Task (BitVec w.bits) κ} {m : Nat → Nat} {e : Nat}
  {ph : Nat → Phase} {s : Encoder.State (BitVec w.bits) κ × Sketch (BitVec w.bits)} {q : Query}

theorem Running.residual_eq (h : Running task m e ph s) {i : Nat} (hi : i < task.dims.volume) :
    (s.1.residuals.getD i 0#w.bits).toNat = m i % 2 ^ (ph i).finest e :=
  h.inStep.residual i hi

theorem Running.residual_lt (h : Running task m e ph s) {i : Nat} (hi : i < task.dims.volume) :
    (s.1.residuals.getD i 0#w.bits).toNat < 2 ^ (e + 1) := by
  have hfinest : (ph i).finest e ≤ e + 1 := by
    rcases (ph i).finest_cases e with he | he
    · omega
    · omega
  rw [h.residual_eq hi]
  exact Nat.lt_of_lt_of_le (Nat.mod_lt _ (Nat.two_pow_pos _))
    (Nat.pow_le_pow_right (by decide) hfinest)

theorem Running.residual_of_waiting (h : Running task m e ph s) {i : Nat}
    (hi : i < task.dims.volume) (hph : ph i = .waiting) :
    (s.1.residuals.getD i 0#w.bits).toNat = m i := by
  rw [h.residual_eq hi, hph]
  exact Nat.mod_eq_of_lt (h.lt_of_waiting hi hph)

theorem toNat_pow2 (he : Magnitude.minPlane (BitVec w.bits) + e ≤
    Magnitude.maxPlane (BitVec w.bits)) :
    (Magnitude.pow2 (Magnitude.minPlane (BitVec w.bits) + e) : BitVec w.bits).toNat = 2 ^ e :=
  ExactPlanes.pow2 e he

theorem Running.isSound (h : Running task m e ph s) (hdue : q.IsDue task.dims ph)
    (hf : q.IsFounded task.dims ⟨True, fun i => 2 ^ e ≤ m i⟩)
    (he : Magnitude.minPlane (BitVec w.bits) + e ≤ Magnitude.maxPlane (BitVec w.bits)) :
    Encoder.Asked.IsSound ⟨Magnitude.minPlane (BitVec w.bits) + e, s.1.residuals, q⟩
      task.dims where
  lt i hi := by
    have hplane : (Magnitude.minPlane (BitVec w.bits) + e + 1).toNat = e + 1 := by
      show ((0 : Int) + e + 1).toNat = e + 1
      omega
    rw [hplane]
    exact h.residual_lt hi
  implied subject hq := by
    dsimp only at hq ⊢
    subst hq
    obtain ⟨i, hi, hle⟩ := hf rfl trivial
    obtain ⟨hlt, hph⟩ := hdue i hi
    refine ⟨i, hi, hlt, ?_⟩
    rw [BitVec.le_def, toNat_pow2 he, h.residual_of_waiting hlt hph]
    exact hle

/-- A threshold that is taken off a number below twice the threshold, and not above the number,
leaves less than a threshold. -/
theorem sub_threshold_lt {n : Nat} {a t : BitVec n} (ha : a.toNat < 2 ^ (e + 1))
    (ht : t.toNat = 2 ^ e) (hle : 2 ^ e ≤ a.toNat) : t ≤ a ∧ a - t < t := by
  have hta : t ≤ a := by
    rw [BitVec.le_def]
    omega
  refine ⟨hta, ?_⟩
  rw [BitVec.lt_def, BitVec.toNat_sub_of_le hta, ht]
  rw [Nat.pow_succ] at ha
  omega

theorem Running.subtraction_fits (h : Running task m e ph s) (hdue : q.IsDue task.dims ph)
    (hf : q.IsFounded task.dims ⟨True, fun i => 2 ^ e ≤ m i⟩)
    (he : Magnitude.minPlane (BitVec w.bits) + e ≤ Magnitude.maxPlane (BitVec w.bits))
    {x : BitVec w.bits × BitVec w.bits}
    (hx : x ∈ Encoder.subtraction (Magnitude.minPlane (BitVec w.bits) + e) s.1 q) :
    x.2 ≤ x.1 ∧ x.1 - x.2 < x.2 := by
  cases q with
  | significance subject implied => cases hx
  | sign i =>
    obtain ⟨hi, hph⟩ := hdue
    obtain ⟨j, hj, hle⟩ := hf trivial
    rw [List.mem_singleton] at hj
    subst hj
    rw [Encoder.subtraction, List.mem_singleton] at hx
    rw [hx]
    refine sub_threshold_lt (h.residual_lt hi) (toNat_pow2 he) ?_
    exact Nat.le_trans hle (Nat.le_of_eq (h.residual_of_waiting hi hph).symm)
  | refinement i =>
    rw [Encoder.subtraction] at hx
    split at hx
    next hreach =>
      rw [List.mem_singleton] at hx
      rw [hx]
      refine sub_threshold_lt (h.residual_lt hdue.1) (toNat_pow2 he) ?_
      have hle := (h.reaches_iff hdue.1 hdue.2 he).mp hreach
      have hresidual := h.residual_eq hdue.1
      rw [hdue.2] at hresidual
      exact Nat.le_trans hle (Nat.le_of_eq hresidual.symm)
    next => cases hx

theorem bottom_integers (magnitudes : Array (BitVec w.bits)) :
    (lowestPlane magnitudes).toInt = 0 ∧ bottom magnitudes = 0 := by
  have hge := minPlane_le_lowestPlane magnitudes
  have hle := lowestPlane_nonpos magnitudes
  change (0 : Int) ≤ _ at hge
  have hzero : (lowestPlane magnitudes).toInt = 0 := by omega
  refine ⟨hzero, ?_⟩
  rw [bottom, hzero]
  rfl

/-- What is left at the start of a plane. -/
theorem residual_lt_of_run {magnitudes : Array (BitVec w.bits)} {plane : Nat} {p : Progress}
    {s : Encoder.State (BitVec w.bits) κ} (hd : task.dims.validate = .ok ())
    (hm : magnitudes.size = task.dims.volume)
    (hrun : Encoder.run task (topPlane magnitudes).toInt (plane + 1) magnitudes = (some p, s))
    {i : Nat} (hi : i < task.dims.volume) :
    (s.residuals.getD i 0#w.bits).toNat < 2 ^ (plane + 1) := by
  have hc := counted_integers hm
  obtain ⟨hlowest, hbottom⟩ := bottom_integers magnitudes
  have hconduct : (codePlanes task.dims (plane + 1)
      (planeCount (topPlane magnitudes).toInt (plane + 1)) (Progress.initial task.dims)).conduct
      (Encoder.respond task) (Encoder.State.initial task magnitudes) = (some p, s) := by
    unfold Encoder.run at hrun
    dsimp only at hrun
    split at hrun
    next => cases hrun
    next =>
      rw [conductPlanes_eq_conduct] at hrun
      exact hrun
  rcases Nat.lt_or_ge (plane + 1) (ownCount magnitudes) with hlt | hge
  · have hcount : plane + 1 + planeCount (topPlane magnitudes).toInt (plane + 1) =
        ownCount magnitudes := by
      unfold ownCount planeCount at hlt ⊢
      rw [hlowest] at hlt ⊢
      omega
    have hensures := Encoder.upperPlanes_ensures task.unlimited hd hc rfl hcount
    rw [hlowest, hbottom, Nat.zero_add, Int.zero_add] at hensures
    obtain ⟨t, ⟨ph, hph, ht⟩, hsame⟩ :=
      Encoder.residuals_of_unlimited (s := Encoder.State.initial task magnitudes) ⟨rfl, rfl, rfl⟩
        hensures hconduct
    have hfinest : (ph i).finest (plane + 1) = plane + 1 := by
      rw [hph i hi]
      split <;> rfl
    rw [hsame, ht.residual_eq hi, hfinest]
    exact Nat.mod_lt _ (Nat.two_pow_pos _)
  · -- No plane has been coded yet, and all of them are lower than this one.
    have hnone : planeCount (topPlane magnitudes).toInt (plane + 1) = 0 := by
      unfold ownCount planeCount at hge
      unfold planeCount
      rw [hlowest] at hge
      omega
    rw [hnone] at hconduct
    cases hconduct
    have htop := hc.lt_top hi
    rw [hbottom, Nat.zero_add] at htop
    exact Nat.lt_of_lt_of_le htop (Nat.pow_le_pow_right (by decide) hge)

/-- Whatever stops an encoder, at every moment until then: where significance is inferred it is
there, every difference is taken off a number that reaches the threshold and leaves less than a
threshold, and at the start of a plane nothing that is left reaches the threshold of the plane
above. -/
theorem residuals_bounded (w : Width) {κ : Type} (task : Encoder.Task (BitVec w.bits) κ)
    {magnitudes : Array (BitVec w.bits)} (hd : task.dims.validate = .ok ())
    (hm : magnitudes.size = task.dims.volume) :
    (∀ x ∈ Encoder.asked task magnitudes, x.IsSound task.dims) ∧
    (∀ x ∈ Encoder.subtractions task magnitudes, x.2 ≤ x.1 ∧ x.1 - x.2 < x.2) ∧
    ∀ (plane : Nat) (p : Progress) (s : Encoder.State (BitVec w.bits) κ),
      Encoder.run task (topPlane magnitudes).toInt (plane + 1) magnitudes = (some p, s) →
      ∀ i < task.dims.volume, (s.residuals.getD i 0#w.bits).toNat < 2 ^ (plane + 1) := by
  have hc := counted_integers hm
  refine ⟨?_, ?_, fun plane p s hrun i hi => residual_lt_of_run hd hm hrun hi⟩
  · refine Encoder.notes_hold hd hc (fun plane residuals q =>
      [(⟨plane, residuals, q⟩ : Encoder.Asked _)]) fun he hs hdue hf x hx => ?_
    rw [List.mem_singleton.mp hx]
    exact hs.isSound hdue hf he
  · have hsubtraction : ∀ plane (s : Encoder.State (BitVec w.bits) κ) q,
        Encoder.subtraction plane s q =
          Encoder.subtraction plane (⟨s.residuals, (), [], 0⟩ : Encoder.State _ Unit) q := by
      intro plane s q
      cases q <;> rfl
    unfold Encoder.subtractions
    simp only [hsubtraction]
    refine Encoder.notes_hold hd hc (fun plane residuals q =>
      Encoder.subtraction plane (⟨residuals, (), [], 0⟩ : Encoder.State _ Unit) q)
      fun {e ph s q} he hs hdue hf x hx => ?_
    refine hs.subtraction_fits hdue hf he (x := x) ?_
    cases q <;> exact hx

/-- Two bytes under a limit of three bits: of the second one it is inferred that it is
significant. -/
theorem residuals_bounded_pair :
    let task : Encoder.Task (BitVec 8) Unit := ⟨Axes.row 2, #[true, false], some 3, .never⟩
    (Axes.row 2).validate = .ok () ∧
      ⟨2, #[0#8, 5#8], .significance (.element 1) true⟩ ∈ Encoder.asked task #[0#8, 5#8] ∧
      (∃ i ∈ [1], i < 2 ∧ 4#8 ≤ #[0#8, 5#8].getD i 0#8) ∧
      (5#8, 4#8) ∈ Encoder.subtractions task #[0#8, 5#8] ∧ 4#8 ≤ 5#8 ∧ 5#8 - 4#8 < 4#8 := by
  intro task
  have hm : #[0#8, 5#8].size = task.dims.volume := rfl
  obtain ⟨hasked, hsubtractions, -⟩ := residuals_bounded .w8 task rfl hm
  have hmem : ⟨2, #[0#8, 5#8], .significance (.element 1) true⟩ ∈
      Encoder.asked task #[0#8, 5#8] := by decide +kernel
  have hmem' : (5#8, 4#8) ∈ Encoder.subtractions task #[0#8, 5#8] := by decide +kernel
  exact ⟨rfl, hmem, (hasked _ hmem).implied _ rfl, hmem', hsubtractions _ hmem'⟩

end Integers

end VolumeCodec
