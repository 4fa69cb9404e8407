import VolumeCodec.Proofs.RoundTrip
import VolumeCodec.Proofs.Turns

namespace VolumeCodec

/-- How the answer to a question moves the phases of the elements. -/
def PhaseStep (dims : Extents) (ph : Nat → Phase) (q : Query) (b : Bool) (ph' : Nat → Phase) :
    Prop :=
  match q with
  | .refinement i => i < dims.volume ∧ ph i = .old ∧ ph' = mark ph [i] .done
  | .sign i => i < dims.volume ∧ ph i = .waiting ∧ ph' = mark ph [i] .done
  | .significance subject _ =>
    (∀ i ∈ subject.indices dims, i < dims.volume ∧ ph i = .waiting) ∧
      ph' = if b then ph else mark ph (subject.indices dims) .cold

section Extend

variable {σ σ' : Type} {dims : Extents} {reply : σ → Query → Reply σ}
  {reply' : σ' → Query → Reply σ'} {k : Insight} {I : Nat → (Nat → Phase) → σ → Prop}
  {H : σ → Prop} {J : (Nat → Phase) → σ' → Prop}

theorem Reply.Yields.extend {π : σ' → σ} {r : Reply σ'} {answered : Bool → σ → Prop}
    {answered' : Bool → σ' → Prop} (h : (r.map π).Yields answered H)
    (ha : ∀ b t, r = .answer b t → answered b (π t) → answered' b t) :
    r.Yields answered' fun _ => True := by
  cases r with
  | answer b t => exact ha b t rfl h
  | halt t => trivial

/-- A respondent who does the same as another one, and more besides, keeps the invariant of the
other, and one of its own that every answer preserves. -/
theorem PlaneRule.extend (R : PlaneRule dims reply k I H) {π : σ' → σ}
    (hπ : ∀ s q, reply (π s) q = (reply' s q).map π)
    (hJ : ∀ {c ph ph' s t q b}, I (c + 1) ph (π s) → I c ph' (π t) → reply' s q = .answer b t →
      PhaseStep dims ph q b ph' → J ph s → J ph' t) :
    PlaneRule dims reply' k (fun c ph s => I c ph (π s) ∧ J ph s) fun _ => True where
  spend h hc := ⟨R.spend h.1 hc, h.2⟩
  refine {_ _ s i} h hi hph := by
    have hr := R.refine h.1 hi hph
    rw [hπ] at hr
    exact hr.extend fun b t he ht => ⟨ht, hJ h.1 ht he ⟨hi, hph, rfl⟩ h.2⟩
  sign {_ _ s i} h hi hph hf := by
    have hr := R.sign h.1 hi hph hf
    rw [hπ] at hr
    exact hr.extend fun b t he ht => ⟨ht, hJ h.1 ht he ⟨hi, hph, rfl⟩ h.2⟩
  test {_ _ s subject implied} h hw hf := by
    have hr := R.test h.1 hw hf
    rw [hπ] at hr
    refine hr.extend fun b t he ht => ?_
    obtain ⟨himp, hyes, hno⟩ := ht
    refine ⟨himp, fun hb => ⟨(hyes hb).1, (hyes hb).2, ?_⟩, fun hb => ⟨(hno hb).1, (hno hb).2, ?_⟩⟩
    · subst hb
      exact hJ h.1 (hyes rfl).2 he ⟨hw, rfl⟩ h.2
    · subst hb
      exact hJ h.1 (hno rfl).2 he ⟨hw, rfl⟩ h.2

end Extend

namespace Encoder

variable {α κ τ : Type} [Magnitude α]

theorem followed_keeping (task : Task α κ) (use : τ → Int × Query → Bool → τ)
    (s : State α κ × (τ × List (Turn τ (Int × Query)))) (q : Int × Query) :
    followed task use (s.1, s.2.1) q =
      (followed task (keeping use) s q).map fun t => (t.1, t.2.1) := by
  unfold followed
  dsimp only
  cases respond task s.1 q with
  | answer b t => cases isFree q <;> rfl
  | halt t => by_cases h : s.1.bitCount < t.bitCount <;> simp only [h, if_true, if_false] <;> rfl

/-- A turn is kept for every answer that costs a bit. -/
theorem answer_of_followed {task : Task α κ} {use : τ → Int × Query → Bool → τ}
    {s t : State α κ × τ} {q : Int × Query} {b : Bool} (h : followed task use s q = .answer b t) :
    (isFree q = true ∧ b = true ∧ t.2 = s.2) ∨
      (isFree q = false ∧ b = (prepare task q.1 s.1 q.2).1 ∧ t.2 = use s.2 q b) := by
  unfold followed at h
  cases hf : isFree q with
  | true =>
    rw [respond, reply_of_implied task q.1 s.1 hf] at h
    cases h
    exact .inl ⟨rfl, rfl, if_pos hf⟩
  | false =>
    rw [respond, reply_of_coded task q.1 s.1 hf] at h
    rcases emit_cases task (prepare task q.1 s.1 q.2).1 (prepare task q.1 s.1 q.2).2 with
      ⟨he, -⟩ | ⟨-, ⟨he, -⟩ | ⟨he, -⟩⟩
    · rw [he] at h
      cases h
    · rw [he] at h
      cases h
    · rw [he] at h
      cases h
      exact .inr ⟨rfl, rfl, if_neg (by simp [hf])⟩

end Encoder

theorem Phase.finest_cases (ph : Phase) (e : Nat) : ph.finest e = e ∨ ph.finest e = e + 1 := by
  cases ph with
  | old => exact .inr rfl
  | done => exact .inl rfl
  | waiting => exact .inr rfl
  | cold => exact .inl rfl

namespace PhaseStep

variable {dims : Extents} {ph ph' : Nat → Phase} {q : Query} {b : Bool}

/-- No answer takes back what is settled of an element. -/
theorem finest_le (h : PhaseStep dims ph q b ph') (e i : Nat) :
    (ph' i).finest e ≤ (ph i).finest e := by
  have hmark : ∀ l p, p.finest e = e → (mark ph l p i).finest e ≤ (ph i).finest e := by
    intro l p hp
    unfold mark
    split
    next => rcases (ph i).finest_cases e with hc | hc <;> omega
    next => exact Nat.le_refl _
  cases q with
  | refinement j =>
    rw [h.2.2]
    exact hmark [j] .done rfl
  | sign j =>
    rw [h.2.2]
    exact hmark [j] .done rfl
  | significance subject implied =>
    rw [h.2]
    split
    next => exact Nat.le_refl _
    next => exact hmark _ .cold rfl

theorem isSignificant_iff (h : PhaseStep dims ph q b ph') (i : Nat) :
    (ph' i).isSignificant = true ↔ (ph i).isSignificant = true ∨ q.signed? = some i := by
  cases q with
  | refinement j =>
    obtain ⟨-, hold, rfl⟩ := h
    by_cases hi : i = j
    · rw [mark_of_mem (by simpa using hi), hi, hold]
      simp [Phase.isSignificant]
    · rw [mark_of_not_mem (by simpa using hi)]
      simp [Query.signed?]
  | sign j =>
    obtain ⟨-, hwaiting, rfl⟩ := h
    by_cases hi : i = j
    · rw [mark_of_mem (by simpa using hi)]
      simp [Phase.isSignificant, Query.signed?, hi]
    · rw [mark_of_not_mem (by simpa using hi)]
      simp [Query.signed?, Ne.symm hi]
  | significance subject implied =>
    obtain ⟨hwaiting, rfl⟩ := h
    cases b with
    | true => simp [Query.signed?]
    | false =>
      by_cases hi : i ∈ subject.indices dims
      · simp [mark_of_mem hi, (hwaiting i hi).2, Phase.isSignificant, Query.signed?]
      · simp [mark_of_not_mem hi, Query.signed?]

/-- The sign of an element is asked for only once. -/
theorem not_isSignificant_of_signed {i : Nat} (h : PhaseStep dims ph q b ph')
    (hq : q.signed? = some i) : i < dims.volume ∧ (ph i).isSignificant = false := by
  cases q with
  | refinement j => cases hq
  | sign j =>
    cases hq
    exact ⟨h.1, by rw [h.2.1]; rfl⟩
  | significance subject implied => cases hq

end PhaseStep

section History

variable {α κ : Type} [Magnitude α] {dims : Extents} {signs : Array Bool} {m finest : Nat → Nat}
  {e : Nat} {ph ph' : Nat → Phase} {k : Sketch α}

/-- The turns of a run, with what had been recovered before each of them. -/
abbrev Trail (α : Type) := List (Turn (Sketch α) (Int × Query))

variable {l : Trail α} {x : Turn (Sketch α) (Int × Query)}

/-- What there is in some bits. -/
def Sketch.ofBits (α : Type) [Magnitude α] (dims : Extents) (highest : Int) (bits : List Bool) :
    Sketch α :=
  ((allPlanes α dims highest).follow isFree Sketch.use bits (Sketch.blank α dims)).2.2

/-- The turns that some bits lead through. -/
def Trail.ofBits (α : Type) [Magnitude α] (dims : Extents) (highest : Int) (bits : List Bool) :
    Trail α :=
  (allPlanes α dims highest).turns isFree Sketch.use bits (Sketch.blank α dims)

theorem Trail.ofBits_take (dims : Extents) (highest : Int) (bits : List Bool) (n : Nat) :
    Trail.ofBits α dims highest (bits.take n) = (Trail.ofBits α dims highest bits).take n :=
  Dialogue.turns_take _ bits _ n

theorem before_trail {highest : Int} {bits : List Bool} {n : Nat}
    (hx : (Trail.ofBits α dims highest bits)[n]? = some x) :
    x.before = Sketch.ofBits α dims highest (bits.take n) :=
  Dialogue.before_turns hx

/-- The last bit, if there is one, belongs to a plane. -/
def EndsIn (e : Nat) (l : Trail α) : Prop :=
  ∀ x, l.getLast? = some x → x.question.1 = Magnitude.minPlane α + e

/-- The last bit belongs to the plane `e`, or to the one above as long as nothing has been settled
in the plane `e`. -/
def Recent (dims : Extents) (e : Nat) (ph : Nat → Phase) (l : Trail α) : Prop :=
  EndsIn e l ∨ EndsIn (e + 1) l ∧ ∀ i < dims.volume, (ph i).finest e = e + 1

theorem Recent.plane (h : Recent dims e ph l) (hx : l.getLast? = some x) :
    ∃ e' : Nat, x.question.1 = Magnitude.minPlane α + e' ∧
      ∀ i < dims.volume, (ph i).finest e = e' ∨ (ph i).finest e = e' + 1 := by
  rcases h with h | ⟨h, hph⟩
  · exact ⟨e, h x hx, fun i _ => (ph i).finest_cases e⟩
  · exact ⟨e + 1, h x hx, fun i hi => .inl (hph i hi)⟩

variable [ExactPlanes α]

/-- A sketch shows of each number `m i` the bits down to the plane `finest i`, with its sign if
there are any. -/
def Shows (dims : Extents) (signs : Array Bool) (m finest : Nat → Nat) (k : Sketch α) : Prop :=
  ∃ residuals : Array α, InStep dims signs m finest residuals k

theorem Shows.congr {finest' : Nat → Nat} (h : Shows dims signs m finest k)
    (he : ∀ i < dims.volume, finest' i = finest i) : Shows dims signs m finest' k := by
  obtain ⟨residuals, hin⟩ := h
  refine ⟨residuals, hin.congr fun i hi => ?_⟩
  rw [he i hi]
  exact ⟨rfl, .rfl⟩

theorem Shows.size (h : Shows dims signs m finest k) :
    k.magnitudes.size = dims.volume ∧ k.signs.size = dims.volume := by
  obtain ⟨residuals, hin⟩ := h
  exact ⟨hin.size_magnitudes, hin.size_signs⟩

/-- What holds of the sketch that some turns have led to. -/
structure Moment (dims : Extents) (signs : Array Bool) (m finest : Nat → Nat) (l : Trail α)
    (k : Sketch α) : Prop where
  shows : Shows dims signs m finest k
  /-- Every sketch before it was at most as fine. -/
  grown : ∀ x ∈ l, ∃ coarser, Shows dims signs m coarser x.before ∧
    ∀ i < dims.volume, finest i ≤ coarser i
  /-- The plane of the last bit is settled for some elements, the one above for all. -/
  plane : ∀ x, l.getLast? = some x → ∃ e : Nat, x.question.1 = Magnitude.minPlane α + e ∧
    ∀ i < dims.volume, finest i = e ∨ finest i = e + 1
  signed : ∀ i < dims.volume,
    (i ∈ signedElements (l.map Turn.question) ↔ 2 ^ finest i ≤ m i)

/-- What a sketch shows of an integer. -/
theorem Shows.integer {w : Width} {k : Sketch (BitVec w.bits)} {i : Nat}
    (h : Shows dims signs m finest k) (hi : i < dims.volume) :
    (k.magnitudes.getD i 0#w.bits).toNat = m i - m i % 2 ^ finest i ∧
      k.signs.getD i true = if 2 ^ finest i ≤ m i then signs.getD i true else true := by
  obtain ⟨residuals, hin⟩ := h
  exact ⟨hin.recovered i hi, hin.sign i hi⟩

/-- What holds of the turns so far, when the elements are in some phases of the plane `e`. -/
structure Tracked (dims : Extents) (signs : Array Bool) (m : Nat → Nat) (e : Nat)
    (ph : Nat → Phase) (l : Trail α) : Prop where
  grown : ∀ x ∈ l, ∃ coarser, Shows dims signs m coarser x.before ∧
    ∀ i < dims.volume, (ph i).finest e ≤ coarser i
  signed : ∀ i < dims.volume,
    (i ∈ signedElements (l.map Turn.question) ↔ (ph i).isSignificant = true)
  nodup : (signedElements (l.map Turn.question)).Nodup
  past : ∀ n x, l[n]? = some x → ∃ finest, Moment dims signs m finest (l.take n) x.before
  /-- A plane is settled for all elements before the first bit of the next one. -/
  turned : ∀ n x y, l[n]? = some x → l[n + 1]? = some y → x.question.1 ≠ y.question.1 →
    ∃ e' : Nat, x.question.1 = Magnitude.minPlane α + e' ∧
      Shows dims signs m (fun _ => e') y.before

theorem Tracked.moment (h : Tracked dims signs m e ph l) (hr : Recent dims e ph l)
    (hk : Shows dims signs m (fun i => (ph i).finest e) k)
    (hfound : ∀ i < dims.volume, ((ph i).isSignificant = true ↔ 2 ^ (ph i).finest e ≤ m i)) :
    Moment dims signs m (fun i => (ph i).finest e) l k :=
  ⟨hk, h.grown, fun _ hx => hr.plane hx, fun i hi => (h.signed i hi).trans (hfound i hi)⟩

/-- One more bit of the plane `e` keeps what holds of the turns. -/
theorem Tracked.step (h : Tracked dims signs m e ph l) (hr : Recent dims e ph l)
    (hk : Shows dims signs m (fun i => (ph i).finest e) x.before)
    (hfound : ∀ i < dims.volume, ((ph i).isSignificant = true ↔ 2 ^ (ph i).finest e ≤ m i))
    (hplane : x.question.1 = Magnitude.minPlane α + e)
    (hstep : PhaseStep dims ph x.question.2 x.bit ph') :
    Tracked dims signs m e ph' (l ++ [x]) := by
  have hsigned : signedElements ((l ++ [x]).map Turn.question) =
      signedElements (l.map Turn.question) ++ x.question.2.signed?.toList := by
    rw [List.map_append, signedElements_append, List.map_singleton, signedElements_singleton]
  have hle := hstep.finest_le e
  refine ⟨fun y hy => ?_, fun i hi => ?_, ?_, fun n y hy => ?_, fun n y z hy hz hne => ?_⟩
  · rcases List.mem_append.mp hy with hy | hy
    · obtain ⟨coarser, hc, hf⟩ := h.grown y hy
      exact ⟨coarser, hc, fun i hi => Nat.le_trans (hle i) (hf i hi)⟩
    · rw [List.mem_singleton] at hy
      subst hy
      exact ⟨_, hk, fun i _ => hle i⟩
  · rw [hsigned, List.mem_append, h.signed i hi, hstep.isSignificant_iff i, Option.mem_toList]
  · rw [hsigned, List.nodup_append]
    refine ⟨h.nodup, by cases x.question.2 <;> simp [Query.signed?], fun i hi j hj he => ?_⟩
    subst he
    obtain ⟨hlt, hno⟩ := hstep.not_isSignificant_of_signed (Option.mem_toList.mp hj)
    rw [h.signed i hlt, hno] at hi
    cases hi
  · rcases Nat.lt_trichotomy n l.length with hn | hn | hn
    · rw [List.getElem?_append_left hn] at hy
      rw [List.take_append_of_le_length (Nat.le_of_lt hn)]
      exact h.past n y hy
    · subst hn
      rw [List.getElem?_concat_length] at hy
      cases hy
      rw [List.take_left]
      exact ⟨_, h.moment hr hk hfound⟩
    · rw [List.getElem?_eq_none (by simp; omega)] at hy
      cases hy
  · rcases Nat.lt_trichotomy (n + 1) l.length with hn | hn | hn
    · rw [List.getElem?_append_left (by omega)] at hy hz
      exact h.turned n y z hy hz hne
    · rw [List.getElem?_append_left (by omega)] at hy
      rw [hn, List.getElem?_concat_length] at hz
      cases hz
      have hlast : l.getLast? = some y := by
        rw [List.getLast?_eq_getElem?, ← hn]
        exact hy
      rcases hr with hr | ⟨hr, hph⟩
      · exact absurd ((hr y hlast).trans hplane.symm) hne
      · exact ⟨e + 1, hr y hlast, hk.congr fun i hi => (hph i hi).symm⟩
    · rw [List.getElem?_eq_none (by simp; omega)] at hz
      cases hz

section Run

variable {task : Encoder.Task α κ} {p : Progress}
  {s : Encoder.State α κ × (Sketch α × Trail α)}

/-- What holds of an encoder and of one who follows it and keeps the turns, in the plane `e`. -/
structure Watched (task : Encoder.Task α κ) (m : Nat → Nat) (e : Nat) (ph : Nat → Phase)
    (s : Encoder.State α κ × (Sketch α × Trail α)) : Prop where
  running : Running task m e ph (s.1, s.2.1)
  tracked : Tracked task.dims task.signs m e ph s.2.2
  recent : Recent task.dims e ph s.2.2

theorem Watched.moment (h : Watched task m e ph s) :
    Moment task.dims task.signs m (fun i => (ph i).finest e) s.2.2 s.2.1 :=
  h.tracked.moment h.recent ⟨_, h.running.inStep⟩ h.running.found

theorem watched_rule (task : Encoder.Task α κ) (m : Nat → Nat) (e : Nat)
    (he : Magnitude.minPlane α + e ≤ Magnitude.maxPlane α) :
    PlaneRule task.dims
      (fun s q => Encoder.followed task (keeping Sketch.use) s (Magnitude.minPlane α + e, q))
      ⟨True, fun i => 2 ^ e ≤ m i⟩
      (fun _ ph s => Running task m e ph (s.1, s.2.1) ∧
        (Tracked task.dims task.signs m e ph s.2.2 ∧ Recent task.dims e ph s.2.2))
      fun _ => True := by
  refine (running_rule task m e he).extend (π := fun s => (s.1, s.2.1))
    (fun s q => Encoder.followed_keeping task Sketch.use s _) ?_
  intro _ ph ph' s t q b hs ht hanswer hstep h
  obtain ⟨htracked, hrecent⟩ := h
  rcases Encoder.answer_of_followed hanswer with ⟨hfree, hb, hkept⟩ | ⟨-, -, hkept⟩
  · cases q with
    | significance subject implied =>
      obtain ⟨-, hph⟩ := hstep
      rw [hb, if_pos rfl] at hph
      rw [hph, hkept]
      exact ⟨htracked, hrecent⟩
    | sign i => cases hfree
    | refinement i => cases hfree
  · rw [hkept]
    refine ⟨htracked.step hrecent ⟨_, hs.inStep⟩ hs.found rfl hstep, .inl fun x hx => ?_⟩
    rw [keeping, List.getLast?_concat] at hx
    cases hx
    rfl

/-- What holds between planes, the plane `e` being the last one that is settled. -/
def Reached (task : Encoder.Task α κ) (m : Nat → Nat) (e : Nat) (p : Progress)
    (s : Encoder.State α κ × (Sketch α × Trail α)) : Prop :=
  ∃ ph, IsEnd task.dims p ph ∧ Watched task m e ph s ∧ EndsIn e s.2.2

theorem Reached.next (h : Reached task m (e + 1) p s) :
    ∃ ph', IsStart task.dims p ph' ∧ Watched task m e ph' s := by
  obtain ⟨ph, hend, ⟨hrunning, htracked, -⟩, hin⟩ := h
  obtain ⟨ph', hstart, hrunning'⟩ := hrunning.next hend
  refine ⟨ph', hstart, hrunning', ⟨fun x hx => ?_, fun i hi => ?_, htracked.nodup, htracked.past,
    htracked.turned⟩, .inr ⟨hin, fun i hi => ?_⟩⟩
  · obtain ⟨coarser, hc, hf⟩ := htracked.grown x hx
    refine ⟨coarser, hc, fun i hi => ?_⟩
    rw [(phase_next hend hstart hi).2.1]
    exact hf i hi
  · rw [(phase_next (e := e) hend hstart hi).2.2]
    exact htracked.signed i hi
  · rw [(phase_next hend hstart hi).2.1, (phase_next hend hstart hi).1]

/-- No plane is settled without a bit, since there are elements to settle. -/
theorem Watched.reached (h : Watched task m e ph s) (hd : task.dims.validate = .ok ())
    (hend : IsEnd task.dims p ph) : Reached task m e p s := by
  obtain ⟨hflat, -⟩ := validate_eq_ok_iff.mp hd
  have hpos : 0 < task.dims.volume := by
    rw [Nat.pos_iff_ne_zero, Ne, volume_eq_zero_iff, hflat]
    exact Bool.false_ne_true
  refine ⟨ph, hend, h, ?_⟩
  rcases h.recent with hin | ⟨-, hph⟩
  · exact hin
  · have hfinest := hph 0 hpos
    rw [hend 0 hpos] at hfinest
    split at hfinest
    next => exact absurd hfinest (by simp [Phase.finest])
    next => exact absurd hfinest (by simp [Phase.finest])

/-- The turns through all planes of an array that is coded without a limit. -/
theorem ownPlanes_reached {magnitudes : Array α} (hd : task.dims.validate = .ok ())
    (hm : Counted task.dims magnitudes m) (hroom : task.limit.isReached 0 = false) :
    (Encoder.ownPlanes task magnitudes).Ensures (Encoder.followed task (keeping Sketch.use))
      (Encoder.State.initial task magnitudes, (Sketch.blank α task.dims, []))
      (Reached task m (bottom magnitudes)) fun _ => True := by
  obtain ⟨hend, hrunning⟩ := running_initial hd hm hroom
  have hlast : EndsIn (α := α) (bottom magnitudes + ownCount magnitudes) [] :=
    fun x hx => by cases hx
  refine ownPlanes_run (A := Reached task m) magnitudes hd (watched_rule task m) ?_ ?_
    ⟨_, hend, ⟨hrunning, ⟨fun x hx => ?_, fun i _ => ?_, List.nodup_nil, fun n x hx => ?_,
      fun n x y hx => ?_⟩, .inl hlast⟩, hlast⟩
  · intro e p t h
    obtain ⟨ph, hph, hrunning, htracked, hrecent⟩ := h.next
    exact ⟨ph, hph, hrunning, htracked, hrecent⟩
  · intro e p ph t hph h
    exact Watched.reached ⟨h.1, h.2.1, h.2.2⟩ hd hph
  · cases hx
  · simp [signedElements, Phase.isSignificant]
  · cases hx
  · cases hx

end Run

/-- Bits that unfold the numbers `m` plane by plane: every number of them is good for something,
and a plane is complete when its last bit is there. -/
structure Unfolds (dims : Extents) (signs : Array Bool) (m : Nat → Nat) (highest : Int)
    (α : Type) [Magnitude α] [ExactPlanes α] (bits : List Bool) : Prop where
  length : (Trail.ofBits α dims highest bits).length = bits.length
  nodup : (signedElements ((Trail.ofBits α dims highest bits).map Turn.question)).Nodup
  moment : ∀ n ≤ bits.length, ∃ finest, Moment dims signs m finest
    ((Trail.ofBits α dims highest bits).take n) (Sketch.ofBits α dims highest (bits.take n))
  complete : ∀ n x, (Trail.ofBits α dims highest bits)[n]? = some x →
    (∀ y, (Trail.ofBits α dims highest bits)[n + 1]? = some y → x.question.1 ≠ y.question.1) →
    ∃ e : Nat, x.question.1 = Magnitude.minPlane α + e ∧
      Shows dims signs m (fun _ => e) (Sketch.ofBits α dims highest (bits.take (n + 1)))

/-- The turns that lead through all planes have passed through every moment before. -/
theorem Reached.unfolds {task : Encoder.Task α κ} {p : Progress} {u : Encoder.State α κ}
    {highest : Int} {bits : List Bool}
    (hlen : (Trail.ofBits α task.dims highest bits).length = bits.length)
    (h : Reached task m e p
      (u, (Sketch.ofBits α task.dims highest bits, Trail.ofBits α task.dims highest bits))) :
    Unfolds task.dims task.signs m highest α bits := by
  obtain ⟨ph, hend, hwatched, hlast⟩ := h
  have hmoment := hwatched.moment
  obtain ⟨hrunning, htracked, -⟩ := hwatched
  refine ⟨hlen, htracked.nodup, fun n hn => ?_, fun n x hx hnext => ?_⟩
  · rcases Nat.lt_or_eq_of_le hn with hlt | rfl
    · have hx := List.getElem?_eq_getElem (l := Trail.ofBits α task.dims highest bits)
        (hlen ▸ hlt)
      obtain ⟨finest, hpast⟩ := htracked.past n _ hx
      rw [before_trail hx] at hpast
      exact ⟨finest, hpast⟩
    · rw [← hlen, List.take_length, hlen, List.take_length]
      exact ⟨_, hmoment⟩
  · obtain ⟨hn, -⟩ := List.getElem?_eq_some_iff.mp hx
    rcases Nat.lt_or_eq_of_le hn with hlt | heq
    · have hy := List.getElem?_eq_getElem hlt
      obtain ⟨e', hplane, hshows⟩ := htracked.turned n x _ hx hy (hnext _ hy)
      rw [before_trail hy] at hshows
      exact ⟨e', hplane, hshows⟩
    · have hx' : (Trail.ofBits α task.dims highest bits).getLast? = some x := by
        rw [List.getLast?_eq_getElem?, ← heq]
        exact hx
      refine ⟨e, hlast x hx', ?_⟩
      rw [show n + 1 = bits.length from heq.trans hlen, List.take_length]
      refine Shows.congr ⟨_, hrunning.inStep⟩ fun i hi => ?_
      rw [hend i hi]
      split <;> rfl

/-- An encoder without a limit leads one who keeps the turns through all turns of its bits. -/
theorem Encoder.conduct_keeping (dims : Extents) (signs : Array Bool) (magnitudes : Array α) :
    let all : Encoder.Task α Unit := ⟨dims, signs, none, .never⟩
    ∃ p u, (Encoder.ownPlanes all magnitudes).conduct (Encoder.followed all (keeping Sketch.use))
        (Encoder.State.initial all magnitudes, (Sketch.blank α dims, [])) =
      (some p, u, Sketch.ofBits α dims (topPlane magnitudes).toInt (Encoder.written all magnitudes),
        Trail.ofBits α dims (topPlane magnitudes).toInt (Encoder.written all magnitudes)) := by
  intro all
  have hkeep := Dialogue.follow_keeping isFree Sketch.use
    (allPlanes α dims (topPlane magnitudes).toInt) (Encoder.written all magnitudes)
    (Sketch.blank α dims) []
  obtain ⟨p, u, hconduct⟩ := Encoder.conduct_all dims signs magnitudes
    (keeping Sketch.use) (Sketch.blank α dims, [])
  rw [hkeep, List.nil_append] at hconduct
  exact ⟨p, u, hconduct⟩

/-- The bits of an array that is coded without a limit unfold its numbers. -/
theorem unfolds_written (signs : Array Bool) {magnitudes : Array α}
    (hd : dims.validate = .ok ()) (hm : Counted dims magnitudes m) :
    Unfolds dims signs m (topPlane magnitudes).toInt α
      (Encoder.written (⟨dims, signs, none, .never⟩ : Encoder.Task α Unit) magnitudes) := by
  let all : Encoder.Task α Unit := ⟨dims, signs, none, .never⟩
  have hlen := Dialogue.length_turns isFree Sketch.use
    (allPlanes α all.dims (topPlane magnitudes).toInt) (Encoder.written all magnitudes)
    (Sketch.blank α all.dims)
  rw [(Encoder.exhausts_written all magnitudes).rest _, List.length_nil, Nat.add_zero] at hlen
  have hensures := ownPlanes_reached hd hm (rfl : all.limit.isReached 0 = false)
  obtain ⟨p, u, hconduct⟩ := Encoder.conduct_keeping dims signs magnitudes
  unfold Dialogue.Ensures at hensures
  rw [hconduct] at hensures
  exact Reached.unfolds hlen hensures

end History

end VolumeCodec
