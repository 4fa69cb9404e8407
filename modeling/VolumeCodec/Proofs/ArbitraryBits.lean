import VolumeCodec.Proofs.ThresholdArithmetic

namespace VolumeCodec

/-- The places of the elements that a question is about. -/
def Query.indices (q : Query) (dims : Extents) : List Nat :=
  match q with
  | .significance subject _ => subject.indices dims
  | .sign i => [i]
  | .refinement i => [i]

/-- A question is about elements of the array that are due for it. -/
def Query.IsDue (q : Query) (dims : Extents) (ph : Nat → Phase) : Prop :=
  match q with
  | .significance subject _ =>
    ∀ i ∈ subject.indices dims, i < dims.volume ∧ ph i = .waiting
  | .sign i => i < dims.volume ∧ ph i = .waiting
  | .refinement i => i < dims.volume ∧ ph i = .old

theorem Query.IsDue.lt {q : Query} {dims : Extents} {ph : Nat → Phase} (h : q.IsDue dims ph) :
    ∀ i ∈ q.indices dims, i < dims.volume := by
  intro i hi
  cases q with
  | significance subject implied => exact (h i hi).1
  | sign j =>
    rw [List.mem_singleton.mp hi]
    exact h.1
  | refinement j =>
    rw [List.mem_singleton.mp hi]
    exact h.1

theorem noting_fst {σ ι ε : Type} (note : σ → ι → Reply σ → List ε) (reply : σ → ι → Reply σ)
    (s : σ × List ε) (q : ι) : reply s.1 q = (noting note reply s q).map Prod.fst := by
  unfold noting
  cases reply s.1 q <;> rfl

/-- Who takes notes comes to the same result. -/
theorem Dialogue.Ensures.of_noting {σ ι ε α : Type} {note : σ → ι → Reply σ → List ε}
    {reply : σ → ι → Reply σ} {d : Dialogue ι α} {s : σ} {l : List ε}
    {noted : α → σ × List ε → Prop} {stopped : σ × List ε → Prop} {post : α → σ → Prop}
    {halted : σ → Prop} (h : d.Ensures (noting note reply) (s, l) noted stopped)
    (hp : ∀ a t, noted a t → post a t.1) (hh : ∀ t, stopped t → halted t.1) :
    d.Ensures reply s post halted := by
  have hmap := conduct_map Prod.fst (noting_fst note reply) d (s, l)
  unfold Ensures at h ⊢
  dsimp only at hmap
  rw [hmap]
  rcases hc : d.conduct (noting note reply) (s, l) with ⟨_ | a, t⟩
  · rw [hc] at h
    exact hh t h
  · rw [hc] at h
    exact hp a t h

/-- What holds however a dialogue ends holds of the respondent afterwards. -/
theorem Dialogue.Ensures.final {σ ι α : Type} {reply : σ → ι → Reply σ} {d : Dialogue ι α} {s : σ}
    {post : α → σ → Prop} {halted Q : σ → Prop} (h : d.Ensures reply s post halted)
    (hp : ∀ a t, post a t → Q t) (hh : ∀ t, halted t → Q t) : Q (d.conduct reply s).2 := by
  unfold Ensures at h
  rcases hc : d.conduct reply s with ⟨_ | a, t⟩
  · rw [hc] at h
    exact hh t h
  · rw [hc] at h
    exact hp a t h

/-- For one who knows nothing of the elements, an invariant is a rule as soon as each reply to a
question that is due keeps it. -/
theorem PlaneRule.of_replies {σ : Type} {dims : Extents} {reply : σ → Query → Reply σ}
    {I : Nat → (Nat → Phase) → σ → Prop} {H : σ → Prop}
    (hspend : ∀ {c c' ph s}, I c ph s → c' ≤ c → I c' ph s)
    (himplied : ∀ {s subject b t}, reply s (.significance subject true) = .answer b t → b = true)
    (hanswer : ∀ {c ph ph' s t q b}, I (c + 1) ph s → q.IsDue dims ph →
      reply s q = .answer b t → PhaseStep dims ph q b ph' → I c ph' t)
    (hhalt : ∀ {c ph s t q}, I (c + 1) ph s → q.IsDue dims ph → reply s q = .halt t → H t) :
    PlaneRule dims reply ⟨False, fun _ => False⟩ I H where
  spend := hspend
  refine {_ ph s i} h hi hph := by
    have hdue : Query.IsDue (.refinement i) dims ph := ⟨hi, hph⟩
    cases hr : reply s (.refinement i) with
    | answer b t => exact hanswer h hdue hr ⟨hi, hph, rfl⟩
    | halt t => exact hhalt h hdue hr
  sign {_ ph s i} h hi hph _ := by
    have hdue : Query.IsDue (.sign i) dims ph := ⟨hi, hph⟩
    cases hr : reply s (.sign i) with
    | answer b t => exact hanswer h hdue hr ⟨hi, hph, rfl⟩
    | halt t => exact hhalt h hdue hr
  test {_ ph s subject implied} h hw _ := by
    have hdue : Query.IsDue (.significance subject implied) dims ph := hw
    cases hr : reply s (.significance subject implied) with
    | answer b t =>
      refine ⟨fun hi => ?_, fun hb => ⟨fun hf => hf.elim, ?_⟩, fun hb => ⟨fun hf => hf.elim, ?_⟩⟩
      · subst hi
        exact himplied hr
      · subst hb
        exact hanswer h hdue hr ⟨hw, rfl⟩
      · subst hb
        exact hanswer h hdue hr ⟨hw, rfl⟩
    | halt t => exact hhalt h hdue hr

/-- What every reply to a question that is due keeps is kept by a run through some planes, wherever
it ends. -/
theorem kept_by_planes {σ : Type} {dims : Extents} {reply : σ → Int × Query → Reply σ}
    {T : σ → Prop} (hd : dims.validate = .ok ())
    (himplied : ∀ {s plane subject b t},
      reply s (plane, .significance subject true) = .answer b t → b = true)
    (hkeep : ∀ {s ph q}, T s → q.2.IsDue dims ph → T (reply s q).state)
    (lowest : Int) (count : Nat) {s : σ} (h : T s) :
    T ((codePlanes dims lowest count (Progress.initial dims)).conduct reply s).2 := by
  obtain ⟨hsettled, -⟩ := Settled.initial hd
  have hrule : ∀ j < count, PlaneRule dims (fun s q => reply s (lowest + j, q))
      ⟨False, fun _ => False⟩ (fun _ _ => T) T := fun j _ =>
    .of_replies (fun h _ => h) himplied
      (fun {_ _ _ _ _ q _} h hq hr _ => by
        have hkept := hkeep (q := (lowest + j, q)) h hq
        rwa [hr] at hkept)
      (fun {_ _ _ _ q} h hq hr => by
        have hkept := hkeep (q := (lowest + j, q)) h hq
        rwa [hr] at hkept)
  refine (codePlanes_ensures (c := 0) (A := fun _ _ _ => T) hrule (fun _ _ p _ h =>
    ⟨fun i => if i ∈ p.lists.significant.toList then .old else .waiting, fun _ _ => rfl, h⟩)
    (fun _ _ _ _ _ _ h => h) (Nat.le_refl _) hsettled h).final (fun _ _ h => h.2) fun _ h => h

/-- What holds of integers that are recovered from any bits, in the plane `e` out of `count` planes:
an element has a bit exactly if it is significant, and none below the planes that it was refined
in. -/
structure Sketch.IsSound {n : Nat} (dims : Extents) (count e : Nat) (ph : Nat → Phase)
    (k : Sketch (BitVec n)) : Prop where
  size_magnitudes : k.magnitudes.size = dims.volume
  size_signs : k.signs.size = dims.volume
  dvd : ∀ i < dims.volume, 2 ^ (ph i).finest e ∣ (k.magnitudes.getD i 0#n).toNat
  lt : ∀ i < dims.volume, (k.magnitudes.getD i 0#n).toNat < 2 ^ count
  found : ∀ i < dims.volume, ((ph i).isSignificant = true ↔ k.magnitudes.getD i 0#n ≠ 0#n)
  sign : ∀ i < dims.volume, k.magnitudes.getD i 0#n = 0#n → k.signs.getD i true = true

namespace Sketch.IsSound

variable {n : Nat} {dims : Extents} {count e i : Nat} {ph ph' : Nat → Phase}
  {k k' : Sketch (BitVec n)}

/-- One element gets another number, which is not zero. -/
theorem change (h : Sketch.IsSound dims count e ph k) (hsm : k'.magnitudes.size = k.magnitudes.size)
    (hss : k'.signs.size = k.signs.size)
    (hne : ∀ j ≠ i, k'.magnitudes.getD j 0#n = k.magnitudes.getD j 0#n ∧
      k'.signs.getD j true = k.signs.getD j true)
    (hd : 2 ^ e ∣ (k'.magnitudes.getD i 0#n).toNat)
    (hl : (k'.magnitudes.getD i 0#n).toNat < 2 ^ count)
    (hz : k'.magnitudes.getD i 0#n ≠ 0#n) :
    Sketch.IsSound dims count e (mark ph [i] .done) k' where
  size_magnitudes := hsm.trans h.size_magnitudes
  size_signs := hss.trans h.size_signs
  dvd j hj := by
    by_cases he : j = i
    · rw [he, mark_of_mem (by simp)]
      exact hd
    · rw [mark_of_not_mem (by simpa using he), (hne j he).1]
      exact h.dvd j hj
  lt j hj := by
    by_cases he : j = i
    · exact he ▸ hl
    · rw [(hne j he).1]
      exact h.lt j hj
  found j hj := by
    by_cases he : j = i
    · rw [he, mark_of_mem (by simp)]
      exact ⟨fun _ => hz, fun _ => rfl⟩
    · rw [mark_of_not_mem (by simpa using he), (hne j he).1]
      exact h.found j hj
  sign j hj hm := by
    by_cases he : j = i
    · exact absurd (he ▸ hm) hz
    · obtain ⟨hmag, hsign⟩ := hne j he
      rw [hsign]
      exact h.sign j hj (hmag ▸ hm)

/-- The other phases are as fine or finer, and hold the same elements for significant. -/
theorem relax (h : Sketch.IsSound dims count e ph k)
    (hph : ∀ i < dims.volume, (ph' i).finest e ≤ (ph i).finest e ∧
      (ph' i).isSignificant = (ph i).isSignificant) : Sketch.IsSound dims count e ph' k where
  size_magnitudes := h.size_magnitudes
  size_signs := h.size_signs
  dvd j hj := Nat.dvd_trans (Nat.pow_dvd_pow 2 (hph j hj).1) (h.dvd j hj)
  lt := h.lt
  found j hj := by
    rw [(hph j hj).2]
    exact h.found j hj
  sign := h.sign

/-- A number that has been found above the plane `e` leaves room for its threshold. -/
theorem room (h : Sketch.IsSound dims count e ph k) (he : e < count) (hi : i < dims.volume)
    (hph : ph i = .old) : (k.magnitudes.getD i 0#n).toNat + 2 ^ e < 2 ^ count := by
  have hdvd := h.dvd i hi
  have hlt := h.lt i hi
  rw [hph] at hdvd
  obtain ⟨a, ha⟩ := hdvd
  obtain ⟨m, rfl⟩ := Nat.exists_eq_add_of_lt he
  have hsplit : 2 ^ (e + m + 1) = 2 ^ (e + 1) * 2 ^ m := by
    rw [← Nat.pow_add]
    congr 1
    omega
  have htwo : 2 ^ (e + 1) = 2 * 2 ^ e := Nat.pow_succ'
  have hpos := Nat.two_pow_pos e
  rw [ha, Phase.finest, hsplit] at hlt ⊢
  have ham : a + 1 ≤ 2 ^ m := Nat.lt_of_mul_lt_mul_left hlt
  have hmul := Nat.mul_le_mul_left (2 ^ (e + 1)) ham
  rw [Nat.mul_add] at hmul
  omega

theorem refinement (h : Sketch.IsSound dims count e ph k) (he : e < count) (hn : count ≤ n)
    (hi : i < dims.volume) (hph : ph i = .old) (b : Bool) :
    Sketch.IsSound dims count e (mark ph [i] .done) (k.use ((e : Int), .refinement i) b) := by
  have hroom := h.room he hi hph
  have hdvd : 2 ^ e ∣ (k.magnitudes.getD i 0#n).toNat := by
    have hfine := h.dvd i hi
    rw [hph] at hfine
    exact Nat.dvd_trans (Nat.pow_dvd_pow 2 (Nat.le_succ e)) hfine
  have hsig : k.magnitudes.getD i 0#n ≠ 0#n := (h.found i hi).mp (by rw [hph]; rfl)
  cases b with
  | false => exact h.change rfl rfl (fun j _ => ⟨rfl, rfl⟩) hdvd (h.lt i hi) hsig
  | true =>
    have him : i < k.magnitudes.size := by rw [h.size_magnitudes]; exact hi
    have hsum : (k.magnitudes.getD i 0#n + BitVec.twoPow n e).toNat =
        (k.magnitudes.getD i 0#n).toNat + 2 ^ e := by
      have hpow := Nat.pow_le_pow_right (n := 2) (by decide) hn
      rw [BitVec.toNat_add, BitVec.toNat_twoPow_of_lt (by omega), Nat.mod_eq_of_lt (by omega)]
    have hat : (k.use ((e : Int), .refinement i) true).magnitudes.getD i 0#n =
        k.magnitudes.getD i 0#n + BitVec.twoPow n e :=
      (getD_modify _ _ _ _ _ him).trans (if_pos rfl)
    refine h.change (Array.size_modify ..) rfl (fun j hj => ⟨?_, rfl⟩) ?_ ?_ fun hz => ?_
    · exact (getD_modify _ _ _ _ _ him).trans (if_neg hj)
    · rw [hat, hsum]
      exact Nat.dvd_add hdvd (Nat.dvd_refl _)
    · rw [hat, hsum]
      exact hroom
    · have hpos := Nat.two_pow_pos e
      have hzero := congrArg BitVec.toNat hz
      rw [hat, hsum, BitVec.toNat_zero] at hzero
      omega

theorem signed (h : Sketch.IsSound dims count e ph k) (he : e < count) (hn : count ≤ n)
    (hi : i < dims.volume) (b : Bool) :
    Sketch.IsSound dims count e (mark ph [i] .done) (k.use ((e : Int), .sign i) b) := by
  have him : i < k.magnitudes.size := by rw [h.size_magnitudes]; exact hi
  have his : i < k.signs.size := by rw [h.size_signs]; exact hi
  have hpow : (BitVec.twoPow n e).toNat = 2 ^ e := BitVec.toNat_twoPow_of_lt (by omega)
  have hat : (k.use ((e : Int), .sign i) b).magnitudes.getD i 0#n = BitVec.twoPow n e :=
    (getD_setIfInBounds _ _ _ _ _ him).trans (if_pos rfl)
  refine h.change (Array.size_setIfInBounds ..) (Array.size_setIfInBounds ..)
    (fun j hj => ⟨?_, ?_⟩) ?_ ?_ fun hz => ?_
  · exact (getD_setIfInBounds _ _ _ _ _ him).trans (if_neg hj)
  · exact (getD_setIfInBounds _ _ _ _ _ his).trans (if_neg hj)
  · rw [hat, hpow]
  · rw [hat, hpow]
    exact Nat.pow_lt_pow_right (by decide) he
  · have hpos := Nat.two_pow_pos e
    have hzero := congrArg BitVec.toNat hz
    rw [hat, hpow, BitVec.toNat_zero] at hzero
    omega

/-- Whatever a bit says, the integers stay sound. -/
theorem step {q : Query} {b : Bool} (h : Sketch.IsSound dims count e ph k) (he : e < count)
    (hn : count ≤ n) (hstep : PhaseStep dims ph q b ph') :
    Sketch.IsSound dims count e ph' (k.use ((e : Int), q) b) := by
  cases q with
  | refinement i =>
    obtain ⟨hi, hph, rfl⟩ := hstep
    exact h.refinement he hn hi hph b
  | sign i =>
    obtain ⟨hi, -, rfl⟩ := hstep
    exact h.signed he hn hi b
  | significance subject implied =>
    refine h.relax fun i _ => ⟨hstep.finest_le e i, ?_⟩
    rw [Bool.eq_iff_iff, hstep.isSignificant_iff i]
    simp [Query.signed?]

/-- No sum that a bit asks for wraps around. -/
theorem addition_lt {q : Query} {b : Bool} {x : BitVec n × BitVec n}
    (h : Sketch.IsSound dims count e ph k) (he : e < count) (hn : count ≤ n) (hq : q.IsDue dims ph)
    (hx : x ∈ k.addition (e : Int) q b) : x.1.toNat + x.2.toNat < 2 ^ count := by
  cases q with
  | significance subject implied => cases hx
  | sign i => cases hx
  | refinement i =>
    rw [Sketch.addition] at hx
    split at hx
    next =>
      rw [List.mem_singleton.mp hx]
      have hpow : (BitVec.twoPow n e).toNat = 2 ^ e := BitVec.toNat_twoPow_of_lt (by omega)
      have hroom := h.room he hq.1 hq.2
      rw [← hpow] at hroom
      exact hroom
    next => cases hx

/-- What is recovered after one plane is where the next one below starts from. -/
theorem next {p : Progress} (h : Sketch.IsSound dims count (e + 1) ph k) (hp : IsEnd dims p ph) :
    ∃ ph', IsStart dims p ph' ∧ Sketch.IsSound dims count e ph' k := by
  let ph' : Nat → Phase := fun i => if i ∈ p.lists.significant.toList then .old else .waiting
  have hstart : IsStart dims p ph' := fun i _ => rfl
  refine ⟨ph', hstart, h.size_magnitudes, h.size_signs, fun i hi => ?_, h.lt, fun i hi => ?_,
    h.sign⟩
  · rw [(phase_next hp hstart hi).2.1]
    exact h.dvd i hi
  · rw [(phase_next (e := e) hp hstart hi).2.2]
    exact h.found i hi

theorem blank (dims : Extents) :
    Sketch.IsSound dims count e (fun _ => .cold) (Sketch.blank (BitVec n) dims) := by
  have hzero : ∀ i < dims.volume, (Sketch.blank (BitVec n) dims).magnitudes.getD i 0#n = 0#n := by
    intro i hi
    simp [Sketch.blank, Array.getD, hi]
    rfl
  refine ⟨Array.size_replicate, Array.size_replicate, fun i hi => ?_, fun i hi => ?_,
    fun i hi => ?_, fun i hi _ => ?_⟩
  · rw [hzero i hi]
    exact Nat.dvd_zero _
  · rw [hzero i hi]
    exact Nat.two_pow_pos count
  · rw [hzero i hi]
    simp [Phase.isSignificant]
  · simp [Sketch.blank, Array.getD, hi]

end Sketch.IsSound

namespace Decoder

section Replies

variable {α : Type} [Magnitude α] {limit : Nat} {s t : State α} {q : Int × Query} {b : Bool}

theorem answer_of_respond (h : respond limit s q = .answer b t) :
    t.sketch = s.sketch.use q b ∧ (isFree q = true → b = true) := by
  cases hf : isFree q with
  | true =>
    rw [respond_of_free hf] at h
    cases h
    obtain ⟨plane, q⟩ := q
    cases q with
    | significance subject implied => exact ⟨rfl, fun _ => rfl⟩
    | sign i => cases hf
    | refinement i => cases hf
  | false =>
    refine ⟨?_, fun hn => Bool.noConfusion hn⟩
    by_cases hlt : s.bitCount < limit
    · obtain ⟨u, hr, -, -, hsketch⟩ := respond_of_coded hf hlt
      rw [hr] at h
      cases h
      exact hsketch
    · rw [respond_at_limit hf (Nat.not_lt.mp hlt)] at h
      cases h

theorem halt_of_respond (h : respond limit s q = .halt t) : t = s := by
  cases hf : isFree q with
  | true =>
    rw [respond_of_free hf] at h
    cases h
  | false =>
    by_cases hlt : s.bitCount < limit
    · obtain ⟨u, hr, -⟩ := respond_of_coded hf hlt
      rw [hr] at h
      cases h
    · rw [respond_at_limit hf (Nat.not_lt.mp hlt)] at h
      cases h
      rfl

end Replies

/-- A decoder before the first plane. -/
def State.initial (α : Type) [Magnitude α] (dims : Extents) (tape : Tape) : State α where
  magnitudes := Array.replicate dims.volume Magnitude.zero
  signs := Array.replicate dims.volume true
  tape := tape

/-- Decodes the planes from `highest` down to `lowest`. -/
def runTo (α : Type) [Magnitude α] (dims : Extents) (limit : Nat) (highest lowest : Int)
    (tape : Tape) : Option Progress × State α :=
  conductPlanes dims (reply limit) lowest (planeCount highest lowest) (Progress.initial dims)
    (State.initial α dims tape)

section Run

variable {α : Type} [Magnitude α] {ε : Type} {dims : Extents} {lowest : Int} {N budget limit : Nat}
  {J : Nat → (Nat → Phase) → Sketch α → Prop} {P : ε → Prop}
  {note : State α → Int × Query → Reply (State α) → List ε}

/-- What a sketch keeps through `N` planes, whatever the bits are: `J m` in the plane `m` planes above
the lowest. -/
structure SketchRule (dims : Extents) (lowest : Int) (N : Nat)
    (J : Nat → (Nat → Phase) → Sketch α → Prop) : Prop where
  blank : J N (fun _ => .cold) (Sketch.blank α dims)
  next : ∀ {m p ph k}, J (m + 1) ph k → IsEnd dims p ph → ∃ ph', IsStart dims p ph' ∧ J m ph' k
  step : ∀ {m ph ph' k q b}, m < N → J m ph k → PhaseStep dims ph q b ph' →
    J m ph' (k.use (lowest + m, q) b)

theorem SketchRule.trivial (dims : Extents) (lowest : Int) (N : Nat) :
    SketchRule (α := α) dims lowest N fun _ _ _ => True where
  blank := .intro
  next {_ p _ _} _ _ :=
    ⟨fun i => if i ∈ p.lists.significant.toList then .old else .waiting, fun _ _ => rfl, .intro⟩
  step _ _ _ := .intro

theorem SketchRule.sound {n low count : Nat} (hplanes : ∀ m < N, low + m < count) (hn : count ≤ n) :
    SketchRule (α := BitVec n) dims low N fun m => Sketch.IsSound dims count (low + m) where
  blank := .blank dims
  next h hp := h.next hp
  step {m _ _ k q b} hm h hstep := by
    have hk := h.step (hplanes m hm) hn hstep
    rwa [Int.natCast_add] at hk

/-- The notes of a decoder have a property, and there is at most one for each question. -/
structure Noted (P : ε → Prop) (budget c : Nat) (notes : List ε) : Prop where
  all : ∀ x ∈ notes, P x
  length : notes.length + c ≤ budget

theorem Noted.append {c : Nat} {notes new : List ε} (h : Noted P budget (c + 1) notes)
    (hp : ∀ x ∈ new, P x) (hl : new.length ≤ 1) : Noted P budget c (notes ++ new) := by
  refine ⟨fun x hx => ?_, ?_⟩
  · rcases List.mem_append.mp hx with hx | hx
    · exact h.all x hx
    · exact hp x hx
  · have := h.length
    rw [List.length_append]
    omega

theorem noting_rule (R : SketchRule dims lowest N J) (limit budget : Nat) {m : Nat} (hm : m < N)
    (hnote : ∀ {ph s q r}, J m ph s.sketch → q.IsDue dims ph →
      ∀ x ∈ note s (lowest + m, q) r, P x)
    (hlength : ∀ s q r, (note s q r).length ≤ 1) :
    PlaneRule dims (fun s q => noting note (respond limit) s (lowest + m, q))
      ⟨False, fun _ => False⟩ (fun c ph s => J m ph s.1.sketch ∧ Noted P budget c s.2)
      (fun s => (∃ m ph, J m ph s.1.sketch) ∧ Noted P budget 0 s.2) := by
  refine .of_replies (fun h hc => ⟨h.1, h.2.all, ?_⟩) ?_ ?_ ?_
  · have := h.2.length
    omega
  · intro s subject b t hr
    rw [noting, respond_of_free rfl] at hr
    cases hr
    rfl
  · intro c ph ph' s t q b h hq hr hstep
    rw [noting] at hr
    cases hrespond : respond limit s.1 (lowest + m, q) with
    | answer b' u =>
      rw [hrespond] at hr
      cases hr
      refine ⟨?_, h.2.append (hnote h.1 hq) (hlength _ _ _)⟩
      rw [(answer_of_respond hrespond).1]
      exact R.step hm h.1 hstep
    | halt u =>
      rw [hrespond] at hr
      cases hr
  · intro c ph s t q h hq hr
    rw [noting] at hr
    cases hrespond : respond limit s.1 (lowest + m, q) with
    | answer b' u =>
      rw [hrespond] at hr
      cases hr
    | halt u =>
      rw [hrespond] at hr
      cases hr
      have hnotes := h.2.append (hnote h.1 hq) (hlength s.1 (lowest + m, q) (.halt u))
      rw [halt_of_respond hrespond] at hnotes ⊢
      exact ⟨⟨m, ph, h.1⟩, hnotes.all, Nat.le_trans (Nat.add_le_add_left (Nat.zero_le c) _)
        hnotes.length⟩

/-- What a decoder of arbitrary bits comes to, whether it is stopped by the limit or not. -/
theorem planes_ensure (R : SketchRule dims lowest N J) (P : ε → Prop)
    (note : State α → Int × Query → Reply (State α) → List ε) (limit : Nat) (tape : Tape)
    (hd : dims.validate = .ok ())
    (hnote : ∀ {m ph s q r}, m < N → J m ph s.sketch → q.IsDue dims ph →
      ∀ x ∈ note s (lowest + m, q) r, P x)
    (hlength : ∀ s q r, (note s q r).length ≤ 1) :
    (codePlanes dims lowest N (Progress.initial dims)).Ensures (noting note (respond limit))
      (State.initial α dims tape, [])
      (fun p t => Settled dims p ∧ (∃ ph, IsEnd dims p ph ∧ J 0 ph t.1.sketch) ∧
        Noted P (N * planeFee dims) 0 t.2)
      (fun t => (∃ m ph, J m ph t.1.sketch) ∧ Noted P (N * planeFee dims) 0 t.2) := by
  obtain ⟨hsettled, hsig⟩ := Settled.initial hd
  have hend : IsEnd dims (Progress.initial dims) fun _ => .cold := by
    intro i _
    rw [hsig, if_neg (by simp)]
  refine (codePlanes_ensures (c := 0) (A := fun m c p t =>
    (∃ ph, IsEnd dims p ph ∧ J m ph t.1.sketch) ∧ Noted P (N * planeFee dims) c t.2)
    (fun m hm => noting_rule R limit (N * planeFee dims) hm (hnote hm) hlength) ?_ ?_
    (Nat.le_refl N) hsettled ⟨⟨_, hend, R.blank⟩, ?_, ?_⟩).mono ?_
  · intro m c p t h
    obtain ⟨⟨ph, hph, hr⟩, hnoted⟩ := h
    obtain ⟨ph', hstart, hr'⟩ := R.next hr hph
    exact ⟨ph', hstart, hr', hnoted⟩
  · intro m c p ph t hph h
    exact ⟨⟨ph, hph, h.1⟩, h.2⟩
  · exact fun x hx => by cases hx
  · show 0 + (0 + N * planeFee dims) ≤ _
    omega
  · exact fun p t h => h

theorem planes_keep (R : SketchRule dims lowest N J) (limit : Nat) (tape : Tape)
    (hd : dims.validate = .ok ()) :
    (codePlanes dims lowest N (Progress.initial dims)).Ensures (respond limit)
      (State.initial α dims tape)
      (fun p s => ∃ ph, IsEnd dims p ph ∧ J 0 ph s.sketch) fun s => ∃ m ph, J m ph s.sketch := by
  have hnoted := planes_ensure R (fun _ : Unit => True) (fun _ _ _ => []) limit tape hd
    (fun _ _ _ _ _ => .intro) (fun _ _ _ => Nat.zero_le 1)
  exact hnoted.of_noting (fun _ _ h => h.2.1) fun _ h => h.1

end Run

end Decoder

end VolumeCodec
