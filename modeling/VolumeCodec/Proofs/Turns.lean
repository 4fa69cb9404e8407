import VolumeCodec.Proofs.CodedBits

namespace VolumeCodec

variable {ι σ τ ε α β κ : Type}

def Reply.state : Reply σ → σ
  | .answer _ s => s
  | .halt s => s

def Reply.map (f : σ → τ) : Reply σ → Reply τ
  | .answer b s => .answer b (f s)
  | .halt s => .halt (f s)

@[simp] theorem Reply.state_map (f : σ → τ) (r : Reply σ) : (r.map f).state = f r.state := by
  cases r <;> rfl

theorem Dialogue.conduct_map (f : σ → τ) {reply : σ → ι → Reply σ} {reply' : τ → ι → Reply τ}
    (h : ∀ s q, reply' (f s) q = (reply s q).map f) (d : Dialogue ι α) (s : σ) :
    d.conduct reply' (f s) = ((d.conduct reply s).1, f (d.conduct reply s).2) := by
  induction d generalizing s with
  | done a => rfl
  | ask q next ih =>
    simp only [conduct, h]
    cases reply s q with
    | answer b t => exact ih b t
    | halt t => rfl

/-- A respondent who takes notes of each of its replies. -/
def noting (note : σ → ι → Reply σ → List ε) (reply : σ → ι → Reply σ) (s : σ × List ε) (q : ι) :
    Reply (σ × List ε) :=
  (reply s.1 q).map fun t => (t, s.2 ++ note s.1 q (reply s.1 q))

/-- One bit in a dialogue: the question that it answers, and the state before the answer. -/
structure Turn (σ ι : Type) where
  before : σ
  question : ι
  bit : Bool

/-- One who makes something of each bit, and keeps all turns. -/
def keeping (use : σ → ι → Bool → σ) (s : σ × List (Turn σ ι)) (q : ι) (b : Bool) :
    σ × List (Turn σ ι) :=
  (use s.1 q b, s.2 ++ [⟨s.1, q, b⟩])

namespace Dialogue

/-- The turns of a dialogue that is answered from a list of bits. -/
def turns (free : ι → Bool) (use : σ → ι → Bool → σ) :
    Dialogue ι α → List Bool → σ → List (Turn σ ι)
  | done _, _, _ => []
  | ask q next, bits, s =>
    if free q then (next true).turns free use bits s
    else
      match bits with
      | [] => []
      | b :: rest => ⟨s, q, b⟩ :: (next b).turns free use rest (use s q b)

variable {free : ι → Bool} {use : σ → ι → Bool → σ}

theorem turns_free {q : ι} (h : free q = true) (next : Bool → Dialogue ι α) (bits : List Bool)
    (s : σ) : (ask q next).turns free use bits s = (next true).turns free use bits s := by
  cases bits <;> simp [turns, h]

theorem turns_nil (d : Dialogue ι α) (s : σ) : d.turns free use [] s = [] := by
  induction d with
  | done a => rfl
  | ask q next ih =>
    cases hf : free q with
    | true => rw [turns_free hf, ih true]
    | false => simp [turns, hf]

theorem turns_cons {q : ι} (h : free q = false) (next : Bool → Dialogue ι α) (b : Bool)
    (bits : List Bool) (s : σ) :
    (ask q next).turns free use (b :: bits) s =
      ⟨s, q, b⟩ :: (next b).turns free use bits (use s q b) := by
  simp [turns, h]

/-- There is one turn for each bit that is used up. -/
theorem length_turns (free : ι → Bool) (use : σ → ι → Bool → σ) (d : Dialogue ι α)
    (bits : List Bool) (s : σ) :
    (d.turns free use bits s).length + (d.follow free use bits s).2.1.length = bits.length := by
  induction d generalizing bits s with
  | done a => cases bits <;> simp [turns, follow]
  | ask q next ih =>
    cases hf : free q with
    | true =>
      rw [turns_free hf, follow_free hf]
      exact ih true bits s
    | false =>
      cases bits with
      | nil => rw [turns_nil, follow_nil hf]; rfl
      | cons b bits =>
        have h := ih b bits (use s q b)
        rw [turns_cons hf, follow_cons hf, List.length_cons, List.length_cons]
        omega

theorem turns_take (d : Dialogue ι α) (bits : List Bool) (s : σ) (n : Nat) :
    d.turns free use (bits.take n) s = (d.turns free use bits s).take n := by
  induction d generalizing bits s n with
  | done a => cases bits <;> simp [turns]
  | ask q next ih =>
    cases hf : free q with
    | true =>
      rw [turns_free hf, turns_free hf]
      exact ih true bits s n
    | false =>
      cases n with
      | zero => rw [List.take_zero, List.take_zero, turns_nil]
      | succ n =>
        cases bits with
        | nil => rw [List.take_nil, turns_nil, List.take_nil]
        | cons b bits =>
          rw [List.take_succ_cons, turns_cons hf, turns_cons hf, List.take_succ_cons, ih]

/-- The state before a bit is what the bits in front of it come to. -/
theorem before_turns {d : Dialogue ι α} {bits : List Bool} {s : σ} {n : Nat} {x : Turn σ ι}
    (h : (d.turns free use bits s)[n]? = some x) :
    x.before = (d.follow free use (bits.take n) s).2.2 := by
  induction d generalizing bits s n with
  | done a => simp [turns] at h
  | ask q next ih =>
    cases hf : free q with
    | true =>
      rw [turns_free hf] at h
      rw [follow_free hf]
      exact ih true h
    | false =>
      cases bits with
      | nil => simp [turns_nil] at h
      | cons b bits =>
        rw [turns_cons hf] at h
        cases n with
        | zero =>
          rw [List.getElem?_cons_zero] at h
          cases h
          rw [List.take_zero, follow_of_no_bits]
        | succ n =>
          rw [List.getElem?_cons_succ] at h
          rw [List.take_succ_cons, follow_cons hf]
          exact ih b h

theorem follow_keeping (free : ι → Bool) (use : σ → ι → Bool → σ) (d : Dialogue ι α)
    (bits : List Bool) (s : σ) (l : List (Turn σ ι)) :
    (d.follow free (keeping use) bits (s, l)).2.2 =
      ((d.follow free use bits s).2.2, l ++ d.turns free use bits s) := by
  induction d generalizing bits s l with
  | done a => cases bits <;> simp [follow, turns]
  | ask q next ih =>
    cases hf : free q with
    | true =>
      rw [follow_free hf, follow_free hf, turns_free hf]
      exact ih true bits s l
    | false =>
      cases bits with
      | nil => rw [follow_nil hf, follow_nil hf, turns_nil, List.append_nil]
      | cons b bits =>
        rw [follow_cons hf, follow_cons hf, turns_cons hf]
        refine (ih b bits (use s q b) _).trans ?_
        rw [List.append_assoc, List.singleton_append]

end Dialogue

/-- The element of which a question settles the sign. -/
def Query.signed? : Query → Option Nat
  | .significance _ _ => none
  | .sign i => some i
  | .refinement _ => none

/-- The elements whose signs are asked for by some questions, in the order of the questions. -/
def signedElements (questions : List (Int × Query)) : List Nat :=
  questions.filterMap fun q => q.2.signed?

theorem signedElements_append (a b : List (Int × Query)) :
    signedElements (a ++ b) = signedElements a ++ signedElements b :=
  List.filterMap_append

theorem signedElements_singleton (plane : Int) (q : Query) :
    signedElements [(plane, q)] = q.signed?.toList := by
  cases q <;> rfl

/-- A note of the question, if bits were spent on the reply to it. -/
def spent (count : σ → Nat) (plane : Int) (s : σ) (q : Query) (r : Reply σ) : List (Int × Query) :=
  if count s < count r.state then [(plane, q)] else []

variable [Magnitude α]

namespace Encoder

/-- What an encoder notes on its way through the planes of an array. -/
def notes (note : Int → State α κ → Query → Reply (State α κ) → List ε) (task : Task α κ)
    (magnitudes : Array α) : List ε :=
  let s := State.initial task magnitudes
  let lowest := (lowestPlane magnitudes).toInt
  let count := planeCount (topPlane magnitudes).toInt lowest
  if count ≠ 0 ∧ task.goal.met s.missing then []
  else
    (conductPlanes task.dims (fun plane => noting (note plane) (reply task plane)) lowest count
      (Progress.initial task.dims) (s, [])).2.2

/-- The questions that are answered by the bits of an array, one for each bit, with their planes. -/
def transcript (task : Task α κ) (magnitudes : Array α) : List (Int × Query) :=
  notes (spent State.bitCount) task magnitudes

/-- The notes are those of the run that writes the bits. -/
theorem notes_cases (note : Int → State α κ → Query → Reply (State α κ) → List ε)
    (task : Task α κ) (magnitudes : Array α) :
    (run task (topPlane magnitudes).toInt (lowestPlane magnitudes).toInt magnitudes =
        (none, State.initial task magnitudes) ∧ notes note task magnitudes = []) ∨
    (run task (topPlane magnitudes).toInt (lowestPlane magnitudes).toInt magnitudes =
        (ownPlanes task magnitudes).conduct (respond task) (State.initial task magnitudes) ∧
      notes note task magnitudes =
        ((ownPlanes task magnitudes).conduct
          (noting (fun s q r => note q.1 s q.2 r) (respond task))
          (State.initial task magnitudes, [])).2.2) := by
  unfold run notes State.initial
  dsimp only
  by_cases h : planeCount (topPlane magnitudes).toInt (lowestPlane magnitudes).toInt ≠ 0 ∧
      task.goal.met (task.goal.start magnitudes) = true
  · rw [if_pos h, if_pos h]
    exact .inl ⟨rfl, rfl⟩
  · rw [if_neg h, if_neg h, conductPlanes_eq_conduct, conductPlanes_eq_conduct]
    exact .inr ⟨rfl, rfl⟩

/-- A follower who keeps the turns has a note of every question on which a bit was spent. -/
theorem noting_spent (task : Task α κ) (use : τ → Int × Query → Bool → τ)
    (s : State α κ × (τ × List (Turn τ (Int × Query)))) (q : Int × Query) :
    noting (fun s q r => spent State.bitCount q.1 s q.2 r) (respond task)
        (s.1, s.2.2.map Turn.question) q =
      (followed task (keeping use) s q).map fun t => (t.1, t.2.2.map Turn.question) := by
  obtain ⟨s, k, l⟩ := s
  unfold noting followed
  dsimp only
  cases hf : q.2.isImplied with
  | true =>
    have hq : isFree q = true := hf
    rw [respond, reply_of_implied task q.1 s hf]
    simp [Reply.map, spent, Reply.state, hq]
  | false =>
    have hq : isFree q = false := hf
    rw [respond, reply_of_coded task q.1 s hf]
    rcases emit_cases task (prepare task q.1 s q.2).1 (prepare task q.1 s q.2).2 with
      ⟨he, -⟩ | ⟨-, ⟨he, -⟩ | ⟨he, -⟩⟩
    · rw [he]
      simp [Reply.map, spent, Reply.state]
    · rw [he]
      simp [Reply.map, spent, Reply.state, State.write, keeping]
    · rw [he]
      simp [Reply.map, spent, Reply.state, State.write, keeping, hq]

variable [BoundedPlanes α]

/-- Who is given the bits afterwards is asked the same questions. -/
theorem transcript_eq_turns (task : Task α κ) (magnitudes : Array α)
    (use : τ → Int × Query → Bool → τ) (t : τ) :
    transcript task magnitudes =
      ((allPlanes α task.dims (topPlane magnitudes).toInt).turns isFree use
        (written task magnitudes) t).map Turn.question := by
  have hall := follow_written task magnitudes (keeping use) (t, [])
  have hkeep := Dialogue.follow_keeping isFree use
    (allPlanes α task.dims (topPlane magnitudes).toInt) (written task magnitudes) t []
  rcases notes_cases (spent State.bitCount) task magnitudes with ⟨hrun, hnotes⟩ | ⟨hrun, hnotes⟩
  · have hnil : written task magnitudes = [] := by
      unfold written
      rw [hrun]
      rfl
    rw [hnil, Dialogue.turns_nil]
    exact hnotes
  · have hfollow := follow_of_run hrun (keeping use) (t, [])
    have hmap := Dialogue.conduct_map _ (noting_spent task use) (ownPlanes task magnitudes)
      (State.initial task magnitudes, (t, []))
    rw [hall, hfollow] at hkeep
    unfold transcript
    rw [hnotes]
    refine (congrArg (fun r => r.2.2) hmap).trans ?_
    rw [hkeep]
    rfl

end Encoder

namespace Decoder

/-- What a decoder notes while it recovers an array from `limit` bits of a tape. -/
def notes (note : Int → State α → Query → Reply (State α) → List ε) (outline : Outline)
    (limit : Nat) (tape : Tape) : List ε :=
  let s : State α := {
    magnitudes := Array.replicate outline.dims.volume Magnitude.zero
    signs := Array.replicate outline.dims.volume true
    tape := tape.seekRead 0 }
  let lowest := Magnitude.minPlane α
  (conductPlanes outline.dims (fun plane => noting (note plane) (reply limit plane)) lowest
    (planeCount outline.topPlane.toInt lowest) (Progress.initial outline.dims) (s, [])).2.2

/-- The questions that a decoder answers from a tape, one for each bit, with their planes. -/
def transcript (α : Type) [Magnitude α] (outline : Outline) (limit : Nat) (tape : Tape) :
    List (Int × Query) :=
  notes (α := α) (spent State.bitCount) outline limit tape

/-- Notes that are taken of the bits that are read are notes of the turns with these bits. -/
theorem notes_conduct {note : Int → State α → Query → Reply (State α) → List ε}
    {f : Turn (Sketch α) (Int × Query) → List ε}
    (hcoded : ∀ s t q b, t.bitCount = s.bitCount + 1 →
      note q.1 s q.2 (.answer b t) = f ⟨s.sketch, q, b⟩)
    (hkept : ∀ (s : State α) (q : Int × Query), note q.1 s q.2 (.halt s) = [])
    (hfree : ∀ s q, isFree q = true → note q.1 s q.2 (.answer true s) = [])
    (limit : Nat) (d : Dialogue (Int × Query) β) (s : State α) (l : List ε)
    (hl : s.bitCount ≤ limit) (ht : s.tape.IsFresh) :
    (d.conduct (noting (fun s q r => note q.1 s q.2 r) (respond limit)) (s, l)).2.2 =
      l ++ (d.turns isFree Sketch.use (s.tape.ahead (limit - s.bitCount)) s.sketch).flatMap f := by
  induction d generalizing s l with
  | done a => simp [Dialogue.conduct, Dialogue.turns]
  | ask q next ih =>
    simp only [Dialogue.conduct, noting]
    cases hf : isFree q with
    | true =>
      rw [Dialogue.turns_free hf, respond_of_free hf]
      simp only [Reply.map, hfree s q hf, List.append_nil]
      exact ih true s l hl ht
    | false =>
      by_cases hlt : s.bitCount < limit
      · obtain ⟨t, hr, htape, hcount, hsketch⟩ := respond_of_coded hf hlt
        have hn : limit - s.bitCount = limit - t.bitCount + 1 := by omega
        have hfresh : t.tape.IsFresh := htape ▸ Tape.isFresh_readBit ht
        rw [hr, hn, Tape.ahead_succ ht, Dialogue.turns_cons hf, ← hsketch, ← htape]
        simp only [Reply.map, hcoded s t q _ hcount]
        refine (ih _ t _ (by omega) hfresh).trans ?_
        rw [List.flatMap_cons, List.append_assoc]
      · have hz : limit - s.bitCount = 0 := by omega
        rw [respond_at_limit hf (Nat.not_lt.mp hlt), hz, Tape.ahead_zero, Dialogue.turns_nil]
        simp [Reply.map, hkept]

/-- A decoder that is given some bits notes what there is to note in the turns with these bits. -/
theorem notes_eq_turns {note : Int → State α → Query → Reply (State α) → List ε}
    {f : Turn (Sketch α) (Int × Query) → List ε}
    (hcoded : ∀ s t q b, t.bitCount = s.bitCount + 1 →
      note q.1 s q.2 (.answer b t) = f ⟨s.sketch, q, b⟩)
    (hkept : ∀ (s : State α) (q : Int × Query), note q.1 s q.2 (.halt s) = [])
    (hfree : ∀ s q, isFree q = true → note q.1 s q.2 (.answer true s) = [])
    {outline : Outline} {bits : List Bool} {t : Tape}
    (hb : (t.seekRead 0).ahead bits.length = bits) :
    notes note outline bits.length t =
      ((allPlanes α outline.dims outline.topPlane.toInt).turns isFree Sketch.use bits
        (Sketch.blank α outline.dims)).flatMap f := by
  unfold notes
  dsimp only
  rw [conductPlanes_eq_conduct]
  refine (notes_conduct hcoded hkept hfree bits.length
    (allPlanes α outline.dims outline.topPlane.toInt) _ [] (Nat.zero_le _)
    (Tape.isFresh_seekRead t 0)).trans ?_
  rw [List.nil_append]
  dsimp only
  rw [Nat.sub_zero, hb]
  rfl

theorem transcript_eq_turns {outline : Outline} {bits : List Bool} {t : Tape}
    (hb : (t.seekRead 0).ahead bits.length = bits) :
    transcript α outline bits.length t =
      ((allPlanes α outline.dims outline.topPlane.toInt).turns isFree Sketch.use bits
        (Sketch.blank α outline.dims)).map Turn.question := by
  refine (notes_eq_turns (f := fun x => [x.question]) (fun s t q b h => ?_) (fun s q => ?_)
    (fun s q _ => ?_) hb).trans ?_
  · simp [spent, Reply.state, h]
  · simp [spent, Reply.state]
  · simp [spent, Reply.state]
  · exact List.map_eq_flatMap.symm

end Decoder

end VolumeCodec
