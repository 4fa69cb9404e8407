import VolumeCodec.Proofs.ResidualBounds

namespace VolumeCodec

variable {α β κ : Type}

/-- The answer to a question of the plane `e` of an array of so many units. -/
def Query.answer (q : Query) (dims : Extents) (signs : Array Bool) (m : Nat → Nat) (e : Nat) : Bool :=
  match q with
  | .significance subject _ => (subject.indices dims).any fun i => decide (2 ^ e ≤ m i)
  | .sign i => signs.getD i true
  | .refinement i => decide (2 ^ e ≤ m i % 2 ^ (e + 1))

/-- One who knows all answers, and writes down those that are not implied, the last one first. -/
def answering (answer : Int × Query → Bool) (bits : List Bool) (q : Int × Query) :
    Reply (List Bool) :=
  if isFree q then .answer true bits else .answer (answer q) (answer q :: bits)

namespace Encoder

variable [Magnitude α]

/-- The bit that answers a question about some residuals. -/
def shown (dims : Extents) (signs : Array Bool) (plane : Int) (residuals : Array α) (q : Query) :
    Bool :=
  (prepare (⟨dims, signs, none, .never⟩ : Task α Unit) plane ⟨residuals, (), [], 0⟩ q).1

theorem prepare_fst (task : Task α κ) (plane : Int) (s : State α κ) (q : Query) :
    (prepare task plane s q).1 = shown task.dims task.signs plane s.residuals q := by
  cases q with
  | significance subject implied => rfl
  | sign i => rfl
  | refinement i =>
    simp only [shown, prepare]
    split <;> rfl

/-- An encoder that nothing stops and that gives the known answers writes them. -/
theorem conduct_answering (task : Task α Unit) (answer : Int × Query → Bool)
    (d : Dialogue (Int × Query) β) {s : State α Unit} {l : List ((Int × Query) × Bool)}
    (h : ∀ x ∈ (d.conduct (noting (fun s q _ => [(q, shown task.dims task.signs q.1 s.residuals q.2)])
      (respond task.unlimited)) (s, l)).2.2, isFree x.1 = false → x.2 = answer x.1) :
    (d.conduct (respond task.unlimited) s).1 = (d.conduct (answering answer) s.bits).1 ∧
      (d.conduct (respond task.unlimited) s).2.bits = (d.conduct (answering answer) s.bits).2 := by
  induction d generalizing s l with
  | done a => exact ⟨rfl, rfl⟩
  | ask q next ih =>
    simp only [Dialogue.conduct, noting] at h ⊢
    cases hf : q.2.isImplied with
    | true =>
      have hq : isFree q = true := hf
      simp only [respond, reply_of_implied _ q.1 _ hf, Reply.map] at h ⊢
      simp only [answering, hq, if_true]
      exact ih true h
    | false =>
      have hq : isFree q = false := hf
      simp only [respond_unlimited task _ hf, Reply.map] at h ⊢
      obtain ⟨more, hmore⟩ := Dialogue.conduct_noting
        (fun (s : State α Unit) q _ => [(q, shown task.dims task.signs q.1 s.residuals q.2)])
        (respond task.unlimited) (next (prepare task.unlimited q.1 s q.2).1)
        ((prepare task.unlimited q.1 s q.2).2.write (prepare task.unlimited q.1 s q.2).1)
        (l ++ [(q, shown task.dims task.signs q.1 s.residuals q.2)])
      have hnow := h (q, shown task.dims task.signs q.1 s.residuals q.2) (by
        rw [hmore]
        simp) hq
      have hbit : (prepare task.unlimited q.1 s q.2).1 = answer q :=
        (prepare_fst task.unlimited q.1 s q.2).trans hnow
      simp only [answering, hq, Bool.false_eq_true, if_false]
      have hnext := ih (prepare task.unlimited q.1 s q.2).1 h
      rw [hbit] at hnext ⊢
      simpa only [State.write, bits_prepare] using hnext

end Encoder

section Exact

variable [Magnitude α] [ExactPlanes α] {m : Nat → Nat}

/-- Where an encoder is in step, it gives the true answer to a question that is due. -/
theorem Running.shown_eq {task : Encoder.Task α κ} {e : Nat} {ph : Nat → Phase}
    {s : Encoder.State α κ × Sketch α} {q : Query} (h : Running task m e ph s)
    (hdue : q.IsDue task.dims ph) (he : Magnitude.minPlane α + e ≤ Magnitude.maxPlane α) :
    Encoder.shown task.dims task.signs (Magnitude.minPlane α + e) s.1.residuals q =
      q.answer task.dims task.signs m e := by
  rw [← Encoder.prepare_fst]
  cases q with
  | significance subject implied =>
    refine prepare_significance implied he h.inStep fun i hi => ?_
    obtain ⟨hlt, hph⟩ := hdue i hi
    exact ⟨hlt, hph, h.lt_of_waiting hlt hph⟩
  | sign i => rfl
  | refinement i =>
    have hreaches := h.reaches_iff hdue.1 hdue.2 he
    simp only [Encoder.prepare, Query.answer, ← hreaches]
    split
    next hyes => rw [hyes]; rfl
    next hno => simp only [hno]; rfl

namespace Encoder

variable {dims : Extents} {signs : Array Bool}

/-- An encoder that nothing stops writes the true answers. -/
theorem written_eq_answers {magnitudes : Array α} (hd : dims.validate = .ok ())
    (hm : Counted dims magnitudes m) :
    written (⟨dims, signs, none, .never⟩ : Task α Unit) magnitudes =
      ((codePlanes dims (lowestPlane magnitudes).toInt
        (planeCount (topPlane magnitudes).toInt (lowestPlane magnitudes).toInt)
        (Progress.initial dims)).conduct (answering fun q =>
          q.2.answer dims signs m (q.1 - Magnitude.minPlane α).toNat) []).2.reverse := by
  let task : Task α Unit := ⟨dims, signs, none, .never⟩
  let answer : Int × Query → Bool := fun q =>
    q.2.answer dims signs m (q.1 - Magnitude.minPlane α).toNat
  have hnotes := notes_hold (show task.dims.validate = .ok () from hd) hm
    (fun plane residuals q => [((plane, q), shown dims signs plane residuals q)])
    (P := fun x => x.2 = answer x.1) fun {e ph s q} he hs hdue _ x hx => by
      have hplane : (Magnitude.minPlane α + e - Magnitude.minPlane α).toNat = e := by omega
      rw [List.mem_singleton.mp hx]
      show shown dims signs _ _ _ = q.answer dims signs m _
      rw [hplane]
      exact hs.shown_eq hdue he
  have hlog : notes _ task magnitudes = _ := notes_of_unlimited
    (fun plane residuals q => [((plane, q), shown dims signs plane residuals q)]) task magnitudes
  rw [hlog] at hnotes
  have hconduct := conduct_answering task answer (ownPlanes task magnitudes)
    (s := State.initial task magnitudes) (l := []) fun x hx _ => hnotes x hx
  have hrun := congrArg (fun r => r.2.bits.reverse) (run_never (rfl : task.goal = .never) magnitudes)
  exact hrun.trans (congrArg List.reverse hconduct.2)

end Encoder

end Exact

end VolumeCodec
