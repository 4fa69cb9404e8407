import VolumeCodec.Proofs.CodedBits
import VolumeCodec.Proofs.PlaneCoding

namespace VolumeCodec

variable {α κ : Type} [Magnitude α]

namespace Encoder

/-- The bits that an encoder has written, and those that it may still write, stay within a bound. -/
def Within (budget c : Nat) (s : State α κ) : Prop :=
  s.bitCount + c ≤ budget

theorem respond_yields (task : Task α κ) {budget c : Nat} {s : State α κ} (q : Int × Query)
    (h : Within budget (c + 1) s) :
    (respond task s q).Yields (fun b t => (q.2.isImplied = true → b = true) ∧ Within budget c t)
      (Within budget 0) := by
  unfold Within at *
  cases hf : q.2.isImplied with
  | true =>
    rw [respond, reply_of_implied task q.1 s hf]
    exact ⟨fun _ => rfl, by omega⟩
  | false =>
    rw [respond, reply_of_coded task q.1 s hf]
    have hcount := bitCount_prepare task q.1 s q.2
    rcases emit_cases task (prepare task q.1 s q.2).1 (prepare task q.1 s q.2).2 with
      ⟨he, -⟩ | ⟨-, ⟨he, -⟩ | ⟨he, -⟩⟩
    · rw [he]
      show (prepare task q.1 s q.2).2.bitCount + 0 ≤ budget
      omega
    · rw [he]
      show (prepare task q.1 s q.2).2.bitCount + 1 + 0 ≤ budget
      omega
    · rw [he]
      refine ⟨fun hn => Bool.noConfusion hn, ?_⟩
      show (prepare task q.1 s q.2).2.bitCount + 1 + c ≤ budget
      omega

/-- Each question takes at most one bit, whatever is known of the elements. -/
theorem within_rule (task : Task α κ) (budget : Nat) (plane : Int) :
    PlaneRule task.dims (fun s q => respond task s (plane, q)) ⟨False, fun _ => False⟩
      (fun c _ => Within budget c) (Within budget 0) where
  spend h hc := by
    unfold Within at *
    omega
  refine {_ _ _ i} h _ _ := (respond_yields task (plane, .refinement i) h).mono fun _ _ ht => ht.2
  sign {_ _ _ i} h _ _ _ := (respond_yields task (plane, .sign i) h).mono fun _ _ ht => ht.2
  test {_ _ _ subject implied} h _ _ :=
    (respond_yields task (plane, .significance subject implied) h).mono fun _ _ ht =>
      ⟨ht.1, fun _ => ⟨fun hf => hf.elim, ht.2⟩, fun _ => ⟨fun hf => hf.elim, ht.2⟩⟩

/-- No array takes more bits than the fees of its planes. -/
theorem length_written_le (task : Task α κ) (magnitudes : Array α)
    (hd : task.dims.validate = .ok ()) :
    (written task magnitudes).length ≤
      planeCount (topPlane magnitudes).toInt (lowestPlane magnitudes).toInt *
        planeFee task.dims := by
  obtain ⟨hcount, -⟩ := written_spec task magnitudes
  rw [← hcount]
  rcases run_cases task magnitudes with ⟨h, -⟩ | h
  · rw [h]
    exact Nat.zero_le _
  · obtain ⟨hsettled, -⟩ := Settled.initial hd
    rw [h]
    generalize hN : planeCount (topPlane magnitudes).toInt (lowestPlane magnitudes).toInt = N
    have hstart : Within (N * planeFee task.dims) (0 + N * planeFee task.dims)
        (State.initial task magnitudes) := by
      unfold Within
      show 0 + (0 + N * planeFee task.dims) ≤ _
      omega
    have hrun := codePlanes_ensures (A := fun _ c _ => Within (N * planeFee task.dims) c)
      (fun n (_ : n < N) => within_rule task (N * planeFee task.dims)
        ((lowestPlane magnitudes).toInt + n))
      (fun _ _ p _ ht =>
        ⟨fun i => if i ∈ p.lists.significant.toList then .old else .waiting, fun _ _ => rfl, ht⟩)
      (fun _ _ _ _ _ _ ht => ht) (Nat.le_refl N) hsettled hstart
    unfold Dialogue.Ensures at hrun
    unfold ownPlanes
    rw [hN]
    rcases hconduct : (codePlanes task.dims (lowestPlane magnitudes).toInt N
      (Progress.initial task.dims)).conduct (respond task) (State.initial task magnitudes)
      with ⟨_ | p, s⟩
    · rw [hconduct] at hrun
      exact hrun
    · rw [hconduct] at hrun
      exact hrun.2

theorem length_written_le_of_planes [BoundedPlanes α] (task : Task α κ) (magnitudes : Array α)
    (hd : task.dims.validate = .ok ()) :
    (written task magnitudes).length ≤
      planeCount (Magnitude.maxPlane α) (Magnitude.minPlane α) * planeFee task.dims := by
  refine Nat.le_trans (length_written_le task magnitudes hd) (Nat.mul_le_mul_right _ ?_)
  have htop := topPlane_le_maxPlane magnitudes
  have hlow := minPlane_le_lowestPlane magnitudes
  unfold planeCount
  omega

end Encoder

end VolumeCodec
