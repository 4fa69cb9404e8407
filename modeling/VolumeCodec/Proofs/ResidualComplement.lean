import VolumeCodec.Proofs.History

namespace VolumeCodec

section Stopping

variable {α κ : Type} [Magnitude α]

namespace Encoder

/-- What an encoder has left to code of each number when it stops. -/
def residuals (task : Task α κ) (magnitudes : Array α) : Array α :=
  (run task (topPlane magnitudes).toInt (lowestPlane magnitudes).toInt magnitudes).2.residuals

/-- Without room for a bit the first question ends the run. It is about significance, and takes
nothing off a number. -/
theorem silent_rule (task : Task α κ) (plane : Int) {s₀ : State α κ}
    (hfull : task.limit.isReached s₀.bitCount = true) :
    PlaneRule task.dims (fun s q => respond task s (plane, q)) ⟨True, fun _ => False⟩
      (fun _ ph s => s = s₀ ∧ ∀ i < task.dims.volume, (ph i).isSignificant = false)
      (fun s => s = s₀) where
  spend h _ := h
  refine {_ _ _ i} h hi hph := by
    have hno := h.2 i hi
    rw [hph] at hno
    cases hno
  sign _ _ _ hf := by
    obtain ⟨_, -, hfalse⟩ := hf trivial
    exact hfalse.elim
  test {_ _ s subject implied} h _ hf := by
    cases implied with
    | true =>
      obtain ⟨_, -, hfalse⟩ := hf rfl trivial
      exact hfalse.elim
    | false =>
      obtain ⟨rfl, -⟩ := h
      have hhalt : respond task s (plane, .significance subject false) = .halt s := by
        simp only [respond, reply, emit, hfull, if_true]
      rw [hhalt]
      exact rfl

theorem ownPlanes_silent (task : Task α κ) (magnitudes : Array α)
    (hd : task.dims.validate = .ok ()) (hfull : task.limit.isReached 0 = true) :
    ((ownPlanes task magnitudes).conduct (respond task) (State.initial task magnitudes)).2 =
      State.initial task magnitudes := by
  obtain ⟨hsettled, hsig⟩ := Settled.initial hd
  have hrun := codePlanes_ensures (c := 0)
    (n := planeCount (topPlane magnitudes).toInt (lowestPlane magnitudes).toInt)
    (A := fun _ _ p s => s = State.initial task magnitudes ∧
      ∀ i < task.dims.volume, i ∉ p.lists.significant.toList)
    (fun n _ => silent_rule task ((lowestPlane magnitudes).toInt + n) hfull)
    (fun n c p s h => ⟨fun _ => .waiting, fun i hi => (if_neg (h.2 i hi)).symm, h.1,
      fun _ _ => rfl⟩)
    (fun n c p ph s hph h => ⟨h.1, fun i hi hm => by
      have hno := h.2 i hi
      rw [hph i hi, if_pos hm] at hno
      cases hno⟩)
    (Nat.le_refl _) hsettled ⟨rfl, fun i _ => by simp [hsig]⟩
  unfold Dialogue.Ensures at hrun
  unfold ownPlanes
  revert hrun
  rcases (codePlanes task.dims (lowestPlane magnitudes).toInt _
    (Progress.initial task.dims)).conduct (respond task) (State.initial task magnitudes)
    with ⟨_ | p, s⟩
  · exact id
  · exact fun h => h.2.1

end Encoder

variable [ExactPlanes α] {m : Nat → Nat}

/-- Wherever an encoder stops, it is in step with one who is given the bits so far. -/
theorem inStep_residuals (task : Encoder.Task α κ) {magnitudes : Array α}
    (hd : task.dims.validate = .ok ()) (hm : Counted task.dims magnitudes m) :
    ∃ finest, InStep task.dims task.signs m finest (Encoder.residuals task magnitudes)
      (Sketch.ofBits α task.dims (topPlane magnitudes).toInt
        (Encoder.written task magnitudes)) := by
  have hinitial : ∀ s, s = Encoder.State.initial task magnitudes →
      ∃ finest, InStep task.dims task.signs m finest s.residuals
        (Sketch.ofBits α task.dims (topPlane magnitudes).toInt s.bits.reverse) := by
    rintro s rfl
    have hblank : Sketch.ofBits α task.dims (topPlane magnitudes).toInt [] =
        Sketch.blank α task.dims := congrArg Prod.snd (Dialogue.follow_of_no_bits _ _)
    refine ⟨fun _ => bottom magnitudes + ownCount magnitudes, ?_⟩
    show InStep _ _ _ _ magnitudes (Sketch.ofBits α task.dims (topPlane magnitudes).toInt [])
    rw [hblank]
    exact hm.inStep_initial task.signs
  rcases Encoder.run_cases task magnitudes with ⟨hrun, -⟩ | hrun
  · exact hinitial _ (congrArg Prod.snd hrun)
  · cases hfull : task.limit.isReached 0 with
    | true =>
      exact hinitial _ ((congrArg Prod.snd hrun).trans
        (Encoder.ownPlanes_silent task magnitudes hd hfull))
    | false =>
      have hensures := ownPlanes_ensures hd hm hfull
      have hfollow := Encoder.follow_of_run hrun Sketch.use (Sketch.blank α task.dims)
      have hall := Encoder.follow_written task magnitudes Sketch.use (Sketch.blank α task.dims)
      have hstate := Encoder.conduct_followed task Sketch.use (Encoder.ownPlanes task magnitudes)
        (Encoder.State.initial task magnitudes) (Sketch.blank α task.dims)
      unfold Encoder.residuals Sketch.ofBits
      rw [hall, hfollow, hrun, hstate]
      unfold Dialogue.Ensures at hensures
      revert hensures
      rcases (Encoder.ownPlanes task magnitudes).conduct (Encoder.followed task Sketch.use)
        (Encoder.State.initial task magnitudes, Sketch.blank α task.dims) with ⟨_ | p, t⟩
      · exact id
      · rintro ⟨ph, -, hrunning⟩
        exact ⟨_, hrunning.inStep⟩

/-- Wherever an encoder stops, its bits have unfolded the numbers up to there. -/
theorem moment_written (task : Encoder.Task α κ) {magnitudes : Array α}
    (hd : task.dims.validate = .ok ()) (hm : Counted task.dims magnitudes m) :
    (signedElements (Encoder.transcript task magnitudes)).Nodup ∧
      (Encoder.transcript task magnitudes).length = (Encoder.written task magnitudes).length ∧
      ∃ finest, Moment task.dims task.signs m finest
        (Trail.ofBits α task.dims (topPlane magnitudes).toInt (Encoder.written task magnitudes))
        (Sketch.ofBits α task.dims (topPlane magnitudes).toInt
          (Encoder.written task magnitudes)) := by
  obtain ⟨more, hmore⟩ := Encoder.written_prefix task magnitudes
  have hunfolds := unfolds_written task.signs hd hm
  change Unfolds _ _ _ _ _ (Encoder.written task.unlimited magnitudes) at hunfolds
  rw [hmore] at hunfolds
  have htrail := Trail.ofBits_take (α := α) task.dims (topPlane magnitudes).toInt
    (Encoder.written task magnitudes ++ more) (Encoder.written task magnitudes).length
  obtain ⟨finest, hmoment⟩ := hunfolds.moment (Encoder.written task magnitudes).length (by simp)
  rw [List.take_left] at htrail hmoment
  rw [← htrail] at hmoment
  rw [Encoder.transcript_eq_turns task magnitudes Sketch.use (Sketch.blank α task.dims)]
  change (signedElements ((Trail.ofBits α task.dims _ _).map Turn.question)).Nodup ∧
    ((Trail.ofBits α task.dims _ _).map Turn.question).length = _ ∧ _
  refine ⟨?_, ?_, finest, hmoment⟩
  · rw [htrail]
    exact hunfolds.nodup.sublist (((List.take_sublist _ _).map _).filterMap _)
  · rw [List.length_map, htrail, List.length_take, hunfolds.length, List.length_append]
    omega

end Stopping

theorem cut_ne_zero_iff (n e : Nat) : n - n % 2 ^ e ≠ 0 ↔ 2 ^ e ≤ n := by
  have hle := Nat.mod_le n (2 ^ e)
  constructor
  · intro h
    by_contra hlt
    rw [Nat.mod_eq_of_lt (Nat.not_le.mp hlt)] at h
    omega
  · intro h
    have hlt := Nat.mod_lt n (Nat.two_pow_pos e)
    omega

/-- Whatever stops an encoder, a limit, a goal or the end of the last plane, and at whatever bit:
what it has left of each number is exactly what a decoder of its bits does not have. Both have gone
through the same questions, and the numbers of which the decoder has something are those whose signs
were among them, each one once. -/
theorem residual_complement (w : Width) {κ : Type} (task : Encoder.Task (BitVec w.bits) κ)
    {magnitudes : Array (BitVec w.bits)} (hd : task.dims.validate = .ok ())
    (hm : magnitudes.size = task.dims.volume) (hs : task.signs.size = task.dims.volume)
    (t : Tape) :
    ∃ (info : Outline) (coded : Tape) (d : Decoded (BitVec w.bits)),
      (encode .unbounded task magnitudes).on t = (.ok info, coded) ∧
      ((decode .unbounded info none).on coded).1 = .ok d ∧ d.bitCount = info.bitCount ∧
      (Encoder.residuals task magnitudes).size = task.dims.volume ∧
      d.magnitudes.size = task.dims.volume ∧ d.signs.size = task.dims.volume ∧
      (∀ i < task.dims.volume, (d.magnitudes.getD i 0#w.bits).toNat +
        ((Encoder.residuals task magnitudes).getD i 0#w.bits).toNat =
          (magnitudes.getD i 0#w.bits).toNat) ∧
      (Encoder.transcript task magnitudes).length = info.bitCount ∧
      Decoder.transcript (BitVec w.bits) info info.bitCount coded =
        Encoder.transcript task magnitudes ∧
      (signedElements (Encoder.transcript task magnitudes)).Nodup ∧
      ∀ i < task.dims.volume,
        (i ∈ signedElements (Encoder.transcript task magnitudes) ↔
          d.magnitudes.getD i 0#w.bits ≠ 0#w.bits) ∧
        d.signs.getD i true = if i ∈ signedElements (Encoder.transcript task magnitudes) then
          task.signs.getD i true else true := by
  have hc := counted_integers hm
  obtain ⟨finest, hin⟩ := inStep_residuals task hd hc
  obtain ⟨hnodup, hlen, finest', hmoment⟩ := moment_written task hd hc
  obtain ⟨-, hpos, hbit⟩ := Tape.recorded_spec t (Encoder.written task magnitudes)
  have hdec := decode_on task magnitudes none hd (Nat.le_refl _) rfl (.inr rfl)
    (Nat.le_of_eq hpos.symm) hbit
  rw [List.take_length] at hdec
  have hahead := Tape.ahead_seekRead (Nat.le_refl _) hbit
  rw [List.take_length] at hahead
  have hquestions := Encoder.transcript_eq_turns task magnitudes Sketch.use
    (Sketch.blank (BitVec w.bits) task.dims)
  refine ⟨_, _, _, encode_on task magnitudes t hd hm hs, hdec, rfl, hin.size_residuals,
    hin.size_magnitudes, hin.size_signs, fun i hi => ?_, hlen,
    (Decoder.transcript_eq_turns hahead).trans hquestions.symm, hnodup, fun i hi => ?_⟩
  · have hrecovered := hin.recovered i hi
    have hresidual := hin.residual i hi
    have hle := Nat.mod_le (magnitudes.getD i 0#w.bits).toNat (2 ^ finest i)
    change ((Sketch.ofBits (BitVec w.bits) task.dims (topPlane magnitudes).toInt
      (Encoder.written task magnitudes)).magnitudes.getD i 0#w.bits).toNat = _ at hrecovered
    change ((Encoder.residuals task magnitudes).getD i 0#w.bits).toNat = _ at hresidual
    rw [hresidual]
    show ((Sketch.ofBits (BitVec w.bits) task.dims (topPlane magnitudes).toInt
      (Encoder.written task magnitudes)).magnitudes.getD i 0#w.bits).toNat + _ = _
    omega
  · obtain ⟨hmagnitude, hsign⟩ := hmoment.shows.integer hi
    have hsigned := hmoment.signed i hi
    change (i ∈ signedElements (((allPlanes (BitVec w.bits) task.dims
      (topPlane magnitudes).toInt).turns isFree Sketch.use _ _).map Turn.question) ↔ _) at hsigned
    rw [← hquestions] at hsigned
    have hzero : ∀ v : BitVec w.bits, v ≠ 0#w.bits ↔ v.toNat ≠ 0 := fun v => by
      rw [Ne, Ne, ← BitVec.toNat_inj, BitVec.toNat_zero]
    refine ⟨?_, ?_⟩
    · rw [hsigned, hzero, ← cut_ne_zero_iff, ← hmagnitude]
      rfl
    · simp only [hsigned]
      exact hsign

/-- The case of two bytes under a limit of three bits and with an error to aim for. -/
theorem residual_complement_pair :
    (Axes.row 2).validate = .ok () ∧
      ∃ (info : Outline) (coded : Tape) (d : Decoded (BitVec 8)),
        let task : Encoder.Task (BitVec 8) Float :=
          ⟨Axes.row 2, #[true, false], some 3, .squaredError 1⟩
        (encode .unbounded task #[5#8, 200#8]).on .empty = (.ok info, coded) ∧
        ((decode .unbounded info none).on coded).1 = .ok d ∧
        ∀ i < 2, (d.magnitudes.getD i 0#8).toNat +
          ((Encoder.residuals task #[5#8, 200#8]).getD i 0#8).toNat =
            (#[5#8, 200#8].getD i 0#8).toNat := by
  obtain ⟨info, coded, d, hinfo, hd, -, -, -, -, hsum, -⟩ :=
    @residual_complement .w8 Float ⟨Axes.row 2, #[true, false], some 3, .squaredError 1⟩
      #[5#8, 200#8] rfl rfl rfl .empty
  exact ⟨rfl, info, coded, d, hinfo, hd, hsum⟩

end VolumeCodec
