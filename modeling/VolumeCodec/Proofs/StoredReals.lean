import VolumeCodec.Coefficients
import VolumeCodec.Proofs.BitBound
import VolumeCodec.Proofs.CodedTapes
import VolumeCodec.Proofs.HeaderBytes
import VolumeCodec.Proofs.Outcomes

namespace VolumeCodec

/-- What coefficients have to pass before they are coded. -/
def checkReals (coefficients : Array Float) (dims : Extents) : Except Fault Unit := do
  dims.validate
  if coefficients.size ≠ dims.volume then
    throw (.invalidArgument (.coefficientCount coefficients.size dims))
  if let some i := coefficients.findIdx? fun c => !c.isFinite then
    throw (.invalidArgument (.nonFiniteCoefficient i))

def signsOf (coefficients : Array Float) : Array Bool :=
  coefficients.map fun c => decide (0 ≤ c)

/-- The bits that coefficients come to. -/
def realBits (coefficients : Array Float) (dims : Extents) (stop : Stop) : List Bool :=
  match stop with
  | .complete =>
    Encoder.written (⟨dims, signsOf coefficients, none, .never⟩ : Encoder.Task Float Unit)
      (coefficients.map Float.abs)
  | .bits count =>
    Encoder.written (⟨dims, signsOf coefficients, some count, .never⟩ : Encoder.Task Float Unit)
      (coefficients.map Float.abs)
  | .quality decibels =>
    Encoder.written (⟨dims, signsOf coefficients, none,
      .squaredError (targetError coefficients decibels)⟩ : Encoder.Task Float Float)
      (coefficients.map Float.abs)

/-- What goes with the bits of coefficients. -/
def realOutline (coefficients : Array Float) (dims : Extents) (stop : Stop) : Outline :=
  outlineOf dims (coefficients.map Float.abs) (realBits coefficients dims stop).length

/-- What a decoder recovers from some bits of coefficients. -/
def recoveredFrom (coefficients : Array Float) (dims : Extents) (bits : List Bool) : Recovered :=
  let d := Decoded.ofBits Float dims (topPlane (coefficients.map Float.abs)).toInt bits
  ⟨d.magnitudes.zipWith (fun m positive => if positive then m else -m) d.signs, d.signs, d.bitCount⟩

section Reals

variable {coefficients : Array Float} {dims : Extents} {stop : Stop}

theorem checkReals_eq_ok_iff : checkReals coefficients dims = .ok () ↔
    dims.validate = .ok () ∧ coefficients.size = dims.volume ∧
      ∀ c ∈ coefficients, c.isFinite = true := by
  have hnone : coefficients.findIdx? (fun c => !c.isFinite) = none ↔
      ∀ c ∈ coefficients, c.isFinite = true := by
    rw [Array.findIdx?_eq_none_iff]
    simp
  rw [← hnone]
  unfold checkReals
  constructor
  · intro h
    obtain ⟨_, hd, h⟩ := ok_of_bind h
    obtain ⟨hs, h⟩ := ok_of_check h
    refine ⟨hd, Decidable.not_not.mp hs, ?_⟩
    cases hf : coefficients.findIdx? fun c => !c.isFinite with
    | none => rfl
    | some i =>
      rw [hf] at h
      cases h
  · intro h
    obtain ⟨hd, hs, hf⟩ := h
    simp only [hd, hs, hf, ne_eq, not_true_eq_false, if_false]
    rfl

theorem realBits_eq_written (coefficients : Array Float) (dims : Extents) (stop : Stop) :
    ∃ (κ : Type) (task : Encoder.Task Float κ), task.dims = dims ∧
      realBits coefficients dims stop = Encoder.written task (coefficients.map Float.abs) := by
  cases stop with
  | complete => exact ⟨_, ⟨dims, signsOf coefficients, none, .never⟩, rfl, rfl⟩
  | bits count => exact ⟨_, ⟨dims, signsOf coefficients, some count, .never⟩, rfl, rfl⟩
  | quality decibels =>
    exact ⟨_, ⟨dims, signsOf coefficients, none, .squaredError (targetError coefficients decibels)⟩,
      rfl, rfl⟩

/-- Coefficients are coded exactly if they pass the checks, whenever the coding is to stop. -/
theorem encodeReals_on (coefficients : Array Float) (dims : Extents) (stop : Stop) (t : Tape) :
    (encodeReals .unbounded coefficients dims stop).on t =
      match checkReals coefficients dims with
      | .ok _ =>
        (.ok (realOutline coefficients dims stop), t.recorded (realBits coefficients dims stop))
      | .error e => (.error e, t) := by
  rcases hc : checkReals coefficients dims with fault | ok
  · unfold checkReals at hc
    unfold encodeReals Tape.Update.on
    rcases hv : dims.validate with e | ok
    · rw [hv] at hc
      cases hc
      simp only [Action.run_bind, Action.run_lift]
    · rw [hv] at hc
      simp only [Action.run_bind, Action.run_lift]
      by_cases hs : coefficients.size = dims.volume
      · simp only [hs, ne_eq, not_true_eq_false, if_false] at hc ⊢
        cases hf : coefficients.findIdx? fun c => !c.isFinite with
        | none =>
          rw [hf] at hc
          cases hc
        | some i =>
          rw [hf] at hc
          cases hc
          rfl
      · simp only [hs, ne_eq, not_false_eq_true, if_true] at hc ⊢
        cases hc
        rfl
  · obtain ⟨hv, hs, hfinite⟩ := checkReals_eq_ok_iff.mp hc
    have hf : coefficients.findIdx? (fun c => !c.isFinite) = none := by
      rw [Array.findIdx?_eq_none_iff]
      simpa using hfinite
    have hm : (coefficients.map Float.abs).size = dims.volume := by rw [Array.size_map, hs]
    have hsigns : (signsOf coefficients).size = dims.volume := by rw [signsOf, Array.size_map, hs]
    unfold encodeReals Tape.Update.on
    simp only [hv, hs, hf, Action.run_bind, Action.run_lift, ne_eq, not_true_eq_false, if_false]
    cases stop with
    | complete =>
      exact encode_on ⟨dims, signsOf coefficients, none, .never⟩ _ t hv hm hsigns
    | bits count =>
      exact encode_on ⟨dims, signsOf coefficients, some count, .never⟩ _ t hv hm hsigns
    | quality decibels =>
      exact encode_on ⟨dims, signsOf coefficients, none,
        .squaredError (targetError coefficients decibels)⟩ _ t hv hm hsigns

theorem length_realBits_lt (coefficients : Array Float) (stop : Stop)
    (hd : dims.validate = .ok ()) (hv : dims.volume ≤ maxElements) :
    (realBits coefficients dims stop).length < 2 ^ 51 := by
  obtain ⟨κ, task, rfl, hbits⟩ := realBits_eq_written coefficients dims stop
  have hle := Encoder.length_written_le_of_planes task (coefficients.map Float.abs) hd
  have hplanes : planeCount (Magnitude.maxPlane Float) (Magnitude.minPlane Float) = 2098 := rfl
  have hmax : maxElements = 2 ^ 36 := rfl
  rw [hplanes, planeFee, levelLimit] at hle
  rw [hbits]
  omega

theorem decodeReals_on (limit : BitLimit) {bitCount n : Nat} {t : Tape}
    (hd : dims.validate = .ok ()) (hn : n ≤ (realBits coefficients dims stop).length)
    (hlimit : limit.elim bitCount (min · bitCount) = n)
    (hend : n < (realBits coefficients dims stop).length ∨ n = bitCount)
    (hpos : n ≤ t.writePosition)
    (hbit : ∀ i < n, t.bit i = (realBits coefficients dims stop).getD i false) :
    ((decodeReals .unbounded (outlineOf dims (coefficients.map Float.abs) bitCount) limit).on t).1 =
      .ok (recoveredFrom coefficients dims ((realBits coefficients dims stop).take n)) := by
  obtain ⟨κ, task, rfl, hbits⟩ := realBits_eq_written coefficients dims stop
  rw [hbits] at hn hend hbit ⊢
  have hdec := decode_on task (coefficients.map Float.abs) limit hd hn hlimit hend hpos hbit
  unfold Tape.Update.on at hdec
  unfold decodeReals Tape.Update.on
  rw [Action.run_bind]
  revert hdec
  rcases (decode .unbounded (outlineOf task.dims (coefficients.map Float.abs) bitCount)
    limit).run.run t with ⟨fault | d, t'⟩
  · intro hdec
    cases hdec
  · intro hdec
    cases hdec
    rfl

end Reals

theorem StoredCode.ofBytes_toBytes {outline : Outline} (tape : Tape)
    (h : outline.bitCount < 2 ^ 64) :
    StoredCode.ofBytes .unbounded (StoredCode.toBytes outline tape) outline.dims =
      .ok ⟨outline, Tape.ofBits (tape.toBytes outline.bitCount) outline.bitCount,
        outline.bitCount⟩ := by
  have hlen : bytesFor outline.bitCount ≤ (tape.toBytes outline.bitCount).length :=
    Nat.le_of_eq (tape.length_toBytes outline.bitCount).symm
  have hall : min outline.bitCount (8 * (tape.toBytes outline.bitCount).length) =
      outline.bitCount := by
    rw [Tape.length_toBytes]
    unfold bytesFor
    omega
  have hheader : CodeHeader.read.from (StoredCode.toBytes outline tape) =
      (.ok (CodeHeader.ofOutline outline), tape.toBytes outline.bitCount) :=
    (CodeHeader.ofOutline outline).gets _
  have hload := Tape.load_on hlen .empty
  unfold StoredCode.ofBytes
  simp only [hheader, bind, Except.bind, CodeHeader.toOutline_ofOutline h, hall, hload]
  rfl

/-- The bytes of coded coefficients. -/
def storedReals (coefficients : Array Float) (dims : Extents) (stop : Stop) : List UInt8 :=
  StoredCode.toBytes (realOutline coefficients dims stop)
    (Tape.empty.recorded (realBits coefficients dims stop))

/-- The bits that a limit leaves. -/
def BitLimit.cut (limit : BitLimit) (bits : List Bool) : List Bool :=
  match limit with
  | none => bits
  | some b => bits.take b

theorem BitLimit.cut_eq_take (limit : BitLimit) (bits : List Bool) :
    limit.elim bits.length (min · bits.length) ≤ bits.length ∧
      bits.take (limit.elim bits.length (min · bits.length)) = limit.cut bits := by
  cases limit with
  | none => exact ⟨Nat.le_refl _, List.take_of_length_le (Nat.le_refl _)⟩
  | some b => exact ⟨Nat.min_le_right _ _, List.take_eq_take_min.symm⟩

/-- From the bytes of coded coefficients a decoder recovers what there is in their first bits. -/
theorem decode_storedReals (coefficients : Array Float) {dims : Extents} (stop : Stop)
    (limit : BitLimit) (hd : dims.validate = .ok ()) (hv : dims.volume ≤ maxElements) :
    (do
      let code ← StoredCode.ofBytes .unbounded (storedReals coefficients dims stop) dims
      ((decodeReals .unbounded code.outline limit).on code.tape).1) =
      .ok (recoveredFrom coefficients dims (limit.cut (realBits coefficients dims stop))) := by
  have hlt := length_realBits_lt coefficients stop hd hv
  obtain ⟨-, -, hbit⟩ := Tape.recorded_spec .empty (realBits coefficients dims stop)
  obtain ⟨hn, hcut⟩ := limit.cut_eq_take (realBits coefficients dims stop)
  have hstored : StoredCode.ofBytes .unbounded (storedReals coefficients dims stop) dims = _ :=
    StoredCode.ofBytes_toBytes (Tape.empty.recorded (realBits coefficients dims stop))
      (Nat.lt_trans hlt (by decide))
  rw [hstored, ← hcut]
  refine decodeReals_on limit hd hn rfl (Nat.lt_or_eq_of_le hn) ?_ fun i hi => ?_
  · rw [Tape.writePosition_ofBits]
    exact hn
  · have hlen := Nat.lt_of_lt_of_le hi hn
    exact (Tape.bit_ofBits_toBytes _ hlen).trans (hbit i hlen)

end VolumeCodec
