import VolumeCodec.Proofs.CodedBits
import VolumeCodec.Proofs.TapeBytes

namespace VolumeCodec

/-- The tape after bits have been recorded on it from its beginning on. -/
def Tape.recorded (t : Tape) (bits : List Bool) : Tape :=
  ((writeAll .unbounded bits).on t.rewind).2.commit

theorem Tape.recorded_spec (t : Tape) (bits : List Bool) :
    (writeAll .unbounded bits).on t.rewind = (.ok (), ((writeAll .unbounded bits).on t.rewind).2) ∧
      (t.recorded bits).writePosition = bits.length ∧
      ∀ i < bits.length, (t.recorded bits).bit i = bits.getD i false := by
  obtain ⟨t', hrun, hpos, hbit⟩ := writeAll_on bits t.rewind
  have hz : t.rewind.writePosition = 0 := rfl
  unfold recorded
  rw [hrun]
  refine ⟨rfl, ?_, fun i hi => ?_⟩
  · rw [writePosition_commit, hpos, hz, Nat.zero_add]
  · rw [bit_commit, hbit i, hz, if_pos (Nat.zero_le i), Nat.sub_zero, List.getD_eq_getElem _ _ hi,
      List.getD_eq_getElem _ _ hi]

variable {α κ : Type} [Magnitude α]

/-- The outline of an array of which these bits were coded. -/
def outlineOf (dims : Extents) (magnitudes : Array α) (bitCount : Nat) : Outline :=
  ⟨dims, topPlane magnitudes, bitCount⟩

theorem requestArray_unbounded (length elementBytes : Nat) :
    Memory.unbounded.requestArray length elementBytes = .ok () := rfl

theorem allocate_unbounded (bound : Nat) :
    IndexSet.allocate .unbounded bound = .ok (IndexSet.empty bound) := rfl

theorem encode_on (task : Encoder.Task α κ) (magnitudes : Array α) (t : Tape)
    (hd : task.dims.validate = .ok ()) (hm : magnitudes.size = task.dims.volume)
    (hs : task.signs.size = task.dims.volume) :
    (encode .unbounded task magnitudes).on t =
      (.ok (outlineOf task.dims magnitudes (Encoder.written task magnitudes).length),
        t.recorded (Encoder.written task magnitudes)) := by
  obtain ⟨hrun, -, -⟩ := Tape.recorded_spec t (Encoder.written task magnitudes)
  obtain ⟨hcount, -⟩ := Encoder.written_spec task magnitudes
  unfold Tape.Update.on Encoder.written at hrun
  unfold encode Tape.Update.on
  simp only [Action.run_bind, Action.run_lift, hd, hm, hs, ne_eq, not_true_eq_false, or_self,
    if_false, Action.run_modify, Action.run_pure, allocate_unbounded, hcount]
  rw [hrun]
  rfl

theorem Decoder.run_of_exhausts {dims : Extents} {highest : Int} {t : Tape} {bits : List Bool}
    (ht : t.IsFresh) (hb : t.ahead bits.length = bits)
    (hex : (allPlanes α dims highest).Exhausts isFree bits) :
    (Decoder.run (α := α) dims bits.length highest t).1 =
        ((allPlanes α dims highest).follow isFree Sketch.use bits (Sketch.blank α dims)).1 ∧
      (Decoder.run (α := α) dims bits.length highest t).2.sketch =
        ((allPlanes α dims highest).follow isFree Sketch.use bits (Sketch.blank α dims)).2.2 ∧
      (Decoder.run (α := α) dims bits.length highest t).2.bitCount = bits.length := by
  let s : State α := ⟨Array.replicate dims.volume Magnitude.zero, Array.replicate dims.volume true,
    t, 0⟩
  have hrun : Decoder.run (α := α) dims bits.length highest t =
      (allPlanes α dims highest).conduct (respond bits.length) s := by
    unfold run
    exact conductPlanes_eq_conduct ..
  obtain ⟨hresult, hsketch, hcount, -⟩ :=
    conduct_eq_follow bits.length (allPlanes α dims highest) s (Nat.zero_le _) ht
  have hs : s.sketch = Sketch.blank α dims := rfl
  have ha : s.tape.ahead (bits.length - s.bitCount) = bits := hb
  rw [ha, hs] at hresult hsketch hcount
  rw [hex.rest] at hcount
  rw [hrun]
  exact ⟨hresult, hsketch, hcount⟩

theorem Tape.ahead_seekRead {t : Tape} {n : Nat} {bits : List Bool} (hn : n ≤ bits.length)
    (hbit : ∀ i < n, t.bit i = bits.getD i false) : (t.seekRead 0).ahead n = bits.take n := by
  apply List.ext_getElem
  · simp [hn]
  · intro i hi _
    rw [length_ahead] at hi
    have hb := hbit i hi
    rw [List.getD_eq_getElem _ _ (by omega)] at hb
    simp only [ahead, List.getElem_map, List.getElem_range, List.getElem_take, bit_seekRead]
    rw [← hb]
    exact congrArg t.bit (Nat.zero_add i)

/-- A decoder that is given a part of the bits of an array makes the same of it, however it is told
where to stop. -/
theorem decode_on [BoundedPlanes α] (task : Encoder.Task α κ) (magnitudes : Array α)
    (limit : BitLimit) {bitCount n : Nat} {t : Tape} (hd : task.dims.validate = .ok ())
    (hn : n ≤ (Encoder.written task magnitudes).length)
    (hlimit : limit.elim bitCount (min · bitCount) = n)
    (hend : n < (Encoder.written task magnitudes).length ∨ n = bitCount)
    (hpos : n ≤ t.writePosition)
    (hbit : ∀ i < n, t.bit i = (Encoder.written task magnitudes).getD i false) :
    ((decode .unbounded (outlineOf task.dims magnitudes bitCount) limit).on t).1 =
      .ok (Decoded.ofBits α task.dims (topPlane magnitudes).toInt
        ((Encoder.written task magnitudes).take n)) := by
  have htop : checkTopPlane α (topPlane magnitudes).toInt = .ok () := by
    unfold checkTopPlane
    rw [if_neg (Int.not_lt.mpr (topPlane_le_maxPlane magnitudes))]
  have hall := Encoder.exhausts_written task magnitudes
  have hsplit := List.take_append_drop n (Encoder.written task magnitudes)
  have hlen : ((Encoder.written task magnitudes).take n).length = n := by
    rw [List.length_take]
    omega
  rw [← hsplit] at hall
  obtain ⟨hresult, hsketch, hcount⟩ := Decoder.run_of_exhausts (t := t.seekRead 0)
    (Tape.isFresh_seekRead t 0) (by rw [hlen]; exact Tape.ahead_seekRead hn hbit) hall.prefix
  rw [hlen] at hresult hsketch hcount
  have hend : ¬((Decoder.run (α := α) task.dims n (topPlane magnitudes).toInt
      (t.seekRead 0)).1.isSome = true ∧ n ≠ bitCount) := by
    intro h
    obtain ⟨hsome, hne⟩ := h
    have hmore : (Encoder.written task magnitudes).drop n ≠ [] := by
      intro h
      have := List.drop_eq_nil_iff.mp h
      omega
    rw [hresult, hall.starved hmore] at hsome
    cases hsome
  unfold decode Tape.Update.on
  simp only [Action.run_bind, Action.run_lift, outlineOf, hd, htop, hlimit, Action.run_get,
    Nat.not_lt.mpr hpos, if_false, Action.run_modify, Action.run_pure, requestArray_unbounded,
    allocate_unbounded, Action.run_set, hcount, hend, Decoded.ofBits, hlen, ← hsketch]
  rfl

/-- From the tape with all bits of an array a decoder makes the first ones out, under a limit. -/
theorem decode_recorded [BoundedPlanes α] (task : Encoder.Task α κ) (magnitudes : Array α)
    (hd : task.dims.validate = .ok ()) (t : Tape) {b : Nat}
    (hb : b ≤ (Encoder.written task magnitudes).length) :
    ((decode .unbounded
        (outlineOf task.dims magnitudes (Encoder.written task magnitudes).length) (some b)).on
        (t.recorded (Encoder.written task magnitudes))).1 =
      .ok (Decoded.ofBits α task.dims (topPlane magnitudes).toInt
        ((Encoder.written task magnitudes).take b)) := by
  obtain ⟨-, hpos, hbit⟩ := Tape.recorded_spec t (Encoder.written task magnitudes)
  refine decode_on task magnitudes (some b) hd hb (Nat.min_eq_left hb) (Nat.lt_or_eq_of_le hb) ?_
    fun i hi => hbit i (Nat.lt_of_lt_of_le hi hb)
  rw [hpos]
  exact hb

end VolumeCodec
