import VolumeCodec.Proofs.ArbitraryStreams

namespace VolumeCodec

namespace Tape

variable {t t' : Tape} {n : Nat}

theorem toBytes_congr (h : ∀ i < n, t.bit i = t'.bit i) : t.toBytes n = t'.toBytes n := by
  have hword : ∀ k, (t.word k).low (n - 64 * k) = (t'.word k).low (n - 64 * k) := by
    intro k
    apply Word.ext_bit
    intro i hi
    rw [Word.bit_low, Word.bit_low]
    by_cases hn : i < n - 64 * k
    · have hbit := h (64 * k + i) (by omega)
      have hq : (64 * k + i) / 64 = k := by omega
      have hr : (64 * k + i) % 64 = i := by omega
      rw [bit, bit, hq, hr] at hbit
      rw [hbit]
    · simp only [hn, decide_false, Bool.false_and]
  unfold toBytes
  simp only [hword]

theorem ahead_seekRead_congr (h : ∀ i < n, t.bit i = t'.bit i) :
    (t.seekRead 0).ahead n = (t'.seekRead 0).ahead n := by
  unfold ahead
  apply List.map_congr_left
  intro i hi
  have hzero : 0 + i < n := (Nat.zero_add i).symm ▸ List.mem_range.mp hi
  exact h (0 + i) hzero

end Tape

variable {α κ : Type} [Magnitude α]

/-- A decoder sees nothing of a tape but the bits that lie ahead. -/
theorem Decoder.run_congr (dims : Extents) {limit : Nat} (highest : Int) {t t' : Tape}
    (ht : t.IsFresh) (ht' : t'.IsFresh) (h : t.ahead limit = t'.ahead limit) :
    (run (α := α) dims limit highest t).1 = (run (α := α) dims limit highest t').1 ∧
      (run (α := α) dims limit highest t).2.sketch = (run (α := α) dims limit highest t').2.sketch ∧
      (run (α := α) dims limit highest t).2.bitCount =
        (run (α := α) dims limit highest t').2.bitCount := by
  have hrun : ∀ tape, run (α := α) dims limit highest tape =
      (allPlanes α dims highest).conduct (respond limit) (State.initial α dims tape) :=
    fun tape => conductPlanes_eq_conduct ..
  have hfollow := fun tape (hf : tape.IsFresh) => conduct_eq_follow limit (allPlanes α dims highest)
    (State.initial α dims tape) (Nat.zero_le _) hf
  obtain ⟨hresult, hsketch, hcount, -⟩ := hfollow t ht
  obtain ⟨hresult', hsketch', hcount', -⟩ := hfollow t' ht'
  have hahead : (State.initial α dims t).tape.ahead (limit - (State.initial α dims t).bitCount) =
      (State.initial α dims t').tape.ahead (limit - (State.initial α dims t').bitCount) := h
  have hblank : (State.initial α dims t).sketch = (State.initial α dims t').sketch := rfl
  rw [hahead, hblank] at hresult hsketch hcount
  rw [hrun, hrun]
  exact ⟨hresult.trans hresult'.symm, hsketch.trans hsketch'.symm, by omega⟩

/-- Tapes that are written to the same place are decoded alike if they have the same bits as far as
the decoder is to read. -/
theorem decode_congr {outline : Outline} (limit : BitLimit) {t t' : Tape}
    (hd : outline.dims.validate = .ok ()) (hpos : t.writePosition = t'.writePosition)
    (hbit : ∀ i < outline.required limit, t.bit i = t'.bit i) :
    ((decode (α := α) .unbounded outline limit).on t).1 =
      ((decode (α := α) .unbounded outline limit).on t').1 := by
  obtain ⟨hresult, hsketch, hcount⟩ := Decoder.run_congr (α := α) outline.dims
    outline.topPlane.toInt (Tape.isFresh_seekRead t 0) (Tape.isFresh_seekRead t' 0)
    (Tape.ahead_seekRead_congr hbit)
  obtain ⟨hmagnitudes, hsigns⟩ := Sketch.mk.inj hsketch
  rw [decode_run outline limit t hd, decode_run outline limit t' hd, hpos]
  cases checkTopPlane α outline.topPlane.toInt with
  | error fault => rfl
  | ok _ =>
    dsimp only
    split
    next => rfl
    next =>
      rw [hresult, hcount, hmagnitudes, hsigns]
      split <;> rfl

/-- What is coded does not depend on the tape that it is coded on. Bits and positions that were left
there, under the first bits as behind them, change neither the outline nor the bytes, and no decoder
of any type, under any limit, can tell the tapes apart. -/
theorem encode_forgets_past {task : Encoder.Task α κ} {magnitudes : Array α}
    (hd : task.dims.validate = .ok ()) (hm : magnitudes.size = task.dims.volume)
    (hs : task.signs.size = task.dims.volume) (t t' : Tape) :
    ∃ (info : Outline) (after after' : Tape),
      (encode .unbounded task magnitudes).on t = (.ok info, after) ∧
      (encode .unbounded task magnitudes).on t' = (.ok info, after') ∧
      after.toBytes info.bitCount = after'.toBytes info.bitCount ∧
      after.writePosition = info.bitCount ∧ after'.writePosition = info.bitCount ∧
      ∀ (β : Type) [Magnitude β] (limit : BitLimit),
        ((decode (α := β) .unbounded info limit).on after).1 =
          ((decode (α := β) .unbounded info limit).on after').1 := by
  obtain ⟨-, hpos, hbit⟩ := Tape.recorded_spec t (Encoder.written task magnitudes)
  obtain ⟨-, hpos', hbit'⟩ := Tape.recorded_spec t' (Encoder.written task magnitudes)
  -- What was recorded is the same on both tapes, and no decoder is let beyond it.
  have hsame : ∀ i < (Encoder.written task magnitudes).length,
      (t.recorded (Encoder.written task magnitudes)).bit i =
        (t'.recorded (Encoder.written task magnitudes)).bit i :=
    fun i hi => (hbit i hi).trans (hbit' i hi).symm
  refine ⟨_, _, _, encode_on task magnitudes t hd hm hs, encode_on task magnitudes t' hd hm hs,
    Tape.toBytes_congr hsame, hpos, hpos', fun β _ limit => ?_⟩
  refine decode_congr limit hd (hpos.trans hpos'.symm) fun i hi => hsame i ?_
  exact Nat.lt_of_lt_of_le hi (Outline.required_le _ limit)

/-- The case of two bytes, on an empty tape and on one with thirteen set bits. -/
theorem encode_forgets_past_pair : (Axes.row 2).validate = .ok () ∧
    ∃ (info : Outline) (after after' : Tape),
      (encode .unbounded (⟨Axes.row 2, #[true, false], none, .never⟩ : Encoder.Task (BitVec 8) Unit)
        #[5#8, 1#8]).on .empty = (.ok info, after) ∧
      (encode .unbounded (⟨Axes.row 2, #[true, false], none, .never⟩ : Encoder.Task (BitVec 8) Unit)
        #[5#8, 1#8]).on (Tape.ofBits [255, 255] 13) = (.ok info, after') ∧
      after.toBytes info.bitCount = after'.toBytes info.bitCount ∧
      after.writePosition = info.bitCount ∧ after'.writePosition = info.bitCount ∧
      ((decode (α := BitVec 8) .unbounded info (some 4)).on after).1 =
        ((decode (α := BitVec 8) .unbounded info (some 4)).on after').1 := by
  have hd : (Axes.row 2).validate = .ok () := rfl
  obtain ⟨info, after, after', h, h', hbytes, hpos, hpos', hdecode⟩ :=
    @encode_forgets_past (BitVec 8) Unit _ ⟨Axes.row 2, #[true, false], none, .never⟩ #[5#8, 1#8]
      hd rfl rfl .empty (Tape.ofBits [255, 255] 13)
  exact ⟨hd, info, after, after', h, h', hbytes, hpos, hpos', hdecode (BitVec 8) (some 4)⟩

end VolumeCodec
