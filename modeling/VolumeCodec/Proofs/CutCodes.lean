import VolumeCodec.Proofs.ReusedTapes
import VolumeCodec.Proofs.StoredReals

namespace VolumeCodec

namespace Reader

theorem nat_short {n : Nat} {input : List UInt8} (h : input.length < n) :
    ((nat n).from input).1 = .error (.badHeader .short) := by
  unfold nat bytes Reader.from
  simp only [map_eq_pure_bind, Action.run_bind, Action.run_get, Action.run_set, if_pos h]
  rfl

theorem bind_from_error {α β : Type} {r : Reader α} {input : List UInt8} {fault : Fault}
    (h : (r.from input).1 = .error fault) (f : α → Reader β) :
    ((r >>= f).from input).1 = .error fault := by
  rw [from_bind]
  rcases hr : r.from input with ⟨e | a, rest⟩
  · rw [hr] at h
    cases h
    rfl
  · rw [hr] at h
    cases h

theorem map_from_error {α β : Type} {r : Reader α} {input : List UInt8} {fault : Fault}
    (h : (r.from input).1 = .error fault) (f : α → β) :
    ((f <$> r).from input).1 = .error fault := by
  rw [map_eq_pure_bind]
  exact bind_from_error h _

end Reader

namespace CodeHeader

/-- A header that was cut off ends too early, in its first number or in its second. -/
theorem read_short (h : CodeHeader) {n : Nat} (hn : n < 12) :
    (CodeHeader.read.from (h.toBytes.take n)).1 = .error (.badHeader .short) := by
  have hplane := length_bytesOfInt32 h.topPlane
  rw [toBytes, List.take_append, hplane]
  unfold read
  rcases Nat.lt_or_ge n 4 with hlt | hge
  · refine Reader.bind_from_error (Reader.map_from_error (Reader.nat_short ?_) _) _
    rw [List.length_append, List.length_take, List.length_take, hplane]
    omega
  · rw [List.take_of_length_le (by omega), Reader.from_bind, Reader.gets_int32 h.topPlane]
    refine Reader.bind_from_error (Reader.map_from_error (Reader.nat_short ?_) _) _
    rw [List.length_take]
    omega

theorem length_toBytes (h : CodeHeader) : h.toBytes.length = 12 := by
  rw [toBytes, List.length_append, length_bytesOfInt32, length_bytesOfUInt64]

end CodeHeader

/-- Where memory is granted, a tape is replaced by the first bits of some bytes. -/
theorem Tape.load_granted {memory : Memory} {bytes : List UInt8} {n : Nat}
    (h : bytesFor n ≤ bytes.length) (hm : memory.grants (8 * wordsFor n) = true) (t : Tape) :
    (load memory bytes n).on t = (.ok (), ofBits bytes n) := by
  unfold load Update.on
  simp only [Nat.not_lt.mpr h, if_false, Action.run_bind, Action.run_get, Action.run_modify,
    Action.run_ite, Memory.request, hm, if_true]
  split <;> rfl

section Decode

variable {α : Type} [Magnitude α]

/-- What comes out of a decoder, check after check. -/
theorem decode_outcome (memory : Memory) (outline : Outline) (limit : BitLimit) (t : Tape) :
    ((decode (α := α) memory outline limit).on t).1 = (do
      outline.dims.validate
      checkTopPlane α outline.topPlane.toInt
      if t.writePosition < outline.required limit then
        .error (.truncated t.writePosition (outline.required limit))
      else do
        memory.requestArray outline.dims.volume (Magnitude.bytes α)
        memory.requestArray outline.dims.volume 1
        let _ ← IndexSet.allocate memory outline.dims.volume
        let result := Decoder.run (α := α) outline.dims (outline.required limit)
          outline.topPlane.toInt (t.seekRead 0)
        if result.1.isSome ∧ result.2.bitCount ≠ outline.bitCount then
          .error (.inconsistent (.bitCount result.2.bitCount outline.bitCount))
        else .ok ⟨result.2.magnitudes, result.2.signs, result.2.bitCount⟩) := by
  unfold decode Tape.Update.on Outline.required
  simp only [Action.run_bind, Action.run_lift]
  cases outline.dims.validate with
  | error fault => rfl
  | ok _ =>
    dsimp only
    cases checkTopPlane α outline.topPlane.toInt with
    | error fault => rfl
    | ok _ =>
      simp only [Action.run_get]
      by_cases h : t.writePosition < limit.elim outline.bitCount (min · outline.bitCount)
      · simp only [if_pos h]
        rfl
      · simp only [if_neg h, Action.run_bind, Action.run_modify, Action.run_lift]
        cases memory.requestArray outline.dims.volume (Magnitude.bytes α) with
        | error fault => rfl
        | ok _ =>
          dsimp only
          cases memory.requestArray outline.dims.volume 1 with
          | error fault => rfl
          | ok _ =>
            dsimp only
            cases IndexSet.allocate memory outline.dims.volume with
            | error fault => rfl
            | ok _ =>
              simp only [Action.run_get, Action.run_set]
              generalize Decoder.run (α := α) outline.dims (limit.elim outline.bitCount
                (min · outline.bitCount)) outline.topPlane.toInt (t.seekRead 0) = result
              by_cases hend : result.1.isSome ∧ result.2.bitCount ≠ outline.bitCount
              · simp only [if_pos hend]
                rfl
              · simp only [if_neg hend]
                rfl

/-- Tapes that have enough of the same bits are decoded alike, to a result or to a fault. -/
theorem decode_same (memory : Memory) {outline : Outline} {limit : BitLimit} {t t' : Tape}
    (ht : outline.required limit ≤ t.writePosition)
    (ht' : outline.required limit ≤ t'.writePosition)
    (hbit : ∀ i < outline.required limit, t.bit i = t'.bit i) :
    ((decode (α := α) memory outline limit).on t).1 =
      ((decode (α := α) memory outline limit).on t').1 := by
  obtain ⟨hresult, hsketch, hcount⟩ := Decoder.run_congr (α := α) outline.dims
    outline.topPlane.toInt (Tape.isFresh_seekRead t 0) (Tape.isFresh_seekRead t' 0)
    (Tape.ahead_seekRead_congr hbit)
  obtain ⟨hmagnitudes, hsigns⟩ := Sketch.mk.inj hsketch
  rw [decode_outcome, decode_outcome]
  simp only [Nat.not_lt.mpr ht, Nat.not_lt.mpr ht', if_false, hresult, hcount, hmagnitudes, hsigns]

theorem decode_truncated (memory : Memory) {outline : Outline} {limit : BitLimit} {t : Tape}
    (hd : outline.dims.validate = .ok ())
    (htop : checkTopPlane α outline.topPlane.toInt = .ok ())
    (ht : t.writePosition < outline.required limit) :
    ((decode (α := α) memory outline limit).on t).1 =
      .error (.truncated t.writePosition (outline.required limit)) := by
  rw [decode_outcome, hd, htop]
  simp only [if_pos ht]
  rfl

end Decode

/-- Magnitudes with their signs put on. -/
def Decoded.toRecovered (d : Decoded Float) : Recovered :=
  ⟨d.magnitudes.zipWith (fun m positive => if positive then m else -m) d.signs, d.signs, d.bitCount⟩

theorem decodeReals_outcome (memory : Memory) (outline : Outline) (limit : BitLimit) (t : Tape) :
    ((decodeReals memory outline limit).on t).1 =
      ((decode memory outline limit).on t).1.map Decoded.toRecovered := by
  unfold decodeReals Tape.Update.on
  rw [Action.run_bind]
  rcases (decode memory outline limit).run.run t with ⟨fault | d, t'⟩ <;> rfl

/-- A coded array of which the header is there, and behind it `k` bytes, or all if there are fewer:
what the bytes say of it, its bits as far as they go, and what decoders make of it. They cannot tell
it from the whole as long as they need no more bits than are there, and otherwise they say so. -/
structure StoredCode.IsCutTo (s : StoredCode) (outline : Outline) (tape : Tape) (k : Nat) :
    Prop where
  outline_eq : s.outline = outline
  available_eq : s.available = min outline.bitCount (8 * k)
  isComplete_iff :
    s.isComplete = true ↔ (StoredCode.toBytes outline tape).length ≤ 12 + k
  writePosition_eq : s.tape.writePosition = s.available
  bit_eq : ∀ i < s.available, s.tape.bit i = tape.bit i
  decode_eq : ∀ (α : Type) [Magnitude α] (memory : Memory) (limit : BitLimit),
    outline.required limit ≤ s.available → outline.required limit ≤ tape.writePosition →
    ((decode (α := α) memory outline limit).on s.tape).1 =
      ((decode (α := α) memory outline limit).on tape).1
  decode_truncated : ∀ (α : Type) [Magnitude α] (memory : Memory) (limit : BitLimit),
    outline.dims.validate = .ok () → checkTopPlane α outline.topPlane.toInt = .ok () →
    s.available < outline.required limit →
    ((decode (α := α) memory outline limit).on s.tape).1 =
      .error (.truncated s.available (outline.required limit))
  decodeReals_eq : ∀ (memory : Memory) (limit : BitLimit),
    outline.required limit ≤ s.available → outline.required limit ≤ tape.writePosition →
    ((decodeReals memory outline limit).on s.tape).1 =
      ((decodeReals memory outline limit).on tape).1
  decodeReals_truncated : ∀ (memory : Memory) (limit : BitLimit),
    outline.dims.validate = .ok () → checkTopPlane Float outline.topPlane.toInt = .ok () →
    s.available < outline.required limit →
    ((decodeReals memory outline limit).on s.tape).1 =
      .error (.truncated s.available (outline.required limit))

namespace StoredCode

variable {memory : Memory} {outline : Outline} {dims : Extents}

theorem length_toBytes (outline : Outline) (tape : Tape) :
    (toBytes outline tape).length = 12 + bytesFor outline.bitCount := by
  rw [toBytes, List.length_append, CodeHeader.length_toBytes, Tape.length_toBytes]

theorem take_toBytes (outline : Outline) (tape : Tape) (k : Nat) :
    (toBytes outline tape).take (12 + k) =
      (CodeHeader.ofOutline outline).toBytes ++ (tape.toBytes outline.bitCount).take k := by
  have hheader := CodeHeader.length_toBytes (CodeHeader.ofOutline outline)
  rw [toBytes, List.take_append, List.take_of_length_le (by omega), hheader,
    Nat.add_sub_cancel_left]

/-- Behind a whole header any bytes are taken for the bits, as many as were declared. -/
theorem ofBytes_header {packed : List UInt8} {available : Nat} (h : outline.bitCount < 2 ^ 64)
    (ha : available = min outline.bitCount (8 * packed.length))
    (hm : memory.grants (8 * wordsFor available) = true) :
    ofBytes memory ((CodeHeader.ofOutline outline).toBytes ++ packed) dims =
      .ok ⟨{ outline with dims := dims }, Tape.ofBits packed available, available⟩ := by
  have houtline :
      (CodeHeader.ofOutline outline).toOutline dims = { outline with dims := dims } := by
    have hcount : ({ outline with dims := dims } : Outline).bitCount < 2 ^ 64 := h
    exact CodeHeader.toOutline_ofOutline hcount
  have hlen : bytesFor available ≤ packed.length := by
    unfold bytesFor
    omega
  have hload := Tape.load_granted hlen hm .empty
  unfold ofBytes
  simp only [(CodeHeader.ofOutline outline).gets packed, bind, Except.bind, houtline, ← ha, hload]
  rfl

theorem bit_ofBits_take {n k i : Nat} (tape : Tape) (hi : i < min n (8 * k)) :
    (Tape.ofBits ((tape.toBytes n).take k) (min n (8 * k))).bit i = tape.bit i := by
  have hcut : i < 8 * k := by omega
  have hcount : i < n := by omega
  rw [Tape.bit_ofBits, bitOfBytes_take, Tape.bitOfBytes_toBytes]
  simp [hcut, hcount]

theorem isCutTo_ofBits (outline : Outline) (tape : Tape) (k : Nat) :
    IsCutTo ⟨outline, Tape.ofBits ((tape.toBytes outline.bitCount).take k)
      (min outline.bitCount (8 * k)), min outline.bitCount (8 * k)⟩ outline tape k := by
  have hdecode : ∀ (α : Type) [Magnitude α] (memory : Memory) (limit : BitLimit),
      outline.required limit ≤ min outline.bitCount (8 * k) →
      outline.required limit ≤ tape.writePosition →
      ((decode (α := α) memory outline limit).on
        (Tape.ofBits ((tape.toBytes outline.bitCount).take k) (min outline.bitCount (8 * k)))).1 =
        ((decode (α := α) memory outline limit).on tape).1 :=
    fun α _ memory limit hs ht => decode_same memory hs ht fun i hi =>
      bit_ofBits_take tape (Nat.lt_of_lt_of_le hi hs)
  refine ⟨rfl, rfl, ?_, rfl, fun i hi => bit_ofBits_take tape hi, hdecode,
    fun α _ memory limit hd htop hs => decode_truncated memory hd htop hs,
    fun memory limit hs ht => ?_,
    fun memory limit hd htop hs => ?_⟩
  · rw [length_toBytes, isComplete, beq_iff_eq]
    unfold bytesFor
    dsimp only
    omega
  · rw [decodeReals_outcome, decodeReals_outcome, hdecode Float memory limit hs ht]
  · rw [decodeReals_outcome, decode_truncated memory hd htop hs]
    rfl

end StoredCode

/-- A stored array that is cut off anywhere behind its header is still read, with the bits that are
left, and decodes like the whole as far as they go. Cut off within the header it is a bad one. -/
theorem cut_codes {outline : Outline} (h : outline.bitCount < 2 ^ 64) (dims : Extents)
    (tape : Tape) :
    (∀ k, ∀ memory : Memory,
      memory.grants (8 * wordsFor (min outline.bitCount (8 * k))) = true →
      ∃ s, StoredCode.ofBytes memory ((StoredCode.toBytes outline tape).take (12 + k)) dims =
          .ok s ∧ s.IsCutTo { outline with dims := dims } tape k) ∧
    ∀ n < 12, ∀ memory : Memory,
      StoredCode.ofBytes memory ((StoredCode.toBytes outline tape).take n) dims =
        .error (.badHeader .short) := by
  refine ⟨fun k memory hm => ?_, fun n hn memory => ?_⟩
  · refine ⟨_, ?_, StoredCode.isCutTo_ofBits { outline with dims := dims } tape k⟩
    rw [StoredCode.take_toBytes]
    refine StoredCode.ofBytes_header h ?_ hm
    rw [List.length_take, Tape.length_toBytes]
    unfold bytesFor
    dsimp only
    omega
  · have hheader := CodeHeader.length_toBytes (CodeHeader.ofOutline outline)
    have hshort := CodeHeader.read_short (CodeHeader.ofOutline outline) hn
    rw [StoredCode.toBytes, List.take_append, Nat.sub_eq_zero_of_le (by omega), List.take_zero,
      List.append_nil]
    unfold StoredCode.ofBytes
    simp only [hshort]
    rfl

/-- Nine bits of which the first eight are left, and a header without its last byte. -/
theorem cut_codes_nine :
    (∃ s, StoredCode.ofBytes .unbounded
        ((StoredCode.toBytes ⟨Axes.row 2, 1, 9⟩ (Tape.ofBits [181, 1] 9)).take 13) (Axes.row 2) =
          .ok s ∧ s.available = 8 ∧ s.isComplete = false ∧
        ((decode (α := BitVec 8) .unbounded ⟨Axes.row 2, 1, 9⟩ (some 5)).on s.tape).1 =
          ((decode (α := BitVec 8) .unbounded ⟨Axes.row 2, 1, 9⟩ (some 5)).on
            (Tape.ofBits [181, 1] 9)).1 ∧
        ((decode (α := BitVec 8) .unbounded ⟨Axes.row 2, 1, 9⟩ none).on s.tape).1 =
          .error (.truncated 8 9)) ∧
      StoredCode.ofBytes .unbounded
        ((StoredCode.toBytes ⟨Axes.row 2, 1, 9⟩ (Tape.ofBits [181, 1] 9)).take 11) (Axes.row 2) =
          .error (.badHeader .short) := by
  have hcount : (⟨Axes.row 2, 1, 9⟩ : Outline).bitCount < 2 ^ 64 := by decide
  obtain ⟨hcut, hshort⟩ := cut_codes hcount (Axes.row 2) (Tape.ofBits [181, 1] 9)
  obtain ⟨s, hs, h⟩ := hcut 1 .unbounded rfl
  have ha : s.available = 8 := h.available_eq
  refine ⟨⟨s, hs, ha, ?_, ?_, ?_⟩, hshort 11 (by decide) .unbounded⟩
  · rw [← Bool.not_eq_true, h.isComplete_iff, StoredCode.length_toBytes]
    decide
  · exact h.decode_eq (BitVec 8) .unbounded (some 5) (by rw [ha]; decide) (by decide)
  · have htruncated := h.decode_truncated (BitVec 8) .unbounded none rfl rfl (by rw [ha]; decide)
    rwa [ha] at htruncated

end VolumeCodec
