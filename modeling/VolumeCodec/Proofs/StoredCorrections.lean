import Mathlib
import VolumeCodec.Proofs.ContainerSteps
import VolumeCodec.Proofs.WholeContainers

namespace VolumeCodec

/-- Magnitudes at some width with signs, as corrections of an array are coded. -/
structure CorrectionCode where
  width : Width
  signs : Array Bool
  magnitudes : Array (BitVec width.bits)

namespace CorrectionCode

variable (code : CorrectionCode) (length : Nat) (tolerance : Float)

def task : Encoder.Task (BitVec code.width.bits) Unit :=
  ⟨Axes.row length, code.signs, none, .never⟩

def bits : List Bool :=
  Encoder.written (code.task length) code.magnitudes

def outline : CorrectionOutline :=
  ⟨code.width, tolerance, outlineOf (Axes.row length) code.magnitudes (code.bits length).length⟩

/-- The bits as a block holds them. -/
def packed : List UInt8 :=
  (Tape.empty.recorded (code.bits length)).toBytes (code.bits length).length

/-- A header and a block. -/
def toBytes : List UInt8 :=
  (CorrectionHeader.ofOutline (code.outline length tolerance)).toBytes ++
    bytesOfBlock (code.packed length)

/-- The corrections that a decoder makes of the bits. -/
def restored : List Correction :=
  let d := Decoded.ofBits (BitVec code.width.bits) (Axes.row length)
    (topPlane code.magnitudes).toInt (code.bits length)
  Quantized.restore ⟨Packed.toNats ⟨code.width, d.magnitudes⟩, d.signs⟩ tolerance

end CorrectionCode

/-- How quantized corrections are coded: at the narrowest width that holds their magnitudes. -/
def Quantized.code (q : Quantized) : CorrectionCode :=
  let packed := Packed.ofNats (Width.ofMax (q.magnitudes.foldl max 0)) q.magnitudes
  ⟨packed.width, q.signs, packed.values⟩

theorem checks_of_encode_on {α κ : Type} [Magnitude α] {task : Encoder.Task α κ}
    {magnitudes : Array α} {t : Tape} {outline : Outline}
    (h : ((encode .unbounded task magnitudes).on t).1 = .ok outline) :
    task.dims.validate = .ok () ∧ magnitudes.size = task.dims.volume ∧
      task.signs.size = task.dims.volume := by
  unfold encode Tape.Update.on at h
  cases hd : task.dims.validate with
  | error e =>
    simp only [hd, Action.run_bind, Action.run_lift] at h
    cases h
  | ok u =>
    by_cases hs : magnitudes.size ≠ task.dims.volume ∨ task.signs.size ≠ task.dims.volume
    · simp only [hd, hs, if_true, Action.run_bind, Action.run_lift, Action.run_throw] at h
      cases h
    · rw [not_or, Decidable.not_not, Decidable.not_not] at hs
      exact ⟨rfl, hs⟩

theorem Corrections.encode_of_quantize {c : Corrections} {q : Quantized} (h : c.quantize = .ok q)
    (hd : (Axes.row c.length).validate = .ok ()) (hm : q.magnitudes.size = c.length)
    (hs : q.signs.size = c.length) (t : Tape) : (c.encode .unbounded).on t =
      (.ok (q.code.outline c.length c.tolerance), t.recorded (q.code.bits c.length)) := by
  have hvolume : (Axes.row c.length).volume = c.length := by simp [Axes.row, Axes.volume]
  have hrun := VolumeCodec.encode_on (q.code.task c.length) q.code.magnitudes t hd
    ((Array.size_map.trans hm).trans hvolume.symm) (hs.trans hvolume.symm)
  refine Action.run_bind_eq_ok.mpr ⟨q, t, ?_, Action.run_bind_eq_ok.mpr ⟨_, _, hrun, rfl⟩⟩
  rw [Action.run_lift, h]

theorem Corrections.encode_on {c : Corrections} {outline : CorrectionOutline} {t t' : Tape}
    (h : (c.encode .unbounded).on t = (.ok outline, t')) :
    (Axes.row c.length).validate = .ok () ∧ ∃ q, c.quantize = .ok q ∧
      outline = q.code.outline c.length c.tolerance ∧ t' = t.recorded (q.code.bits c.length) := by
  obtain ⟨q, _, hq, hrest⟩ := Action.run_bind_eq_ok.mp h
  rw [Action.run_lift] at hq
  obtain ⟨hquantize, rfl⟩ := Prod.mk.inj hq
  obtain ⟨row, _, hrow, -⟩ := Action.run_bind_eq_ok.mp hrest
  have hcoded : ((VolumeCodec.encode .unbounded (q.code.task c.length) q.code.magnitudes).on
      t).1 = .ok row := congrArg Prod.fst hrow
  obtain ⟨hd, hm, hs⟩ := checks_of_encode_on hcoded
  have hvolume : (Axes.row c.length).volume = c.length := by simp [Axes.row, Axes.volume]
  have hrun := encode_of_quantize hquantize hd
    (Array.size_map.symm.trans (hm.trans hvolume)) (hs.trans hvolume) t
  obtain ⟨houtline, htape⟩ := Prod.mk.inj (h.symm.trans hrun)
  exact ⟨hd, q, hquantize, Except.ok.inj houtline, htape⟩

theorem Corrections.create_eq_ok_iff {length : Nat} {tolerance : Float} {c : Corrections} :
    Corrections.create length tolerance = .ok c ↔
      isTolerance tolerance = true ∧ length ≠ 0 ∧ c = ⟨length, tolerance, #[]⟩ := by
  unfold Corrections.create
  cases ht : isTolerance tolerance with
  | false => simp
  | true =>
    by_cases hlength : length = 0
    · simp [hlength]
    · simp [hlength, eq_comm]

/-- Values either need no correction, or their corrections are stored behind them. -/
theorem codeMisses_cases {data values : Array Float} {tolerance : Float} {bytes : List UInt8}
    (h : codeMisses .unbounded data tolerance values = .ok bytes) :
    (missesOf data values tolerance).isEmpty = true ∧ bytes = [] ∨
      (Axes.row data.size).validate = .ok () ∧ ∃ q,
        Corrections.quantize ⟨data.size, tolerance, missesOf data values tolerance⟩ = .ok q ∧
        bytes = q.code.toBytes data.size tolerance := by
  unfold codeMisses at h
  obtain ⟨c, hc, h⟩ := ok_of_bind h
  obtain ⟨-, -, rfl⟩ := Corrections.create_eq_ok_iff.mp hc
  dsimp only at h
  cases hempty : (missesOf data values tolerance).isEmpty with
  | true =>
    rw [hempty, if_pos rfl] at h
    exact .inl ⟨rfl, (Except.ok.inj h).symm⟩
  | false =>
    rw [hempty, if_neg Bool.false_ne_true] at h
    obtain ⟨row, hrow, h⟩ := ok_of_bind h
    obtain ⟨tape, hrun⟩ : ∃ tape, Tape.Update.on _ .empty = (.ok row, tape) :=
      Action.run_eq_of_fst hrow
    rw [hrun] at h
    cases h
    obtain ⟨hd, q, hq, rfl, rfl⟩ := Corrections.encode_on hrun
    exact .inr ⟨hd, q, hq, rfl⟩

namespace CorrectionCode

variable (code : CorrectionCode) {length : Nat} {tolerance : Float}

theorem length_bits_lt (hd : (Axes.row length).validate = .ok ()) (hv : length ≤ maxElements) :
    (code.bits length).length < 2 ^ 50 := by
  have hle := Encoder.length_written_le_of_planes (code.task length) code.magnitudes hd
  have hvolume : (code.task length).dims.volume = length := by
    show length * 1 * 1 = length
    omega
  have hmax : maxElements = 2 ^ 36 := rfl
  have hplanes : planeCount (Magnitude.maxPlane (BitVec code.width.bits))
      (Magnitude.minPlane (BitVec code.width.bits)) ≤ 64 := by
    cases code.width <;> decide
  have hfee : planeFee (code.task length).dims ≤ 2 ^ 39 := by
    rw [planeFee, hvolume, levelLimit]
    omega
  have hmul := Nat.mul_le_mul hplanes hfee
  unfold bits
  omega

theorem length_toBytes_le (hd : (Axes.row length).validate = .ok ()) (hv : length ≤ maxElements) :
    (code.toBytes length tolerance).length ≤ 2 ^ 50 := by
  have hbits := code.length_bits_lt hd hv
  simp only [toBytes, packed, CorrectionHeader.toBytes, CodeHeader.toBytes, List.length_append,
    List.length_singleton, length_bytesOfUInt64, length_bytesOfBlock, Tape.length_toBytes,
    length_bytesOfInt32]
  unfold bytesFor
  omega

theorem toOutline_ofOutline (hd : (Axes.row length).validate = .ok ()) (hv : length ≤ maxElements) :
    (CorrectionHeader.ofOutline (code.outline length tolerance)).toOutline =
      .ok (code.outline length tolerance) := by
  have hbits := code.length_bits_lt hd hv
  have hmax : maxElements = 2 ^ 36 := rfl
  obtain ⟨hpos, -, -⟩ := pos_of_validate hd
  change 0 < length at hpos
  have hlength : (code.outline length tolerance).length = length := by
    show length * 1 * 1 = length
    omega
  have hword : (UInt64.ofNat length).toNat = length :=
    UInt64.toNat_ofNat_of_lt' (Nat.lt_of_le_of_lt hv (by decide))
  have hne : UInt64.ofNat length ≠ 0 := fun h => by
    rw [h] at hword
    change 0 = length at hword
    omega
  have hrow : (CodeHeader.ofOutline (code.outline length tolerance).row).toOutline
      (Axes.row length) = (code.outline length tolerance).row :=
    CodeHeader.toOutline_ofOutline (Nat.lt_trans hbits (by decide))
  unfold CorrectionHeader.toOutline CorrectionHeader.ofOutline CorrectionHeader.tolerance
  rw [hlength, hword, if_neg (not_or.mpr ⟨hne, Nat.not_lt.mpr hv⟩)]
  dsimp only
  rw [Float.ofBits_toBits]
  exact congrArg (fun row => Except.ok (CorrectionOutline.mk code.width tolerance row)) hrow

/-- From a tape that begins with the bits of corrections these are decoded. -/
theorem decode_on (ht : isTolerance tolerance = true) (hd : (Axes.row length).validate = .ok ())
    {t : Tape} (hpos : (code.bits length).length ≤ t.writePosition)
    (hbit : ∀ i < (code.bits length).length, t.bit i = (code.bits length).getD i false) :
    ((Corrections.decode .unbounded (code.outline length tolerance)).on t).1 =
      .ok (code.restored length tolerance) := by
  have hdecode : ((VolumeCodec.decode (α := BitVec (code.outline length tolerance).width.bits)
      .unbounded (code.outline length tolerance).row none).on t).1 = _ :=
    VolumeCodec.decode_on (code.task length) code.magnitudes none hd (Nat.le_refl _) rfl (.inr rfl)
      hpos hbit
  obtain ⟨t', hrun⟩ := Action.run_eq_of_fst hdecode
  have hcheck : (!isTolerance (code.outline length tolerance).tolerance) = false := by
    show (!isTolerance tolerance) = false
    rw [ht]
    rfl
  unfold Corrections.decode Tape.Update.on
  simp only [hcheck, Bool.false_eq_true, if_false, Action.run_bind, hrun]
  rw [List.take_of_length_le (Nat.le_refl _)]
  rfl

theorem decodeCorrections_packed (ht : isTolerance tolerance = true)
    (hd : (Axes.row length).validate = .ok ()) :
    decodeCorrections .unbounded (code.outline length tolerance) (code.packed length) =
      .ok (code.restored length tolerance) := by
  obtain ⟨-, -, hbit⟩ := Tape.recorded_spec .empty (code.bits length)
  have hload : (Tape.load .unbounded (code.packed length)
      (code.outline length tolerance).row.bitCount).on .empty =
        (.ok (), Tape.ofBits (code.packed length) (code.outline length tolerance).row.bitCount) :=
    Tape.load_on (Nat.le_of_eq (Tape.length_toBytes _ _).symm) .empty
  have hdecode := code.decode_on ht hd (t := Tape.ofBits (code.packed length)
      (code.outline length tolerance).row.bitCount) (Nat.le_refl _)
    fun i hi => (Tape.bit_ofBits_toBytes _ hi).trans (hbit i hi)
  obtain ⟨t, hrun⟩ := Action.run_eq_of_fst hdecode
  exact congrArg Prod.fst (Action.run_bind_eq_ok.mpr ⟨_, _, hload, hrun⟩)

theorem length_packed_lt (hd : (Axes.row length).validate = .ok ()) (hv : length ≤ maxElements) :
    (code.packed length).length < 2 ^ 61 := by
  have hbits := code.length_bits_lt hd hv
  rw [packed, Tape.length_toBytes, bytesFor]
  omega

/-- Between the header and the block the header is checked. -/
theorem toBytes_eq : code.toBytes length tolerance =
    (CorrectionHeader.ofOutline (code.outline length tolerance)).toBytes ++
      ([] ++ (bytesOfBlock (code.packed length) ++ [])) := by
  simp [toBytes]

theorem gets_correctionCode (hd : (Axes.row length).validate = .ok ()) (hv : length ≤ maxElements) :
    (readCorrectionCode length).Gets (code.toBytes length tolerance)
      (code.outline length tolerance, code.packed length) := by
  have hlength : ¬(code.outline length tolerance).length ≠ length := by
    show ¬length * 1 * 1 ≠ length
    omega
  have hblock := code.length_packed_lt hd hv
  rw [toBytes_eq]
  apply (CorrectionHeader.gets _).bind
  apply (Reader.gets_of_eq_ok (code.toOutline_ofOutline hd hv)).bind
  exact Reader.gets_of_check hlength ((Reader.gets_block (by omega)).bind (Reader.gets_pure _))

theorem gets_corrections (data : Array Float) (ht : isTolerance tolerance = true)
    (hd : (Axes.row data.size).validate = .ok ()) (hv : data.size ≤ maxElements) :
    (readCorrections .unbounded none data).Gets (code.toBytes data.size tolerance)
      (applyCorrections data (code.restored data.size tolerance)) := by
  rw [readCorrections_eq, ← List.append_nil (code.toBytes data.size tolerance)]
  refine (code.gets_correctionCode hd hv).bind ?_
  exact (Reader.gets_of_eq_ok (code.decodeCorrections_packed ht hd)).bind (Reader.gets_pure _)

end CorrectionCode

theorem size_applyCorrections (data : Array Float) (list : List Correction) :
    (applyCorrections data list).size = data.size := by
  unfold applyCorrections
  induction list generalizing data with
  | nil => rfl
  | cons c rest ih => rw [List.foldl_cons, ih, Array.size_modify]

end VolumeCodec
