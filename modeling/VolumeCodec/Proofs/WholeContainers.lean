import VolumeCodec.Proofs.ContainerSteps
import VolumeCodec.Proofs.Outcomes
import VolumeCodec.Proofs.StoredReals

namespace VolumeCodec

theorem areWords_of_validate {dims : Extents} (h : dims.validate = .ok ()) : dims.AreWords := by
  obtain ⟨-, hv⟩ := validate_eq_ok_iff.mp h
  obtain ⟨hx, hy, hz⟩ := extents_le_volume h
  rw [Nat.one_shiftLeft] at hv
  exact ⟨by omega, by omega, by omega⟩

/-- A container of one volume says whether there are corrections. -/
def wholePreamble (dims : Extents) (corrections : List UInt8) : Preamble :=
  ⟨if corrections.isEmpty then 0 else Preamble.correctedFlag, dims⟩

theorem flags_wholePreamble (dims : Extents) (corrections : List UInt8) :
    (wholePreamble dims corrections).isCorrected = !corrections.isEmpty ∧
      (wholePreamble dims corrections).isTiled = false := by
  unfold wholePreamble Preamble.isCorrected Preamble.isTiled
  cases corrections.isEmpty with
  | true => simp
  | false =>
    dsimp only
    exact ⟨by decide, by decide⟩

/-- The bytes of a container of one volume. -/
def wholeBytes (q : Quantization) (dims : Extents) (stop : Stop) (corrections : List UInt8) :
    List UInt8 :=
  (wholePreamble dims corrections).toBytes ++ (Scale.ofFloats q.mean q.step).toBytes ++
    bytesOfBlock (storedReals q.multiples dims stop) ++ corrections

/-- The corrections that go with quantized values. -/
def correctionsFor (mode : Mode) (data : Array Float) (dims : Extents) :
    Except Fault (List UInt8) :=
  let q := quantizeVolume mode data
  match mode with
  | .pointwise tolerance =>
    correctionBytes .unbounded data q tolerance (realOutline q.multiples dims mode.stop)
      (Tape.empty.recorded (realBits q.multiples dims mode.stop))
  | _ => pure []

theorem compressWhole_eq (mode : Mode) (data : Array Float) (dims : Extents) :
    compressWhole .unbounded mode data dims = (do
      checkStep mode (spread data)
      checkReals (quantizeVolume mode data).multiples dims
      let corrections ← correctionsFor mode data dims
      pure (wholeBytes (quantizeVolume mode data) dims mode.stop corrections)) := by
  unfold compressWhole
  dsimp only
  refine bind_congr fun _ => ?_
  rw [encodeReals_on]
  cases checkReals (quantizeVolume mode data).multiples dims with
  | error e => rfl
  | ok u => cases mode <;> rfl

/-- The values that a container of one volume stands for, as far as a limit lets them be decoded. -/
def restoredReals (q : Quantization) (dims : Extents) (bits : List Bool) : Array Float :=
  let scale := Scale.ofFloats q.mean q.step
  (recoveredFrom q.multiples dims bits).coefficients.map (restoreValue scale.mean scale.step)

theorem size_restoredReals (q : Quantization) (dims : Extents) (bits : List Bool) :
    (restoredReals q dims bits).size = dims.volume := by
  obtain ⟨hm, hs⟩ := Sketch.size_follow
    (allPlanes Float dims (topPlane (q.multiples.map Float.abs)).toInt) bits
    (Sketch.blank Float dims)
  simp only [restoredReals, recoveredFrom, Decoded.ofBits, Array.size_map, Array.size_zipWith,
    hm, hs]
  simp [Sketch.blank]

theorem length_storedReals_le (coefficients : Array Float) {dims : Extents} (stop : Stop)
    (hd : dims.validate = .ok ()) (hv : dims.volume ≤ maxElements) :
    (storedReals coefficients dims stop).length ≤ 2 ^ 49 := by
  have hlt := length_realBits_lt coefficients stop hd hv
  have hbits : (realOutline coefficients dims stop).bitCount =
      (realBits coefficients dims stop).length := rfl
  rw [storedReals, StoredCode.toBytes, List.length_append, CodeHeader.toBytes, List.length_append,
    length_bytesOfInt32, length_bytesOfUInt64, Tape.length_toBytes, hbits]
  unfold bytesFor
  omega

section Reading

variable (q : Quantization) {dims : Extents} (stop : Stop) (corrections : List UInt8)

theorem finish_from (p : Preamble) (limit : BitLimit) (data : Array Float) (bytes : List UInt8) :
    (Reader.from (do
      if p.isCorrected then
        pure ⟨p.dims, ← readCorrections .unbounded limit data⟩
      else
        pure ⟨p.dims, data⟩ : Reader Volume) bytes).1 =
      if p.isCorrected then ((readCorrections .unbounded limit data).from bytes).1.map (⟨p.dims, ·⟩)
      else .ok ⟨p.dims, data⟩ := by
  cases p.isCorrected with
  | false => rfl
  | true =>
    simp only [if_true, Reader.from_bind]
    rcases (readCorrections .unbounded limit data).from bytes with ⟨_ | values, rest⟩ <;> rfl

/-- What stands before the corrections, part by part as it is read: what follows the block is made of
bytes that were read before. -/
theorem codeBytes_eq :
    (wholePreamble dims corrections).toBytes ++ (Scale.ofFloats q.mean q.step).toBytes ++
      bytesOfBlock (storedReals q.multiples dims stop) =
    ((wholePreamble dims corrections).toBytes ++ ((Scale.ofFloats q.mean q.step).toBytes ++
      (bytesOfBlock (storedReals q.multiples dims stop) ++ ([] ++ [])))) ++ ([] ++ []) := by
  simp

/-- The coded coefficients of a container are read back, and the corrections are left to read. -/
theorem readCode_wholeBytes {code : StoredCode}
    (hcode : StoredCode.ofBytes .unbounded (storedReals q.multiples dims stop) dims = .ok code)
    (hd : dims.validate = .ok ()) (hv : dims.volume ≤ maxElements)
    (husable : (Scale.ofFloats q.mean q.step).isUsable = true) :
    (readCode .unbounded).from (wholeBytes q dims stop corrections) =
      (.ok (wholePreamble dims corrections, Scale.ofFloats q.mean q.step, code), corrections) := by
  have hpreamble := Preamble.gets (p := wholePreamble dims corrections)
    (areWords_of_validate hd) (declaredExtents_of_validate hd hv)
  have hlength := length_storedReals_le q.multiples stop hd hv
  have hblock : Reader.block.Gets (bytesOfBlock (storedReals q.multiples dims stop)) _ :=
    Reader.gets_block (by omega)
  have hread : (readCode .unbounded).Gets ((wholePreamble dims corrections).toBytes ++
      ((Scale.ofFloats q.mean q.step).toBytes ++
        (bytesOfBlock (storedReals q.multiples dims stop) ++ ([] ++ []))))
      (wholePreamble dims corrections, Scale.ofFloats q.mean q.step, code) := by
    apply hpreamble.bind
    apply (Scale.gets husable).bind
    apply hblock.bind
    exact (Reader.gets_of_eq_ok hcode).bind (Reader.gets_pure _)
  rw [wholeBytes, codeBytes_eq, List.append_assoc]
  exact hread corrections

/-- The values of a container, as far as a limit lets them be decoded, and the corrections that are
left to read. -/
theorem readUncorrected_wholeBytes (limit : BitLimit) (hd : dims.validate = .ok ())
    (hv : dims.volume ≤ maxElements) (husable : (Scale.ofFloats q.mean q.step).isUsable = true) :
    (readUncorrected .unbounded limit).from (wholeBytes q dims stop corrections) =
      (.ok (wholePreamble dims corrections,
        restoredReals q dims (limit.cut (realBits q.multiples dims stop))), corrections) := by
  obtain ⟨code, hcode, hdecode⟩ := ok_of_bind (decode_storedReals q.multiples stop limit hd hv)
  rw [readUncorrected, Reader.from_bind, readCode_wholeBytes q stop corrections hcode hd hv husable]
  dsimp only
  rw [hdecode]
  rfl

/-- What is read from a container of one volume. -/
theorem decompressWhole_wholeBytes (limit : BitLimit) (hd : dims.validate = .ok ())
    (hv : dims.volume ≤ maxElements) :
    decompressWhole .unbounded limit (wholeBytes q dims stop corrections) =
      if (Scale.ofFloats q.mean q.step).isUsable then
        let data := restoredReals q dims (limit.cut (realBits q.multiples dims stop))
        if corrections.isEmpty then .ok ⟨dims, data⟩
        else ((readCorrections .unbounded limit data).from corrections).1.map (⟨dims, ·⟩)
      else
        .error (.badHeader (.volumeScale (Scale.ofFloats q.mean q.step).mean
          (Scale.ofFloats q.mean q.step).step)) := by
  obtain ⟨hflag, -⟩ := flags_wholePreamble dims corrections
  unfold decompressWhole
  cases husable : (Scale.ofFloats q.mean q.step).isUsable with
  | false =>
    have hpreamble := Preamble.gets (p := wholePreamble dims corrections)
      (areWords_of_validate hd) (declaredExtents_of_validate hd hv)
    unfold wholeBytes readWhole
    rw [List.append_assoc, List.append_assoc, hpreamble.bind_from, Reader.from_bind,
      Scale.read_of_not_usable husable]
    rfl
  | true =>
    rw [readWhole_eq, Reader.from_bind,
      readUncorrected_wholeBytes q stop corrections limit hd hv husable]
    refine (finish_from (wholePreamble dims corrections) limit _ corrections).trans ?_
    rw [hflag]
    cases corrections.isEmpty <;> rfl

end Reading

end VolumeCodec
