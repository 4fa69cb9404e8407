import VolumeCodec.Decompression

namespace VolumeCodec

/-- The first part of a container of one volume: the coded coefficients, with the preamble and the
scale in front of them. -/
def readCode (memory : Memory) : Reader (Preamble × Scale × StoredCode) := do
  let preamble ← Preamble.read
  let scale ← Scale.read
  let code ← StoredCode.ofBytes memory (← Reader.block) preamble.dims
  pure (preamble, scale, code)

/-- The values of a container of one volume as they are before any correction. -/
def readUncorrected (memory : Memory) (limit : BitLimit) : Reader (Preamble × Array Float) := do
  let (preamble, scale, code) ← readCode memory
  let decoded ← ((decodeReals memory code.outline limit).on code.tape).1
  pure (preamble, decoded.coefficients.map (restoreValue scale.mean scale.step))

/-- The corrections for so many values, still coded. -/
def readCorrectionCode (count : Nat) : Reader (CorrectionOutline × List UInt8) := do
  let outline ← (← CorrectionHeader.read).toOutline
  if outline.length ≠ count then
    throw (.badHeader (.correctionLengthMismatch outline.length count))
  let bytes ← Reader.block
  pure (outline, bytes)

/-- The values that coded coefficients come to, for the comparison with the data. -/
def comparedValues (memory : Memory) (q : Quantization) (outline : Outline) (tape : Tape) :
    Except Fault (Array Float) := do
  let decoded ← ((decodeReals memory outline none).on tape).1
  pure (decoded.coefficients.map (restoreValue q.mean q.step))

/-- The corrections for values that miss the data, as a header and a block. -/
def codeMisses (memory : Memory) (data : Array Float) (tolerance : Float) (values : Array Float) :
    Except Fault (List UInt8) := do
  let corrections :=
    { ← Corrections.create data.size tolerance with list := missesOf data values tolerance }
  if corrections.list.isEmpty then
    pure []
  else
    let (outline, tape) := (corrections.encode memory).on .empty
    let outline ← outline
    pure ((CorrectionHeader.ofOutline outline).toBytes ++
      bytesOfBlock (tape.toBytes outline.row.bitCount))

theorem correctionBytes_eq (memory : Memory) (data : Array Float) (q : Quantization)
    (tolerance : Float) (outline : Outline) (tape : Tape) :
    correctionBytes memory data q tolerance outline tape =
      comparedValues memory q outline tape >>= codeMisses memory data tolerance := by
  unfold correctionBytes comparedValues
  simp only [bind_assoc, pure_bind]
  rfl

theorem readCorrections_eq (memory : Memory) (limit : BitLimit) (data : Array Float) :
    readCorrections memory limit data = (do
      let (outline, bytes) ← readCorrectionCode data.size
      if limit.isSome then pure data
      else pure (applyCorrections data (← decodeCorrections memory outline bytes))) := by
  unfold readCorrections readCorrectionCode
  simp only [bind_assoc]
  refine bind_congr fun header => bind_congr fun outline => ?_
  by_cases h : outline.length ≠ data.size
  · simp only [if_pos h]
    rfl
  · simp only [if_neg h, bind_assoc, pure_bind]

theorem readWhole_eq (memory : Memory) (limit : BitLimit) :
    readWhole memory limit = (do
      let (preamble, data) ← readUncorrected memory limit
      if preamble.isCorrected then pure ⟨preamble.dims, ← readCorrections memory limit data⟩
      else pure ⟨preamble.dims, data⟩) := by
  unfold readWhole readUncorrected readCode
  simp only [bind_assoc, pure_bind]

/-- The corrections of a container for so many values. -/
def readCorrectionList (memory : Memory) (preamble : Preamble) (count : Nat) :
    Reader (List Correction) := do
  if preamble.isCorrected then
    let (outline, bytes) ← readCorrectionCode count
    decodeCorrections memory outline bytes
  else
    pure []

/-- Without a limit, the corrections of a container are applied to its values. -/
theorem readWhole_none (memory : Memory) :
    readWhole memory none = (do
      let (preamble, data) ← readUncorrected memory none
      let list ← readCorrectionList memory preamble data.size
      pure ⟨preamble.dims, applyCorrections data list⟩) := by
  rw [readWhole_eq]
  refine bind_congr fun r => ?_
  obtain ⟨preamble, data⟩ := r
  unfold readCorrectionList
  dsimp only
  cases preamble.isCorrected with
  | false => rfl
  | true =>
    simp only [if_true, readCorrections_eq, Option.isSome_none, Bool.false_eq_true, if_false,
      bind_assoc, pure_bind]

end VolumeCodec
