import VolumeCodec.Coefficients
import VolumeCodec.Layout
import VolumeCodec.Tiling

namespace VolumeCodec

/-- What the compression of a volume has to keep to. -/
inductive Mode
  /-- Every bitplane, at a step that keeps 53 significant bits. -/
  | lossless
  /-- At most so many bits of coefficients, shared out over the tiles by their size. -/
  | bits (count : Nat)
  /-- A quality in decibels, relative to the range of the data. -/
  | quality (decibels : Float)
  /-- Every value within an absolute tolerance. -/
  | pointwise (tolerance : Float)

structure Settings where
  mode : Mode := .lossless
  /-- The nominal extents of tiles, if the volume is to be compressed tile by tile. -/
  tile : Option Extents := none

namespace Mode

def check : Mode → Except Fault Unit
  | pointwise t =>
    if isTolerance t then .ok () else .error (.invalidArgument (.pointwiseTolerance t))
  | quality q => if q.isFinite then .ok () else .error (.invalidArgument (.quality q))
  | _ => .ok ()

/-- When the coding of the coefficients stops. Corrections assume that they are complete. -/
def stop : Mode → Stop
  | lossless | pointwise _ => .complete
  | bits count => .bits count
  | quality decibels => .quality decibels

def forTile (mode : Mode) (t : Tile) (total : Nat) : Mode :=
  match mode with
  | bits count => bits (t.share count total)
  | other => other

end Mode

def checkVolume (data : Array Float) (dims : Extents) : Except Fault Unit := do
  dims.validate
  if data.size ≠ dims.volume then
    throw (.invalidArgument (.valueCount data.size dims))
  if maxElements < data.size then
    throw (.invalidArgument (.tooManyValues data.size maxElements))
  if let some i := data.findIdx? fun v => !v.isFinite then
    throw (.invalidArgument (.nonFiniteValue i))

/-- The mean of some values, summed from left to right. The sum starts from the negative zero. -/
def meanOf (data : Array Float) : Float :=
  data.foldl (· + ·) (-0.0) / Real64.ofNat data.size

def largest (values : Array Float) : Float :=
  values.foldl (fun m v => if m < v.abs then v.abs else m) 0

/-- How far values lie from their mean, as it is computed: nothing keeps the mean or a difference
from it finite. -/
def spread (data : Array Float) : Float :=
  largest (data.map (· - meanOf data))

/-- The exponent of a step that keeps 53 significant bits of a number. The subtraction wraps around
where the number is infinite; `checkStep` does not let a compression get that far. -/
def stepExponent (distance : Float) : Int32 :=
  max (Real64.topPlane distance - 52) (-1022)

def stepFor (mode : Mode) (distance : Float) : Float :=
  match mode with
  | .pointwise tolerance => 1.5 * tolerance
  | _ => if 0 < distance then Real64.pow2 (stepExponent distance).toInt else 1

/-- The exponent of a step is computed in 32 bits. What stands for the plane of an infinite distance
is the least of these numbers, from which nothing can be subtracted. -/
def checkStep (mode : Mode) (distance : Float) : Except Fault Unit :=
  match mode with
  | .pointwise _ => .ok ()
  | _ =>
    if 0 < distance ∧ (Real64.topPlane distance).toInt - 52 < Int32.minValue.toInt then
      .error .overflow
    else .ok ()

structure Quantization where
  mean : Float
  step : Float
  multiples : Array Float

def quantizeVolume (mode : Mode) (data : Array Float) : Quantization :=
  let mean := meanOf data
  let centered := data.map (· - mean)
  let step := stepFor mode (largest centered)
  ⟨mean, step, centered.map fun v => roundToEven (v / step)⟩

def restoreValue (mean step coefficient : Float) : Float :=
  coefficient * step + mean

def missesOf (data restored : Array Float) (tolerance : Float) : Array Correction :=
  (data.zip restored).zipIdx.filterMap fun ((v, r), i) =>
    let error := v - r
    if tolerance ≤ error.abs then some ⟨i, error⟩ else none

def correctionBytes (memory : Memory) (data : Array Float) (q : Quantization) (tolerance : Float)
    (outline : Outline) (tape : Tape) : Except Fault (List UInt8) := do
  let decoded ← ((decodeReals memory outline none).on tape).1
  let restored := decoded.coefficients.map (restoreValue q.mean q.step)
  let corrections :=
    { ← Corrections.create data.size tolerance with list := missesOf data restored tolerance }
  if corrections.list.isEmpty then
    pure []
  else
    let (outline, tape) := (corrections.encode memory).on .empty
    let outline ← outline
    pure ((CorrectionHeader.ofOutline outline).toBytes ++
      bytesOfBlock (tape.toBytes outline.row.bitCount))

def compressWhole (memory : Memory) (mode : Mode) (data : Array Float) (dims : Extents) :
    Except Fault (List UInt8) := do
  checkStep mode (spread data)
  let q := quantizeVolume mode data
  let (outline, tape) := (encodeReals memory q.multiples dims mode.stop).on .empty
  let outline ← outline
  let corrections ← match mode with
    | .pointwise tolerance => correctionBytes memory data q tolerance outline tape
    | _ => pure []
  let preamble : Preamble := ⟨if corrections.isEmpty then 0 else Preamble.correctedFlag, dims⟩
  pure (preamble.toBytes ++ (Scale.ofFloats q.mean q.step).toBytes ++
    bytesOfBlock (StoredCode.toBytes outline tape) ++ corrections)

def compressTiles (memory : Memory) (mode : Mode) (data : Array Float) (dims nominal : Extents) :
    Except Fault (List UInt8) := do
  checkVolume data dims
  let blocks ← (← tiles dims nominal).mapM fun t =>
    compressWhole memory (mode.forTile t dims.volume) ((t.gather? dims data).getD #[]) t.extent
  let preamble : Preamble := ⟨Preamble.tiledFlag, dims⟩
  let table : TileTable := ⟨nominal, UInt64.ofNat blocks.length⟩
  pure (preamble.toBytes ++ table.toBytes ++ blocks.flatMap bytesOfBlock)

def compress (memory : Memory) (settings : Settings) (data : Array Float) (dims : Extents) :
    Except Fault (List UInt8) := do
  settings.mode.check
  match settings.tile with
  | some nominal => compressTiles memory settings.mode data dims nominal
  | none => do
    checkVolume data dims
    compressWhole memory settings.mode data dims

end VolumeCodec
