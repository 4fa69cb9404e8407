import VolumeCodec.Corrections
import VolumeCodec.Reader

namespace VolumeCodec

/-- The beginning of every container: a magic word, a version, flags and the dimensions. -/
structure Preamble where
  flags : UInt8
  dims : Extents
  deriving DecidableEq

namespace Preamble

/-- The letters `SPRR`. -/
def magic : List UInt8 := [0x53, 0x50, 0x52, 0x52]

def version : UInt8 := 1

def correctedFlag : UInt8 := 1

def tiledFlag : UInt8 := 2

def isCorrected (p : Preamble) : Bool :=
  p.flags &&& correctedFlag != 0

def isTiled (p : Preamble) : Bool :=
  p.flags &&& tiledFlag != 0

def toBytes (p : Preamble) : List UInt8 :=
  magic ++ [version, p.flags] ++ bytesOfExtents p.dims

def read : Reader Preamble := do
  let found ← Reader.bytes 4
  if found ≠ magic then
    throw (.badHeader (.magic found))
  let v ← Reader.uint8
  if v ≠ version then
    throw (.badHeader (.version v))
  let flags ← Reader.uint8
  let dims ← Reader.extents
  pure { flags := flags, dims := dims }

end Preamble

/-- How coefficients become values: each is multiplied by the step, and the mean is added. Both
numbers are kept as the bit patterns of doubles. -/
structure Scale where
  meanBits : UInt64
  stepBits : UInt64
  deriving DecidableEq

namespace Scale

def ofFloats (mean step : Float) : Scale :=
  ⟨mean.toBits, step.toBits⟩

def mean (s : Scale) : Float :=
  Float.ofBits s.meanBits

def step (s : Scale) : Float :=
  Float.ofBits s.stepBits

def isUsable (s : Scale) : Bool :=
  s.mean.isFinite && s.step.isFinite && decide (0 < s.step)

def toBytes (s : Scale) : List UInt8 :=
  bytesOfUInt64 s.meanBits ++ bytesOfUInt64 s.stepBits

def read : Reader Scale := do
  let mean ← Reader.uint64
  let step ← Reader.uint64
  let s : Scale := ⟨mean, step⟩
  if !s.isUsable then
    throw (.badHeader (.volumeScale s.mean s.step))
  pure s

end Scale

structure TileTable where
  extents : Extents
  count : UInt64
  deriving DecidableEq

namespace TileTable

def toBytes (t : TileTable) : List UInt8 :=
  bytesOfExtents t.extents ++ bytesOfUInt64 t.count

def read : Reader TileTable := do
  let extents ← Reader.extents
  let count ← Reader.uint64
  pure { extents := extents, count := count }

end TileTable

structure CodeHeader where
  topPlane : Int32
  bitCount : UInt64
  deriving DecidableEq

namespace CodeHeader

def ofOutline (outline : Outline) : CodeHeader :=
  ⟨outline.topPlane, UInt64.ofNat outline.bitCount⟩

def toOutline (h : CodeHeader) (dims : Extents) : Outline :=
  ⟨dims, h.topPlane, h.bitCount.toNat⟩

def toBytes (h : CodeHeader) : List UInt8 :=
  bytesOfInt32 h.topPlane ++ bytesOfUInt64 h.bitCount

def read : Reader CodeHeader := do
  let topPlane ← Reader.int32
  let bitCount ← Reader.uint64
  pure { topPlane := topPlane, bitCount := bitCount }

end CodeHeader

/-- What precedes the bits of coded corrections. The tolerance is kept as the bit pattern of a
double. -/
structure CorrectionHeader where
  width : Width
  toleranceBits : UInt64
  length : UInt64
  code : CodeHeader
  deriving DecidableEq

namespace CorrectionHeader

def tolerance (h : CorrectionHeader) : Float :=
  Float.ofBits h.toleranceBits

def ofOutline (outline : CorrectionOutline) : CorrectionHeader :=
  ⟨outline.width, outline.tolerance.toBits, UInt64.ofNat outline.length, .ofOutline outline.row⟩

def toOutline (h : CorrectionHeader) : Except Fault CorrectionOutline :=
  if h.length = 0 ∨ maxElements < h.length.toNat then
    .error (.badHeader (.correctionLength h.length.toNat))
  else .ok ⟨h.width, h.tolerance, h.code.toOutline (Axes.row h.length.toNat)⟩

def toBytes (h : CorrectionHeader) : List UInt8 :=
  [h.width.tag] ++ bytesOfUInt64 h.toleranceBits ++ bytesOfUInt64 h.length ++ h.code.toBytes

def read : Reader CorrectionHeader := do
  let width ← Width.ofTag (← Reader.uint8)
  let tolerance ← Reader.uint64
  let length ← Reader.uint64
  let code ← CodeHeader.read
  pure { width := width, toleranceBits := tolerance, length := length, code := code }

end CorrectionHeader

/-- A coded array as it was found in a byte sequence, which may have been cut off behind the
header. -/
structure StoredCode where
  outline : Outline
  tape : Tape
  /-- The number of bits that are there. -/
  available : Nat

namespace StoredCode

def toBytes (outline : Outline) (tape : Tape) : List UInt8 :=
  (CodeHeader.ofOutline outline).toBytes ++ tape.toBytes outline.bitCount

def ofBytes (memory : Memory) (bytes : List UInt8) (dims : Extents) :
    Except Fault StoredCode := do
  let (header, packed) := CodeHeader.read.from bytes
  let outline := (← header).toOutline dims
  let available := min outline.bitCount (8 * packed.length)
  let (loaded, tape) := (Tape.load memory packed available).on .empty
  loaded
  pure { outline := outline, tape := tape, available := available }

def isComplete (s : StoredCode) : Bool :=
  s.available == s.outline.bitCount

end StoredCode

end VolumeCodec
