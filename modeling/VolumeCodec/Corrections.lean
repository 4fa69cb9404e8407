import VolumeCodec.Decoder
import VolumeCodec.Rounding
import VolumeCodec.Width

namespace VolumeCodec

structure Correction where
  position : Nat
  error : Float

/-- Sparse corrections of an array. Each error is coded as the nearest multiple of the tolerance. -/
structure Corrections where
  length : Nat
  tolerance : Float
  list : Array Correction := #[]

/-- What a decoder has to know of coded corrections besides the bits. They are coded as a row as
long as the array. -/
structure CorrectionOutline where
  width : Width
  tolerance : Float
  row : Outline

def CorrectionOutline.length (outline : CorrectionOutline) : Nat :=
  outline.row.dims.volume

def isTolerance (t : Float) : Bool :=
  t.isFinite && decide (0 < t)

structure Quantized where
  magnitudes : Array Nat
  signs : Array Bool

def Quantized.restore (q : Quantized) (tolerance : Float) : List Correction :=
  (q.magnitudes.zip q.signs).toList.zipIdx.filterMap fun ((m, positive), i) =>
    if m = 0 then none
    else
      let size := tolerance * Real64.ofNat m
      some ⟨i, if positive then size else -size⟩

namespace Corrections

def create (length : Nat) (tolerance : Float) : Except Fault Corrections :=
  if !isTolerance tolerance then .error (.invalidArgument (.tolerance tolerance))
  else if length = 0 then .error (.invalidArgument .emptyArray)
  else .ok { length := length, tolerance := tolerance }

def add (c : Corrections) (correction : Correction) : Corrections :=
  { c with list := c.list.push correction }

def multiple (tolerance error : Float) : Float :=
  roundToEven (error.abs / tolerance)

/-- Enters one correction. It has to lie in the array, to be finite and no smaller than the
tolerance, to measure less than `2 ^ 64` tolerances, and to be the first one at its position. -/
def quantizeOne (c : Corrections) (q : Quantized) (correction : Correction) :
    Except Fault Quantized := do
  let ⟨i, error⟩ := correction
  if c.length ≤ i then
    throw (.invalidArgument (.correctionPosition i c.length))
  if !error.isFinite || decide (error.abs < c.tolerance) then
    throw (.invalidArgument (.correctionSmall error i c.tolerance))
  let m := multiple c.tolerance error
  if Real64.pow2 64 ≤ m then
    throw (.invalidArgument (.correctionLarge error i c.tolerance))
  if q.magnitudes.getD i 0 ≠ 0 then
    throw (.invalidArgument (.correctionRepeated i))
  pure {
    magnitudes := q.magnitudes.setIfInBounds i m.toUInt64.toNat
    signs := q.signs.setIfInBounds i (decide (0 ≤ error)) }

def quantize (c : Corrections) : Except Fault Quantized :=
  c.list.foldlM c.quantizeOne
    { magnitudes := Array.replicate c.length 0, signs := Array.replicate c.length true }

def encode (memory : Memory) (c : Corrections) : Tape.Update CorrectionOutline := do
  let q ← c.quantize
  let width := Width.ofMax (q.magnitudes.foldl max 0)
  let row ← VolumeCodec.encode memory ⟨Axes.row c.length, q.signs, none, .never⟩
    (Packed.ofNats width q.magnitudes).values
  pure { width := width, tolerance := c.tolerance, row := row }

def decode (memory : Memory) (outline : CorrectionOutline) : Tape.Update (List Correction) := do
  if !isTolerance outline.tolerance then
    throw (.badHeader (.correctionTolerance outline.tolerance))
  let d ← VolumeCodec.decode (α := BitVec outline.width.bits) memory outline.row none
  let q : Quantized := ⟨Packed.toNats ⟨outline.width, d.magnitudes⟩, d.signs⟩
  pure (q.restore outline.tolerance)

end Corrections

end VolumeCodec
