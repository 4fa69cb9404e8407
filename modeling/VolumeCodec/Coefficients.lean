import VolumeCodec.Decoder
import VolumeCodec.Stop

namespace VolumeCodec

def targetError (coefficients : Array Float) (decibels : Float) : Float :=
  let infinity := Float.ofBits 0x7ff0000000000000
  let low := coefficients.foldl (fun m c => if c < m then c else m) infinity
  let high := coefficients.foldl (fun m c => if m < c then c else m) (-infinity)
  let range := high - low
  range * range / Float.pow 10 (decibels / 10) * Real64.ofNat coefficients.size

/-- Codes finite coefficients as magnitudes and signs. A zero of either sign is non-negative. -/
def encodeReals (memory : Memory) (coefficients : Array Float) (dims : Extents)
    (stop : Stop) : Tape.Update Outline := do
  dims.validate
  if coefficients.size ≠ dims.volume then
    throw (.invalidArgument (.coefficientCount coefficients.size dims))
  if let some i := coefficients.findIdx? fun c => !c.isFinite then
    throw (.invalidArgument (.nonFiniteCoefficient i))
  let signs := coefficients.map fun c => decide (0 ≤ c)
  let magnitudes := coefficients.map Float.abs
  match stop with
  | .complete => encode memory ⟨dims, signs, none, .never⟩ magnitudes
  | .bits count => encode memory ⟨dims, signs, some count, .never⟩ magnitudes
  | .quality decibels =>
    encode memory ⟨dims, signs, none, .squaredError (targetError coefficients decibels)⟩ magnitudes

structure Recovered where
  coefficients : Array Float
  signs : Array Bool
  bitCount : Nat

def decodeReals (memory : Memory) (outline : Outline) (limit : BitLimit) :
    Tape.Update Recovered := do
  let d ← decode (α := Float) memory outline limit
  let coefficients := d.magnitudes.zipWith (fun m positive => if positive then m else -m) d.signs
  pure { coefficients := coefficients, signs := d.signs, bitCount := d.bitCount }

end VolumeCodec
