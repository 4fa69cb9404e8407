import VolumeCodec.Encoder

namespace VolumeCodec

namespace Decoder

structure State (α : Type) where
  magnitudes : Array α
  signs : Array Bool
  tape : Tape
  bitCount : Nat := 0

variable {α : Type} [Magnitude α]

def next (limit : Nat) (use : Bool → State α → State α) (s : State α) : Reply (State α) :=
  if limit ≤ s.bitCount then .halt s
  else
    let (bit, tape) := s.tape.readBit
    .answer bit (use bit { s with tape := tape, bitCount := s.bitCount + 1 })

/-- Answers from the tape, but for what is implied. A sign makes an element start with the
threshold, and a refinement bit that is set adds the threshold to it. -/
def reply (limit : Nat) (plane : Int) (s : State α) (q : Query) : Reply (State α) :=
  let threshold : α := Magnitude.pow2 plane
  match q with
  | .significance _ true => .answer true s
  | .significance _ false => next limit (fun _ s => s) s
  | .sign i =>
    next limit (fun bit s => { s with
      magnitudes := s.magnitudes.setIfInBounds i threshold
      signs := s.signs.setIfInBounds i bit }) s
  | .refinement i =>
    next limit (fun bit s =>
      if bit then { s with magnitudes := s.magnitudes.modify i (Magnitude.add · threshold) }
      else s) s

def run (dims : Extents) (limit : Nat) (highest : Int) (tape : Tape) :
    Option Progress × State α :=
  let s : State α := {
    magnitudes := Array.replicate dims.volume Magnitude.zero
    signs := Array.replicate dims.volume true
    tape := tape }
  let lowest := Magnitude.minPlane α
  conductPlanes dims (reply limit) lowest (planeCount highest lowest) (Progress.initial dims) s

end Decoder

/-- Recovered magnitudes with their signs, `true` for non-negative, and the number of bits read. An
element that was not reached is zero and non-negative. -/
structure Decoded (α : Type) where
  magnitudes : Array α
  signs : Array Bool
  bitCount : Nat

def checkTopPlane (α : Type) [Magnitude α] (plane : Int) : Except Fault Unit :=
  if Magnitude.maxPlane α < plane then
    match Magnitude.width? α with
    | some width => .error (.tooNarrow plane width)
    | none => .error (.badHeader (.topPlane plane))
  else .ok ()

/-- Decodes from the beginning of a tape as many bits as the outline declares, or fewer if there is
a limit. Which plane was coded last is not known, so the number of bits tells where to stop; running
out of planes before that is a fault. -/
def decode {α : Type} [Magnitude α] (memory : Memory) (outline : Outline) (limit : BitLimit) :
    Tape.Update (Decoded α) := do
  outline.dims.validate
  checkTopPlane α outline.topPlane.toInt
  let required := limit.elim outline.bitCount (min · outline.bitCount)
  let available := (← get).writePosition
  if available < required then
    throw (.truncated available required)
  modify (Tape.seekRead 0)
  memory.requestArray outline.dims.volume (Magnitude.bytes α)
  memory.requestArray outline.dims.volume 1
  let _ ← IndexSet.allocate memory outline.dims.volume
  let (finished, final) := Decoder.run (α := α) outline.dims required outline.topPlane.toInt (← get)
  set final.tape
  if finished.isSome ∧ final.bitCount ≠ outline.bitCount then
    throw (.inconsistent (.bitCount final.bitCount outline.bitCount))
  pure { magnitudes := final.magnitudes, signs := final.signs, bitCount := final.bitCount }

end VolumeCodec
