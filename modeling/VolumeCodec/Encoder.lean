import VolumeCodec.Bitplane
import VolumeCodec.Goal
import VolumeCodec.Tape

namespace VolumeCodec

/-- What a decoder has to know of a coded array besides the bits. -/
structure Outline where
  dims : Extents
  /-- The highest plane; of an array of zeros, the least 32-bit number. -/
  topPlane : Int32
  bitCount : Nat
  deriving DecidableEq

abbrev BitLimit := Option Nat

def BitLimit.isReached (limit : BitLimit) (count : Nat) : Bool :=
  match limit with
  | none => false
  | some n => decide (n ≤ count)

namespace Encoder

structure Task (α κ : Type) where
  dims : Extents
  signs : Array Bool
  limit : BitLimit
  goal : Goal α κ

/-- What is left to code of each element, how far that is from the goal, and the bits so far, the
last one first. -/
structure State (α κ : Type) where
  residuals : Array α
  missing : κ
  bits : List Bool := []
  bitCount : Nat := 0

variable {α κ : Type} [Magnitude α]

def emit (task : Task α κ) (bit : Bool) (s : State α κ) : Reply (State α κ) :=
  if task.limit.isReached s.bitCount then .halt s
  else
    let s := { s with bits := bit :: s.bits, bitCount := s.bitCount + 1 }
    if task.limit.isReached s.bitCount || task.goal.met s.missing then .halt s
    else .answer bit s

def reduce (task : Task α κ) (threshold : α) (i : Nat) (s : State α κ) : State α κ :=
  let old := s.residuals.getD i Magnitude.zero
  let new := Magnitude.sub old threshold
  { s with
    residuals := s.residuals.setIfInBounds i new
    missing := task.goal.update s.missing old new }

def reaches (threshold : α) (residuals : Array α) (i : Nat) : Bool :=
  Magnitude.reaches (residuals.getD i Magnitude.zero) threshold

def reply (task : Task α κ) (plane : Int) (s : State α κ) (q : Query) : Reply (State α κ) :=
  let threshold : α := Magnitude.pow2 plane
  match q with
  | .significance _ true => .answer true s
  | .significance subject false =>
    emit task (subject.any task.dims (reaches threshold s.residuals)) s
  | .sign i => emit task (task.signs.getD i true) (reduce task threshold i s)
  | .refinement i =>
    if reaches threshold s.residuals i then emit task true (reduce task threshold i s)
    else emit task false s

/-- Codes the planes from `highest` to `lowest`. The progress is missing if the limit or the goal
was reached before the end. A goal that is met at the outset costs no bit. -/
def run (task : Task α κ) (highest lowest : Int) (magnitudes : Array α) :
    Option Progress × State α κ :=
  let s : State α κ := { residuals := magnitudes, missing := task.goal.start magnitudes }
  let count := planeCount highest lowest
  if count ≠ 0 ∧ task.goal.met s.missing then (none, s)
  else conductPlanes task.dims (reply task) lowest count (Progress.initial task.dims) s

end Encoder

def Tape.writeAll (memory : Memory) : List Bool → Tape.Update Unit
  | [] => pure ()
  | b :: rest => do
    writeBit memory b
    writeAll memory rest

def encode {α κ : Type} [Magnitude α] (memory : Memory) (task : Encoder.Task α κ)
    (magnitudes : Array α) : Tape.Update Outline := do
  task.dims.validate
  if magnitudes.size ≠ task.dims.volume ∨ task.signs.size ≠ task.dims.volume then
    throw (.invalidArgument (.magnitudeCount task.dims magnitudes.size task.signs.size))
  modify Tape.rewind
  let _ ← IndexSet.allocate memory task.dims.volume
  let highest := topPlane magnitudes
  let (_, final) := Encoder.run task highest.toInt (lowestPlane magnitudes).toInt magnitudes
  Tape.writeAll memory final.bits.reverse
  modify Tape.commit
  pure { dims := task.dims, topPlane := highest, bitCount := final.bitCount }

end VolumeCodec
