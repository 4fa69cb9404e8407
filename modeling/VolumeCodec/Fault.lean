import VolumeCodec.Axes
import VolumeCodec.QuotedText
import VolumeCodec.ShortestDecimal

namespace VolumeCodec

inductive Misuse
  | dimensions (dims : Extents)
  | coefficientCount (count : Nat) (dims : Extents)
  | nonFiniteCoefficient (index : Nat)
  | magnitudeCount (dims : Extents) (magnitudes signs : Nat)
  | valueCount (count : Nat) (dims : Extents)
  | tooManyValues (count limit : Nat)
  | nonFiniteValue (index : Nat)
  | quality (decibels : Float)
  | pointwiseTolerance (tolerance : Float)
  | tolerance (tolerance : Float)
  | emptyArray
  | correctionPosition (position length : Nat)
  | correctionSmall (error : Float) (position : Nat) (tolerance : Float)
  | correctionLarge (error : Float) (position : Nat) (tolerance : Float)
  | correctionRepeated (position : Nat)
  | tileExtents (extents : Extents)
  | notTiled
  | other (text : String)

inductive Corruption
  | short
  | magic (found : List UInt8)
  | version (found : UInt8)
  | dimensions (dims : Extents)
  | tooManyValues (dims : Extents) (limit : Nat)
  | volumeScale (mean step : Float)
  | widthTag (tag : UInt8)
  | correctionLength (length : Nat)
  | correctionLengthMismatch (length values : Nat)
  | correctionTolerance (tolerance : Float)
  | topPlane (plane : Int)
  | tileExtents (extents : Extents)
  | tileCount (stored expected : Nat)
  | tileShape (found expected : Extents)
  | other (text : String)

inductive Inconsistency
  | bitCount (read declared : Nat)
  | other (text : String)

inductive Fault
  | invalidArgument (why : Misuse)
  | conflictingStops
  | allocation (bytes : Nat)
  | truncated (available required : Nat)
  | badHeader (why : Corruption)
  | tooNarrow (planes : Int) (width : Nat)
  | inconsistent (why : Inconsistency)
  /-- A number does not fit the machine integer that it is computed in. Nothing is reported then: the
  computation stops. -/
  | overflow

/-- A step on a state. When it fails, the state is as the failure left it. -/
abbrev Action (σ α : Type) := ExceptT Fault (StateM σ) α

def Axes.text (e : Extents) : String :=
  "[" ++ toString e.x ++ ", " ++ toString e.y ++ ", " ++ toString e.z ++ "]"

def Misuse.message : Misuse → String
  | dimensions dims => s!"invalid dimensions {dims.text}"
  | coefficientCount n dims => s!"{n} coefficients do not fill dimensions {dims.text}"
  | nonFiniteCoefficient i => s!"non-finite coefficient at index {i}"
  | magnitudeCount dims m s =>
    s!"expected {dims.volume} coefficients for {dims.text}, got {m} magnitudes and {s} signs"
  | valueCount n dims => s!"{n} values do not fill dimensions {dims.text}"
  | tooManyValues n limit => s!"{n} values exceed the container limit of {limit}"
  | nonFiniteValue i => s!"non-finite value at index {i}"
  | quality decibels => s!"target PSNR must be finite, got {floatText decibels}"
  | pointwiseTolerance t =>
    s!"point-wise tolerance must be positive and finite, got {floatText t}"
  | tolerance t => s!"tolerance must be positive and finite, got {floatText t}"
  | emptyArray => "outlier array length is zero"
  | correctionPosition p n => s!"outlier position {p} outside length {n}"
  | correctionSmall e p t =>
    s!"outlier error {floatText e} at {p} is not finite or below tolerance {floatText t}"
  | correctionLarge e p t =>
    s!"outlier error {floatText e} at {p} is too large for tolerance {floatText t}"
  | correctionRepeated p => s!"duplicate outlier at position {p}"
  | tileExtents e => s!"chunk dimensions {e.text} contain zero"
  | notTiled => "container is not chunked"
  | other text => text

def Corruption.message : Corruption → String
  | short => "unexpected end of header"
  | magic found => s!"bad magic {quotedText (lossyText found)}"
  | version found => s!"unsupported version {found.toNat}"
  | dimensions dims => s!"invalid dimensions {dims.text}"
  | tooManyValues dims limit => s!"dimensions {dims.text} exceed {limit} values"
  | volumeScale mean step =>
    s!"invalid mean {floatText mean} or quantization step {floatText step}"
  | widthTag tag => s!"unknown integer width tag {tag.toNat}"
  | correctionLength n => s!"outlier length {n} out of range"
  | correctionLengthMismatch n values => s!"outlier length {n} does not match {values} values"
  | correctionTolerance t => s!"invalid outlier tolerance {floatText t}"
  | topPlane p => s!"max_coefficient_bits {p} out of range"
  | tileExtents e => s!"invalid chunk dimensions {e.text}"
  | tileCount stored expected => s!"{stored} chunks stored, {expected} expected"
  | tileShape found expected =>
    s!"chunk has dimensions {found.text}, expected {expected.text}"
  | other text => text

def Inconsistency.message : Inconsistency → String
  | bitCount read declared => s!"stream finished after {read} bits but declares {declared}"
  | other text => text

namespace Fault

def message : Fault → String
  | invalidArgument why => "Invalid argument: " ++ why.message
  | conflictingStops =>
    "Conflicting stop conditions: bit budget and target PSNR are both set"
  | allocation bytes => s!"Allocation of {bytes} bytes failed"
  | truncated available required =>
    s!"Truncated stream: {available} bits available, {required} required"
  | badHeader why => "Corrupt header: " ++ why.message
  | tooNarrow planes width =>
    s!"Magnitude width too narrow: {planes} bitplanes exceed a {width}-bit type"
  | inconsistent why => "Validation error: " ++ why.message
  | overflow => "arithmetic overflow"

/-- Faults that come from the bytes being decoded and not from the caller. -/
def comesFromData : Fault → Bool
  | truncated .. | badHeader _ | tooNarrow .. | inconsistent _ => true
  | _ => false

end Fault

/-- Dimensions are usable when no extent is zero and a machine word counts the elements. -/
def Axes.validate (dims : Extents) : Except Fault Unit :=
  if dims.isFlat ∨ 1 <<< 64 ≤ dims.volume then
    .error (.invalidArgument (.dimensions dims))
  else .ok ()

end VolumeCodec
