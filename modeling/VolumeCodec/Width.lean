import VolumeCodec.Fault

namespace VolumeCodec

inductive Width
  | w8
  | w16
  | w32
  | w64
  deriving DecidableEq, Repr

namespace Width

def bits : Width → Nat
  | w8 => 8
  | w16 => 16
  | w32 => 32
  | w64 => 64

def ofMax (max : Nat) : Width :=
  if max < 1 <<< 8 then w8 else if max < 1 <<< 16 then w16 else if max < 1 <<< 32 then w32 else w64

def tag : Width → UInt8
  | w8 => 0
  | w16 => 1
  | w32 => 2
  | w64 => 3

def ofTag (tag : UInt8) : Except Fault Width :=
  if tag = 0 then .ok w8
  else if tag = 1 then .ok w16
  else if tag = 2 then .ok w32
  else if tag = 3 then .ok w64
  else .error (.badHeader (.widthTag tag))

end Width

structure Packed where
  width : Width
  values : Array (BitVec width.bits)

namespace Packed

/-- Keeps numbers at a width. What does not fit is cut off at the high end. -/
def ofNats (width : Width) (numbers : Array Nat) : Packed :=
  ⟨width, numbers.map (BitVec.ofNat width.bits)⟩

def toNats (p : Packed) : Array Nat :=
  p.values.map BitVec.toNat

def size (p : Packed) : Nat :=
  p.values.size

def isEmpty (p : Packed) : Bool :=
  p.values.isEmpty

end Packed

end VolumeCodec
