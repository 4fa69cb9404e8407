import VolumeCodec.Fault
import VolumeCodec.LittleEndian

namespace VolumeCodec

def maxElements : Nat := 1 <<< 36

/-- Reads from the front of a byte sequence and leaves the rest. -/
abbrev Reader (α : Type) := Action (List UInt8) α

namespace Reader

/-- The next `n` bytes. If there are fewer, they are used up all the same. -/
def bytes (n : Nat) : Reader (List UInt8) := do
  let rest ← get
  set (rest.drop n)
  if rest.length < n then
    throw (.badHeader .short)
  pure (rest.take n)

def nat (n : Nat) : Reader Nat :=
  natOfBytes <$> bytes n

def uint8 : Reader UInt8 :=
  UInt8.ofNat <$> nat 1

def uint64 : Reader UInt64 :=
  UInt64.ofNat <$> nat 8

def int32 : Reader Int32 :=
  (fun n => (UInt32.ofNat n).toInt32) <$> nat 4

def extents : Reader Extents := do
  let x ← nat 8
  let y ← nat 8
  let z ← nat 8
  let dims : Extents := ⟨x, y, z⟩
  if let .error _ := dims.validate then
    throw (.badHeader (.dimensions dims))
  if maxElements < dims.volume then
    throw (.badHeader (.tooManyValues dims maxElements))
  pure dims

/-- The fault of a block with fewer bytes than it declares. To tell of it the bits of the declared
bytes are counted, and from `2 ^ 61` bytes on a machine word does not hold their number. -/
def shortBlock (found declared : Nat) : Fault :=
  if 8 * declared < 1 <<< 64 then .truncated (8 * found) (8 * declared) else .overflow

def block : Reader (List UInt8) := do
  let length ← uint64
  let rest ← get
  set (rest.drop length.toNat)
  if rest.length < length.toNat then
    throw (shortBlock rest.length length.toNat)
  pure (rest.take length.toNat)

end Reader

def Reader.from {α : Type} (r : Reader α) (bytes : List UInt8) : Except Fault α × List UInt8 :=
  r.run.run bytes

def bytesOfUInt64 (n : UInt64) : List UInt8 :=
  bytesOfNat 8 n.toNat

def bytesOfInt32 (n : Int32) : List UInt8 :=
  bytesOfNat 4 n.toUInt32.toNat

def bytesOfExtents (e : Extents) : List UInt8 :=
  e.toList.flatMap (bytesOfNat 8)

def bytesOfBlock (bytes : List UInt8) : List UInt8 :=
  bytesOfNat 8 bytes.length ++ bytes

end VolumeCodec
