namespace VolumeCodec

/-- Non-negative numbers that can be coded plane by plane, each plane having as its threshold a
power of two. -/
class Magnitude (α : Type) where
  zero : α
  /-- The threshold of a plane that the type can hold. -/
  pow2 : Int → α
  /-- Is the first number at least the second? -/
  reaches : α → α → Bool
  add : α → α → α
  sub : α → α → α
  /-- The plane of the highest bit; of zero, the least 32-bit number. -/
  topPlane : α → Int32
  /-- The plane of the lowest bit; of zero, the greatest 32-bit number. -/
  finestPlane : α → Int32
  toFloat : α → Float
  /-- The width of a type of fixed-width integers. -/
  width? : Option Nat
  /-- The bytes that one number takes. -/
  bytes : Nat
  /-- The lowest plane that the type can hold. -/
  minPlane : Int
  /-- The highest plane that the type can hold. -/
  maxPlane : Int

/-- The highest plane of some numbers; if all are zero, the least 32-bit number. -/
def topPlane {α : Type} [Magnitude α] (values : Array α) : Int32 :=
  values.foldl (fun top v => max top (Magnitude.topPlane v)) Int32.minValue

/-- The lowest plane that coding without loss reaches. It is never above plane zero. -/
def lowestPlane {α : Type} [Magnitude α] (values : Array α) : Int32 :=
  min (values.foldl (fun low v => min low (Magnitude.finestPlane v)) Int32.maxValue) 0

def lowestBit (n : Nat) : Nat :=
  ((List.range (n.log2 + 1)).find? n.testBit).getD 0

instance BitVec.instMagnitude {n : Nat} : Magnitude (BitVec n) where
  zero := 0#n
  pow2 plane := BitVec.twoPow n plane.toNat
  reaches a b := decide (b ≤ a)
  add a b := a + b
  sub a b := a - b
  topPlane a := if a = 0#n then Int32.minValue else Int32.ofNat a.toNat.log2
  finestPlane a := if a = 0#n then Int32.maxValue else Int32.ofNat (lowestBit a.toNat)
  toFloat a := Float.ofNat a.toNat
  width? := some n
  bytes := n / 8
  minPlane := 0
  maxPlane := n - 1

namespace Real64

/-- The field of a double that holds its exponent, biased by 1023; zero marks a subnormal. -/
def exponentField (x : Float) : Nat :=
  x.toBits.toNat >>> 52 % (1 <<< 11)

def fraction (x : Float) : Nat :=
  x.toBits.toNat % (1 <<< 52)

def isPositiveFinite (x : Float) : Bool :=
  !(x ≤ 0) && x.isFinite

/-- The double nearest to a number below `2 ^ 64`, of two equally near the even one. -/
def ofNat (n : Nat) : Float :=
  (UInt64.ofNat n).toFloat

/-- `2 ^ plane`, for planes from -1074 to 1023. -/
def pow2 (plane : Int) : Float :=
  if -1023 < plane then Float.ofBits (UInt64.ofInt (plane + 1023) <<< 52)
  else Float.ofBits (1 <<< UInt64.ofInt (plane + 1074))

def topPlane (x : Float) : Int32 :=
  if isPositiveFinite x then
    if exponentField x = 0 then Int32.ofInt ((fraction x).log2 - 1074)
    else Int32.ofInt (exponentField x - 1023)
  else Int32.minValue

def finestPlane (x : Float) : Int32 :=
  if isPositiveFinite x then
    if exponentField x = 0 then Int32.ofInt (lowestBit (fraction x) - 1074)
    else Int32.ofInt (lowestBit ((1 <<< 52) + fraction x) + exponentField x - 1075)
  else Int32.maxValue

end Real64

instance Float.instMagnitude : Magnitude Float where
  zero := 0
  pow2 := Real64.pow2
  reaches a b := decide (b ≤ a)
  add a b := a + b
  sub a b := a - b
  topPlane := Real64.topPlane
  finestPlane := Real64.finestPlane
  toFloat x := x
  width? := none
  bytes := 8
  minPlane := -1074
  maxPlane := 1023

end VolumeCodec
