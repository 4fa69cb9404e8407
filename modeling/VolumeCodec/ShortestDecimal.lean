namespace VolumeCodec

/-- The reals that round to a positive double. In units of `2 ^ exponent` the double itself is
`center` and the interval runs from `low` to `high`; `closed` tells whether its ends belong to it. -/
structure RoundingInterval where
  low : Nat
  center : Nat
  high : Nat
  exponent : Int
  closed : Bool

/-- Reads the interval off the exponent field and the fraction field. A power of two has its lower
neighbour at half the distance of its upper one. -/
def RoundingInterval.ofFields (exponentField fraction : Nat) : RoundingInterval :=
  let significand := if exponentField = 0 then fraction else fraction + (1 <<< 52)
  let step : Int := if exponentField = 0 then -1074 else (exponentField : Int) - 1075
  let below := if fraction = 0 ∧ 1 < exponentField then 1 else 2
  ⟨4 * significand - below, 4 * significand, 4 * significand + 2, step - 2, significand % 2 == 0⟩

structure Decimal where
  digits : Nat
  exponent : Int

/-- `a * 2 ^ e` in units of `10 ^ k`, as numerator and denominator. -/
def gridRatio (a : Nat) (e k : Int) : Nat × Nat :=
  (a <<< e.toNat * Nat.pow 10 (-k).toNat, Nat.pow 10 k.toNat <<< (-e).toNat)

def RoundingInterval.holds (r : RoundingInterval) (k : Int) (digits : Nat) : Bool :=
  let (low, d) := gridRatio r.low r.exponent k
  let (high, _) := gridRatio r.high r.exponent k
  if r.closed then decide (low ≤ digits * d ∧ digits * d ≤ high)
  else decide (low < digits * d ∧ digits * d < high)

/-- The point of the grid of multiples of `10 ^ k` nearest to the center, if one of the two points
around the center lies in the interval. A point half way goes up. -/
def RoundingInterval.nearestOnGrid (r : RoundingInterval) (k : Int) : Option Nat :=
  let (n, d) := gridRatio r.center r.exponent k
  let down := n / d
  match r.holds k down, r.holds k (down + 1) with
  | false, false => none
  | true, false => some down
  | false, true => some (down + 1)
  | true, true => some (if 2 * (n % d) < d then down else down + 1)

def RoundingInterval.search (r : RoundingInterval) (k : Int) : Nat → Decimal
  | 0 => ⟨0, k⟩
  | n + 1 =>
    match r.nearestOnGrid (k + n) with
    | some digits => ⟨digits, k + n⟩
    | none => r.search k n

/-- The decimal with the fewest digits that reads back as the double, and of those the nearest. -/
def RoundingInterval.shortest (r : RoundingInterval) : Decimal :=
  r.search (-345) 656

def Decimal.positional (d : Decimal) : String :=
  let text := Nat.toDigits 10 d.digits
  if 0 ≤ d.exponent then
    String.ofList (text ++ List.replicate d.exponent.toNat '0')
  else
    let places := d.exponent.natAbs
    let padded := List.replicate (places + 1 - text.length) '0' ++ text
    let whole := padded.length - places
    String.ofList (padded.take whole ++ '.' :: padded.drop whole)

def floatText (x : Float) : String :=
  let bits := x.toBits.toNat
  let exponentField := bits >>> 52 % (1 <<< 11)
  let fraction := bits % (1 <<< 52)
  let sign := if 1 <<< 63 ≤ bits then "-" else ""
  if exponentField = 2047 then
    if fraction = 0 then sign ++ "inf" else "NaN"
  else if exponentField = 0 ∧ fraction = 0 then sign ++ "0"
  else sign ++ (RoundingInterval.ofFields exponentField fraction).shortest.positional

end VolumeCodec
