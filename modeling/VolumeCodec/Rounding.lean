import VolumeCodec.Magnitude

namespace VolumeCodec

/-- `n / 2 ^ k` to the nearest integer; of two equally near the even one. -/
def halfEven (n k : Nat) : Nat :=
  let unit := 1 <<< k
  let down := n / unit
  let rest := 2 * (n % unit)
  if rest < unit ∨ (rest = unit ∧ down % 2 = 0) then down else down + 1

/-- The integer nearest to a double, of two equally near the even one. A double of at least
`2 ^ 52` is an integer already; infinities and NaNs stay, and so does the sign of zero. -/
def roundToEven (x : Float) : Float :=
  let field := Real64.exponentField x
  if 1075 ≤ field then x
  else
    let significand := if field = 0 then Real64.fraction x else (1 <<< 52) + Real64.fraction x
    let rounded := Real64.ofNat (halfEven significand (1075 - max field 1))
    if 1 <<< 63 ≤ x.toBits.toNat then -rounded else rounded

end VolumeCodec
