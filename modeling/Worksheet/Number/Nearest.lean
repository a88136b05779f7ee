import Worksheet.Number.Binary64
import Worksheet.Number.Decimal

/-!
Rounding to the nearest floating-point number; of two that are equally near, the one with the even
last bit is taken. What is nearer to the next power of two than to the largest finite number
becomes infinite.
-/

namespace Worksheet

namespace Binary64

/-- The rank of the largest magnitude of at most `n` units. -/
def floorRank (n : Nat) : Nat :=
  let shift := n.log2 - 52
  shift * fractionCount + n / Nat.pow 2 shift

/-- The rank of the magnitude nearest to `num / den` units. -/
def nearestRank (num den : Nat) : Nat :=
  let low := floorRank (num / den)
  let middle := unitsOfRank low + unitsOfRank (low + 1)
  let rank :=
    if 2 * num < middle * den then low
    else if middle * den < 2 * num then low + 1
    else low + low % 2
  min rank infinityRank

end Binary64

namespace Decimal

/-- The rank of the magnitude nearest to the number. Beyond `10 ^ 400` all is infinite and below
`10 ^ (-400)` all is zero, so exponents of any size cost nothing. -/
def nearestRank (d : Decimal) : Nat :=
  if d.coefficient = 0 then 0
  else if 400 < d.exponent then Binary64.infinityRank
  else if d.exponent + d.coefficient.log2 + 1 < -400 then 0
  else
    Binary64.nearestRank (d.coefficient * Nat.pow 10 d.exponent.toNat * Binary64.unitsPerOne)
      (Nat.pow 10 (-d.exponent).toNat)

/-- The floating-point number nearest to the decimal, or to its negative. -/
def toBinary64 (negative : Bool) (d : Decimal) : Binary64 :=
  Binary64.ofRank negative d.nearestRank

end Decimal

end Worksheet
