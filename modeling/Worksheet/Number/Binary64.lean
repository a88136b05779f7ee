import Worksheet.Arithmetic

/-!
Binary floating-point numbers of 64 bits, held as their bits and read exactly: the magnitude of a
finite number is a whole multiple of `2 ^ (-1074)`, so every question about its value is one about
natural numbers.
-/

namespace Worksheet

/-- A floating-point number: sign, 11 bits of exponent, 52 bits of fraction. -/
structure Binary64 where
  bits : UInt64
  deriving DecidableEq, Repr, Inhabited

namespace Binary64

/-- What the sign bit counts, `2 ^ 63`. -/
def signWeight : Nat :=
  0x8000000000000000

/-- The count of fractions, `2 ^ 52`, and so what the lowest bit of the exponent counts. -/
def fractionCount : Nat :=
  0x10000000000000

def isNegative (x : Binary64) : Bool :=
  signWeight ≤ x.bits.toNat

/-- The bits below the sign. They count the magnitudes upward from zero. -/
def rank (x : Binary64) : Nat :=
  x.bits.toNat % signWeight

/-- The rank of infinity; below it are the finite numbers, above it is no number. -/
def infinityRank : Nat :=
  2047 * fractionCount

def isFinite (x : Binary64) : Bool :=
  x.rank < infinityRank

def isInfinite (x : Binary64) : Bool :=
  x.rank == infinityRank

def isNaN (x : Binary64) : Bool :=
  infinityRank < x.rank

def ofRank (negative : Bool) (rank : Nat) : Binary64 :=
  { bits := UInt64.ofNat (rank + if negative then signWeight else 0) }

/-- Not a number. -/
def nan (negative : Bool) : Binary64 :=
  ofRank negative (infinityRank + fractionCount / 2)

/-- The magnitude at a rank, in units of `2 ^ (-1074)`. -/
def unitsOfRank (rank : Nat) : Nat :=
  let exponent := rank / fractionCount
  let fraction := rank % fractionCount
  if exponent = 0 then fraction else (fractionCount + fraction) * Nat.pow 2 (exponent - 1)

/-- The number of units that make one. -/
def unitsPerOne : Nat :=
  Nat.pow 2 1074

/-- The magnitude of a finite number, in units of `2 ^ (-1074)`. -/
def units (x : Binary64) : Nat :=
  unitsOfRank x.rank

/-- The magnitude, if it is a whole number. -/
def whole? (x : Binary64) : Option Nat :=
  if x.isFinite && x.units % unitsPerOne == 0 then some (x.units / unitsPerOne) else none

/-- The 64-bit integer that the number equals, if there is one. -/
def toInt64? (x : Binary64) : Option Int64 :=
  x.whole?.bind fun n => Worksheet.toInt64? (if x.isNegative then -n else n)

end Binary64

end Worksheet
