import Worksheet.Text

/-!
Decimal numbers: how they are read, with or without a point and an exponent, and how they are
written with all their digits around a point.
-/

namespace Worksheet

/-- The number `coefficient * 10 ^ exponent`. -/
structure Decimal where
  coefficient : Nat
  exponent : Int
  deriving DecidableEq, Repr

namespace Decimal

/-- The number with the given count of digits behind the point. -/
def ofPlaces (coefficient places : Nat) : Decimal :=
  { coefficient, exponent := -places }

/-- An exponent: digits, perhaps with a sign before them. -/
def parseExponent? (s : List Char) : Option Int :=
  match s with
  | '-' :: ds => if Text.isNumeral ds then some (-(Text.ofDigits ds : Int)) else none
  | '+' :: ds => if Text.isNumeral ds then some (Text.ofDigits ds) else none
  | ds => if Text.isNumeral ds then some (Text.ofDigits ds) else none

/-- The digits behind a point, if there is one, and what follows them. -/
def splitFraction (s : List Char) : List Char × List Char :=
  match s with
  | '.' :: r => (r.takeWhile Char.isDigit, r.dropWhile Char.isDigit)
  | r => ([], r)

/-- The exponent at the end of a numeral; there need not be one. -/
def splitExponent? (s : List Char) : Option Int :=
  match s with
  | [] => some 0
  | c :: r => if c == 'e' || c == 'E' then parseExponent? r else none

/-- Reads digits, perhaps with a point among, before or behind them, perhaps with an exponent. -/
def parse? (s : List Char) : Option Decimal :=
  let whole := s.takeWhile Char.isDigit
  let (fraction, rest) := splitFraction (s.dropWhile Char.isDigit)
  if whole.isEmpty && fraction.isEmpty then
    none
  else
    (splitExponent? rest).map fun e =>
      { coefficient := Text.ofDigits (whole ++ fraction), exponent := e - fraction.length }

/-- Writes `coefficient` with a point before its last `places` digits, at least one digit before
the point, and no point if there are no places. -/
def positional (coefficient places : Nat) : List Char :=
  let ds := Text.digits coefficient
  if places = 0 then
    ds
  else
    let padded := List.replicate (places + 1 - ds.length) '0' ++ ds
    let cut := padded.length - places
    padded.take cut ++ '.' :: padded.drop cut

/-- Removes the zeros at the end of the places; the number stays the same. -/
def dropZeros (coefficient : Nat) : Nat → Nat × Nat
  | 0 => (coefficient, 0)
  | places + 1 =>
    if coefficient % 10 = 0 then dropZeros (coefficient / 10) places else (coefficient, places + 1)

end Decimal

end Worksheet
