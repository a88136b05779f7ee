import Worksheet.Number.Nearest

/-!
Floating-point numbers as text. Reading rounds to the nearest number. Writing takes the fewest
digits that read back as the same number, of those the nearest to it, and of two equally near the
larger; the digits stand around a point and never before an exponent.

A cell shows whole numbers below `10 ^ 15` without a fraction and all others rounded to a fixed
count of places, the exact value deciding and a tie going to the even digit.
-/

namespace Worksheet.Binary64

def withSign (negative : Bool) (s : List Char) : List Char :=
  if negative then '-' :: s else s

/-- The magnitude that a text without a sign denotes: `inf`, `infinity` and `nan` in any case, or
a decimal number. -/
def parseMagnitude? (negative : Bool) (s : List Char) : Option Binary64 :=
  let word := String.ofList (s.map Char.toLower)
  if word = "inf" ∨ word = "infinity" then some (ofRank negative infinityRank)
  else if word = "nan" then some (nan negative)
  else (Decimal.parse? s).map (Decimal.toBinary64 negative)

/-- Reads a number, perhaps with a sign before it. -/
def parse? (s : List Char) : Option Binary64 :=
  match s with
  | '-' :: r => parseMagnitude? true r
  | '+' :: r => parseMagnitude? false r
  | r => parseMagnitude? false r

/-- The places with which a multiple of `2 ^ (-1074)` is written exactly. -/
def exactPlaces : Nat := 1074

/-- The digits of the exact value, of which the last `exactPlaces` stand behind the point. -/
def exactCoefficient (x : Binary64) : Nat :=
  x.units * Nat.pow 5 exactPlaces

/-- The decimal with `c` in front of `dropped` digits that are given up, less needless zeros. -/
def truncated (dropped c : Nat) : Nat × Nat :=
  Decimal.dropZeros (c * Nat.pow 10 (dropped - exactPlaces)) (exactPlaces - dropped)

def readsBack (x : Binary64) (d : Nat × Nat) : Bool :=
  (Decimal.ofPlaces d.1 d.2).nearestRank == x.rank

/-- The better neighbour of the exact value, with `dropped` digits given up, that reads back. -/
def neighbour? (x : Binary64) (dropped : Nat) : Option (Nat × Nat) :=
  let n := x.exactCoefficient
  let step := Nat.pow 10 dropped
  let low := truncated dropped (n / step)
  let high := truncated dropped (n / step + 1)
  let nearestFirst := if 2 * (n % step) < step then [low, high] else [high, low]
  nearestFirst.find? (readsBack x)

/-- No number needs more digits than this to be told from its neighbours. -/
def digitLimit : Nat := 17

/-- The coefficient and the places of the shortest decimal that reads back. -/
def shortest (x : Binary64) : Nat × Nat :=
  let length := (Text.digits x.exactCoefficient).length
  ((List.range digitLimit).findSome? fun k => x.neighbour? (length - (k + 1))).getD
    (Decimal.dropZeros x.exactCoefficient exactPlaces)

/-- Writes a number so that it can be read back. -/
def toText (x : Binary64) : List Char :=
  if x.isNaN then "NaN".toList
  else if x.isInfinite then withSign x.isNegative "inf".toList
  else
    let (coefficient, places) := x.shortest
    withSign x.isNegative (Decimal.positional coefficient places)

/-- The natural number nearest to `num / den`; of two equally near, the even one. -/
def roundHalfEven (num den : Nat) : Nat :=
  let q := num / den
  let twice := 2 * (num % den)
  if twice < den then q else if den < twice then q + 1 else q + q % 2

/-- The digits of the magnitude rounded to the given places. -/
def fixed (x : Binary64) (places : Nat) : List Char :=
  Decimal.positional (roundHalfEven (x.units * Nat.pow 10 places) unitsPerOne) places

/-- Whole magnitudes from here on are shown with places like all other numbers. -/
def wholeLimit : Nat := 1000000000000000

/-- The places that the magnitude of a finite number is shown with. -/
def placesShown (x : Binary64) (decimals : Nat) : Nat :=
  match x.whole? with
  | some n => if n < wholeLimit then 0 else decimals
  | none => decimals

/-- No number can be written with more places than this. -/
def maxPlaces : Nat := 65535

/-- The text that a cell with this number shows; there is none if it has too many places. -/
def display (x : Binary64) (decimals : Nat) : Option String :=
  if x.isNaN then some "#NAN!"
  else if x.isInfinite then some "#INF!"
  else
    let places := x.placesShown decimals
    if places ≤ maxPlaces then some (String.ofList (withSign x.isNegative (x.fixed places)))
    else none

end Worksheet.Binary64
