import Worksheet.Number.Text
import Worksheet.Toml.Item
import Worksheet.Toml.Text

/-!
Integers and floating-point numbers. An underscore may stand between two digits. Integers must be
in the range of 64 bits and may be written to the bases 16, 8 and 2.
-/

namespace Worksheet.Toml

open Reader

def hasDoubleUnderscore : List Char → Bool
  | '_' :: '_' :: _ => true
  | _ :: s => hasDoubleUnderscore s
  | [] => false

/-- Digits, perhaps with single underscores between them, which are left out. -/
def digitRun (isDigit : Char → Bool) : Reader (List Char) := do
  let run ← takeWhile fun c => isDigit c || c == '_'
  ensure (!run.isEmpty && run.head? != some '_' && run.getLast? != some '_' &&
    !hasDoubleUnderscore run)
  return run.filter (· != '_')

/-- The integer, if it is in range. -/
def boundedInteger (n : Int) : Reader Int64 := fun s =>
  (toInt64? n).map (·, s)

/-- An integer to another base, after the mark of the base. -/
def basedInteger (mark : String) (base : Nat) (isDigit : Char → Bool) : Reader Int64 := do
  word mark
  let ds ← digitRun isDigit
  boundedInteger (ds.foldl (fun n c => base * n + hexValue c) 0 : Nat)

def isOctalDigit (c : Char) : Bool :=
  '0' ≤ c && c ≤ '7'

def isBinaryDigit (c : Char) : Bool :=
  c == '0' || c == '1'

def sign : Reader (List Char) := do
  return (← attempt (satisfying fun c => c == '+' || c == '-')).toList

/-- A point and the digits that must follow it; nothing if there is no point. -/
def fraction : Reader (List Char) := do
  if ← skip '.' then return '.' :: (← digitRun Char.isDigit) else return []

/-- The mark of an exponent and the digits that must follow it; nothing if there is no mark. -/
def exponent : Reader (List Char) := do
  match ← attempt (satisfying fun c => c == 'e' || c == 'E') with
  | some mark => return mark :: ((← sign) ++ (← digitRun Char.isDigit))
  | none => return []

/-- The number that the text denotes; one that is too large is refused. -/
def boundedFloat (s : List Char) : Reader Binary64 := fun rest =>
  match Binary64.parse? s with
  | some x => if x.isInfinite && !x.isNegative then none else some (x, rest)
  | none => none

/-- `inf` or `nan`, perhaps with a sign. -/
def specialFloat : Reader Binary64 := do
  let s ← sign
  let negative := s == ['-']
  if ← startsWith "inf" then
    word "inf"
    return .ofRank negative Binary64.infinityRank
  else
    word "nan"
    return .nan negative

/-- A number with neither a mark of a base nor needless zeros before it. -/
def decimalNumber : Reader Item := do
  let s ← sign
  let whole ← digitRun Char.isDigit
  ensure (whole.length == 1 || whole.head? != some '0')
  let frac ← fraction
  let exp ← exponent
  if frac.isEmpty && exp.isEmpty then
    let n : Int := Text.ofDigits whole
    return .integer (← boundedInteger (if s == ['-'] then -n else n))
  else
    return .float (← boundedFloat (s ++ whole ++ frac ++ exp))

def number : Reader Item := do
  if ← startsWith "0x" then return .integer (← basedInteger "0x" 16 isHexDigit)
  else if ← startsWith "0o" then return .integer (← basedInteger "0o" 8 isOctalDigit)
  else if ← startsWith "0b" then return .integer (← basedInteger "0b" 2 isBinaryDigit)
  else decimalNumber <|> (.float <$> specialFloat)

end Worksheet.Toml
