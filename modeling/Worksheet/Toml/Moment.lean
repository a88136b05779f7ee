import Worksheet.Text
import Worksheet.Toml.Reader

/-!
Dates and times of day, each alone or both together, the latter perhaps with an offset.
-/

namespace Worksheet.Toml

open Reader

/-- A number of exactly `n` digits within bounds. -/
def fixedDigits (n low high : Nat) : Reader Nat := do
  let ds ← (List.range n).mapM fun _ => satisfying Char.isDigit
  let value := Worksheet.Text.ofDigits ds
  ensure (low ≤ value && value ≤ high)
  return value

def isLeapYear (year : Nat) : Bool :=
  year % 4 == 0 && (year % 100 != 0 || year % 400 == 0)

def daysInMonth (year month : Nat) : Nat :=
  if month == 2 then (if isLeapYear year then 29 else 28)
  else if month == 4 || month == 6 || month == 9 || month == 11 then 30
  else 31

def date : Reader Unit := do
  let year ← fixedDigits 4 0 9999
  char '-'
  let month ← fixedDigits 2 1 12
  char '-'
  discard (fixedDigits 2 1 (daysInMonth year month))

def hourAndMinute : Reader Unit := do
  discard (fixedDigits 2 0 23)
  char ':'
  discard (fixedDigits 2 0 59)

def secondFraction : Reader Unit := do
  char '.'
  discard (satisfying Char.isDigit)
  skipWhile Char.isDigit

/-- A time of day; the last minute of a day may have a leap second. -/
def time : Reader Unit := do
  hourAndMinute
  char ':'
  discard (fixedDigits 2 0 60)
  discard (attempt secondFraction)

def offset : Reader Unit := do
  let c ← satisfying fun c => c == 'Z' || c == 'z' || c == '+' || c == '-'
  if c == '+' || c == '-' then hourAndMinute

def timeAfterDate : Reader Unit := do
  discard (satisfying fun c => c == 'T' || c == 't' || c == ' ')
  time
  discard (attempt offset)

/-- The text of a date, of a time, or of both. -/
def moment : Reader (List Char) :=
  textOf ((do date; discard (attempt timeAfterDate)) <|> time)

end Worksheet.Toml
