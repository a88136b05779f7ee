import Worksheet.Toml.Reader

/-!
Texts in quotes: basic texts, in which a backslash begins an escape, and literal texts, in which
it does not; each on one line or, between three quotes, on several.
-/

namespace Worksheet.Toml

open Reader

def isHexDigit (c : Char) : Bool :=
  c.isDigit || ('a' ≤ c && c ≤ 'f') || ('A' ≤ c && c ≤ 'F')

def hexValue (c : Char) : Nat :=
  if c.isDigit then c.toNat - '0'.toNat else c.toLower.toNat - 'a'.toNat + 10

/-- The character whose number is written with exactly `n` hexadecimal digits. -/
def hexEscape (n : Nat) : Reader Char := do
  let value ← (List.range n).foldlM
    (fun value _ => do return 16 * value + hexValue (← satisfying isHexDigit)) 0
  ensure (decide value.isValidChar)
  return Char.ofNat value

/-- A backslash and what it stands for. -/
def escape : Reader Char := do
  char '\\'
  match ← satisfying fun _ => true with
  | 'b' => return '\x08'
  | 't' => return '\t'
  | 'n' => return '\n'
  | 'f' => return '\x0c'
  | 'r' => return '\r'
  | '"' => return '"'
  | '\\' => return '\\'
  | 'u' => hexEscape 4
  | 'U' => hexEscape 8
  | _ => failure

def isBasic (c : Char) : Bool :=
  isPlain c && c != '"' && c != '\\'

def isLiteral (c : Char) : Bool :=
  isPlain c && c != '\''

/-- A text on one line. -/
def singleLine (quote : Char) (part : Reader Char) : Reader String := do
  char quote
  let s ← many part
  char quote
  return String.ofList s

/-- The text up to the closing quotes. One or two quotes belong to it; a run of three to five ends
it, and what is more than three of those still belongs to it. -/
def multiLineBody (quote : Char) (part : Reader (List Char)) : Reader (List Char) :=
  loop
    (fun (taken : List (List Char)) => do
      let quotes ← takeWhile (· == quote)
      if quotes.length < 3 then
        return .again ((← part) :: quotes :: taken)
      else
        ensure (quotes.length ≤ 5)
        return .stop (quotes.drop 3 :: taken).reverse.flatten)
    []

/-- A text on several lines; an end of line right after the opening quotes is not part of it. -/
def multiLine (quote : Char) (part : Reader (List Char)) : Reader String := do
  word (String.ofList [quote, quote, quote])
  let _ ← attempt newline
  return String.ofList (← multiLineBody quote part)

/-- A backslash at the end of a line, with all blanks and ends of lines after it. -/
def lineContinuation : Reader (List Char) := do
  char '\\'
  blanks
  newline
  let _ ← many (newline <|> discard (satisfying isBlank))
  return []

def lineBreak : Reader (List Char) := do
  newline
  return ['\n']

def basicPart : Reader Char :=
  satisfying isBasic <|> escape

def single (part : Reader Char) : Reader (List Char) := do
  return [← part]

def basicText : Reader String :=
  singleLine '"' basicPart

def literalText : Reader String :=
  singleLine '\'' (satisfying isLiteral)

def multiLineBasicText : Reader String :=
  multiLine '"' (lineContinuation <|> lineBreak <|> single basicPart)

def multiLineLiteralText : Reader String :=
  multiLine '\'' (lineBreak <|> single (satisfying isLiteral))

/-- A text in quotes of any kind. -/
def text : Reader String := do
  if ← startsWith "\"\"\"" then multiLineBasicText
  else if ← startsWith "'''" then multiLineLiteralText
  else basicText <|> literalText

end Worksheet.Toml
