import Worksheet.Formula
import Worksheet.Number.Text

/-!
What a cell holds: a number, a text or a formula. The empty text stands for nothing.

What a user types into a cell stands for a content. Blanks around it are dropped; then an equals
sign begins a formula, quotes enclose a text, what reads as a number is one, and all else is text.
Every content has an input that stands for it.
-/

namespace Worksheet

/-- The content of a cell. -/
inductive Content where
  | number (x : Binary64)
  | text (s : String)
  | formula (f : Formula)
  deriving DecidableEq

namespace Content

def empty : Content :=
  text ""

def isEmpty : Content → Bool
  | text s => s.isEmpty
  | number _ | formula _ => false

/-- The names that the content refers to; only a formula refers to any. -/
def references : Content → List String
  | formula f => f.references.toList
  | number _ | text _ => []

/-- The content with the variables of a formula in the given case. -/
def recase (casing : Casing) : Content → Content
  | formula f => formula (f.recase casing)
  | c => c

/-- The content as text: a number as it is read back, a formula after an equals sign. -/
def toText : Content → String
  | number x => String.ofList x.toText
  | text s => s
  | formula f => "=" ++ f.text

end Content

namespace Input

/-- Does the text begin and end with a quote, and not with the same one? -/
def isQuoted (s : List Char) : Bool :=
  2 ≤ s.length && s.head? == some '"' && s.getLast? == some '"'

/-- The content that a text without blanks around it stands for. -/
def ofTrimmed (casing : Casing) (s : List Char) : Except SyntaxError Content :=
  match s with
  | '=' :: expression => (Formula.parse casing (String.ofList expression)).map .formula
  | s =>
    if isQuoted s then
      .ok (.text (String.ofList (s.drop 1).dropLast))
    else
      match Binary64.parse? s with
      | some x => .ok (.number x)
      | none => .ok (.text (String.ofList s))

/-- The content that the user means. -/
def parse (casing : Casing) (input : String) : Except SyntaxError Content :=
  ofTrimmed casing (Text.trim input.toList)

/-- Would the text, typed as it is, be read as something else? -/
def isAmbiguous (s : List Char) : Bool :=
  Text.trim s != s || s.head? == some '=' || isQuoted s || (Binary64.parse? s).isSome

/-- The input that stands for a content. -/
def ofContent : Content → String
  | .number x => String.ofList x.toText
  | .text s => if isAmbiguous s.toList then "\"" ++ s ++ "\"" else s
  | .formula f => "=" ++ f.text

end Input

end Worksheet
