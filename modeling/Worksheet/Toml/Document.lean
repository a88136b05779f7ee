import Worksheet.Toml.Value

/-!
Documents in TOML 1.0: lines with headers and lines with a key and a value. The lines are read
first, and then built up into one table.
-/

namespace Worksheet.Toml

open Reader

/-- A line of a document. -/
inductive Line where
  | table (k : Key)
  | element (k : Key)
  | entry (k : Key) (item : Item)

/-- A header: a key in brackets, or in double brackets for an array of tables. -/
def header : Reader Line := do
  char '['
  let line ←
    if ← skip '[' then
      let k ← key
      word "]]"
      pure (.element k)
    else
      let k ← key
      char ']'
      pure (.table k)
  lineEnd
  return line

def entry : Reader Line := do
  let k ← key
  char '='
  blanks
  let item ← value (nestingLimit - 1)
  lineEnd
  return .entry k item

/-- Takes one more line, which is left out if it is blank or a comment only, or finds the end of the
text. -/
def nextLine (taken : List Line) : Reader (Round (List Line) (List Line)) := do
  blanks
  match ← peek with
  | none => return .stop taken.reverse
  | some '\n' | some '\r' =>
    newline
    return .again taken
  | some '#' =>
    lineEnd
    return .again taken
  | some '[' => return .again ((← header) :: taken)
  | some _ => return .again ((← entry) :: taken)

/-- The lines of a document that are neither blank nor a comment only. -/
def lines : Reader (List Line) :=
  loop nextLine []

/-- A table being built up, and the header that its next entries belong to. -/
structure Draft where
  root : Entries
  current : List String

namespace Draft

def add (d : Draft) : Line → Option Draft
  | .table k =>
    (Entries.atHeader (Entries.beginTable k.last) k.path d.root).map fun root =>
      { root, current := k.path ++ [k.last] }
  | .element k =>
    (Entries.atHeader (Entries.beginElement k.last) k.path d.root).map fun root =>
      { root, current := k.path ++ [k.last] }
  | .entry k item =>
    (Entries.below (Entries.addDotted item k.last k.path) d.current d.root).map fun root =>
      { d with root }

end Draft

/-- The entries of a document; one byte order mark before it is skipped. -/
def parse? (s : String) : Option Entries := do
  let body :=
    match s.toList with
    | '\ufeff' :: body => body
    | body => body
  let (ls, _) ← lines body
  let draft ← ls.foldlM Draft.add { root := [], current := [] }
  return draft.root

end Worksheet.Toml
