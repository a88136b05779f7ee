import Worksheet.Content
import Worksheet.Settings
import Worksheet.Sheet
import Worksheet.Value

/-!
A document: a sheet and the values of its cells. After each edit only the cells that depend on the
edited one are recomputed.
-/

namespace Worksheet

/-- Why an edit of a document is rejected. -/
inductive EditError where
  | formula (cause : SyntaxError)
  | cell (cause : CellError)
  deriving DecidableEq, Repr

def EditError.message : EditError → String
  | formula cause => "Invalid formula: " ++ cause.message
  | cell cause => cause.message

/-- A sheet, the values of the cells with something in them, and whether anything has changed
since the document was saved. -/
structure Document where
  sheet : Sheet
  values : Std.ExtTreeMap String Value
  modified : Bool
  settings : Settings

namespace Document

def empty (settings : Settings) : Document :=
  { sheet := .empty settings.casing, values := ∅, modified := false, settings }

/-- The value of a cell, given the name under which it is kept. -/
def valueAt (d : Document) (cell : String) : Value :=
  d.values.getD cell .empty

/-- The value of one cell from those of the others; what is no name of a cell has none. -/
def computed (d : Document) (cell : String) : Value :=
  match d.sheet.content cell with
  | .ok c => Value.ofContent d.valueAt c
  | .error _ => .empty

/-- Computes the value of one cell from those of the others. -/
def recompute (d : Document) (cell : String) : Document :=
  let value := d.computed cell
  { d with
    values := if value.isEmpty then d.values.erase cell else d.values.insert cell value }

/-- Sets the content of a cell, and computes anew what depends on it. -/
def set (listing : Listing) (d : Document) (name : String) (c : Content) :
    Document × Except EditError (List String) :=
  let (sheet, answer) := d.sheet.set listing name c
  match answer with
  | .ok order => (order.foldl recompute { d with sheet, modified := true }, .ok order)
  | .error e => ({ d with sheet }, .error (.cell e))

def clearCell (listing : Listing) (d : Document) (name : String) :
    Document × Except EditError (List String) :=
  d.set listing name .empty

def parseInput (d : Document) (input : String) : Except SyntaxError Content :=
  Input.parse d.sheet.casing input

/-- Sets a cell to what the user has typed; a malformed formula is rejected first. -/
def enter (listing : Listing) (d : Document) (name input : String) :
    Document × Except EditError (List String) :=
  match d.parseInput input with
  | .ok c => d.set listing name c
  | .error e => (d, .error (.formula e))

def content (d : Document) (name : String) : Except CellError Content :=
  d.sheet.content name

/-- The input that reproduces a cell. -/
def cellInput (d : Document) (name : String) : Except CellError String :=
  (d.content name).map Input.ofContent

def value (d : Document) (name : String) : Except CellError Value :=
  (d.sheet.cellName name).map d.valueAt

/-- The text that a cell shows, if it has one. -/
def display (d : Document) (name : String) : Except CellError (Option String) :=
  (d.value name).map (Value.display d.settings.decimals)

/-- The names of the cells with something in them. -/
def names (d : Document) : List String :=
  d.sheet.names

def dependents (d : Document) (name : String) : Except CellError Names :=
  d.sheet.dependents name

/-- The document without any cell. -/
def clear (d : Document) : Document :=
  { d with sheet := d.sheet.clear, values := ∅, modified := true }

def markSaved (d : Document) : Document :=
  { d with modified := false }

end Document

end Worksheet
