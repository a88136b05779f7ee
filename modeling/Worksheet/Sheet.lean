import Worksheet.Content
import Worksheet.Graph.Walk
import Worksheet.Name

/-!
A sheet: the contents of its cells, and the graph of what their formulas refer to. Names of cells
and of variables are kept in the sheet's case. An edit either succeeds as a whole and says which
cells to recompute, or is rejected and leaves the sheet as it was.
-/

namespace Worksheet

/-- Why an edit or a query of a cell is rejected. -/
inductive CellError where
  | invalidName (name : String)
  | circular (cycle : Cycle)
  deriving DecidableEq, Repr

def CellError.message : CellError → String
  | invalidName name => "Invalid cell name `" ++ name ++ "`"
  | circular cycle => cycle.message

/-- Cells with something in them, by name, and the references between cells. -/
structure Sheet where
  casing : Casing
  cells : Std.ExtTreeMap String Content
  graph : Graph

namespace Sheet

def empty (casing : Casing) : Sheet :=
  { casing, cells := ∅, graph := .empty }

/-- The number of cells with something in them. -/
def size (s : Sheet) : Nat :=
  s.cells.size

def isEmpty (s : Sheet) : Bool :=
  s.cells.isEmpty

/-- The names of the cells with something in them. -/
def names (s : Sheet) : List String :=
  s.cells.keys

/-- The name under which the sheet keeps a cell. -/
def cellName (s : Sheet) (name : String) : Except CellError String :=
  match Name.canonical? s.casing name with
  | some cell => .ok cell
  | none => .error (.invalidName name)

/-- The content of a cell, given the name under which it is kept. -/
def contentAt (s : Sheet) (cell : String) : Content :=
  s.cells.getD cell .empty

def content (s : Sheet) (name : String) : Except CellError Content :=
  (s.cellName name).map s.contentAt

/-- The cells whose formulas refer to the cell. -/
def dependents (s : Sheet) (name : String) : Except CellError Names :=
  (s.cellName name).map s.graph.dependents

/-- The cells that the cell's formula refers to. -/
def dependees (s : Sheet) (name : String) : Except CellError Names :=
  (s.cellName name).map s.graph.dependees

/-- The cells to recompute after a change of the cell. -/
def recalculation (listing : Listing) (s : Sheet) (name : String) :
    Except CellError (List String) := do
  let cell ← s.cellName name
  (s.graph.recalculation listing cell).mapError .circular

/-- The sheet with other contents in one cell, its graph left alone. -/
def store (s : Sheet) (cell : String) (c : Content) : Sheet :=
  { s with cells := if c.isEmpty then s.cells.erase cell else s.cells.insert cell c }

/-- Sets a cell, given the name under which it is kept: first its references, then, if they close
no loop, its content; if they do, the references are set back. -/
def setAt (listing : Listing) (s : Sheet) (cell : String) (c : Content) :
    Sheet × Except CellError (List String) :=
  let linked := s.graph.replaceDependees cell c.references
  match linked.recalculation listing cell with
  | .ok order => ({ s with graph := linked }.store cell c, .ok order)
  | .error cycle =>
    let previous := (s.graph.dependees cell).toList
    ({ s with graph := linked.replaceDependees cell previous }, .error (.circular cycle))

/-- Replaces the content of a cell. The answer lists the cells to recompute, dependees before
dependents and the cell itself first. -/
def set (listing : Listing) (s : Sheet) (name : String) (c : Content) :
    Sheet × Except CellError (List String) :=
  match s.cellName name with
  | .ok cell => s.setAt listing cell (c.recase s.casing)
  | .error e => (s, .error e)

def setNumber (listing : Listing) (s : Sheet) (name : String) (x : Binary64) :
    Sheet × Except CellError (List String) :=
  s.set listing name (.number x)

/-- Sets a cell to a text; the empty text removes the cell. -/
def setText (listing : Listing) (s : Sheet) (name t : String) :
    Sheet × Except CellError (List String) :=
  s.set listing name (.text t)

def setFormula (listing : Listing) (s : Sheet) (name : String) (f : Formula) :
    Sheet × Except CellError (List String) :=
  s.set listing name (.formula f)

/-- The sheet without any cell or reference. -/
def clear (s : Sheet) : Sheet :=
  empty s.casing

end Sheet

end Worksheet
