import Worksheet.Number.Binary64

/-!
What a document holds under its keys. Tables that have been written with a header can still grow
by later headers, so they carry how they came about; arrays and tables in braces are complete.
-/

namespace Worksheet.Toml

/-- A value, a table, or an array of tables that headers build up. An `implicit` table has been
named only on the way to another one, and a `dotted` one in a key with dots. -/
inductive Item where
  | text (s : String)
  | integer (k : Int64)
  | float (x : Binary64)
  | boolean (b : Bool)
  | moment (s : String)
  | array (items : List Item)
  | inline (entries : List (String × Item))
  | table (implicit dotted : Bool) (entries : List (String × Item))
  | tables (elements : List (List (String × Item)))

/-- Items by their keys. -/
abbrev Entries := List (String × Item)

namespace Entries

def replace (entries : Entries) (key : String) (item : Item) : Entries :=
  entries.map fun e => if e.1 == key then (key, item) else e

/-- Changes the entries of the table or of the last table of the array at `key`. -/
def inside (entries : Entries) (key : String) (change : Entries → Option Entries) :
    Option Entries :=
  match entries.lookup key with
  | some (.table implicit dotted sub) =>
    (change sub).map fun sub => entries.replace key (.table implicit dotted sub)
  | some (.tables elements) =>
    match elements.getLast? with
    | some last =>
      (change last).map fun last => entries.replace key (.tables (elements.dropLast ++ [last]))
    | none => none
  | _ => none

/-- Adds an item under a new key. -/
def add (key : String) (item : Item) (entries : Entries) : Option Entries :=
  match entries.lookup key with
  | none => some (entries ++ [(key, item)])
  | some _ => none

/-- Adds an item under a key with dots. The tables on the way may not have been written before,
except by such keys; the last of them must come from such a key. -/
def addDotted (item : Item) (key : String) : List String → Entries → Option Entries
  | [], entries => entries.add key item
  | k :: path, entries =>
    match entries.lookup k with
    | none =>
      (addDotted item key path []).map fun sub => entries ++ [(k, .table true true sub)]
    | some (.table implicit dotted _) =>
      if implicit && (dotted || !path.isEmpty) then
        entries.inside k (addDotted item key path)
      else
        none
    | some (.tables _) => if path.isEmpty then none else entries.inside k (addDotted item key path)
    | some _ => none

/-- Follows a header to the table that holds its last key; tables on the way come into being. -/
def atHeader (last : Entries → Option Entries) : List String → Entries → Option Entries
  | [], entries => last entries
  | k :: path, entries =>
    match entries.lookup k with
    | none => (atHeader last path []).map fun sub => entries ++ [(k, .table true false sub)]
    | some _ => entries.inside k (atHeader last path)

/-- Begins a table: there is none yet under its key, or one that other headers have implied. -/
def beginTable (key : String) (entries : Entries) : Option Entries :=
  match entries.lookup key with
  | none => some (entries ++ [(key, .table false false [])])
  | some (.table true false sub) => some (entries.replace key (.table false false sub))
  | some _ => none

/-- Begins the next table of an array of tables. -/
def beginElement (key : String) (entries : Entries) : Option Entries :=
  match entries.lookup key with
  | none => some (entries ++ [(key, .tables [[]])])
  | some (.tables elements) => some (entries.replace key (.tables (elements ++ [[]])))
  | some _ => none

/-- Changes the table that a header has begun. -/
def below (change : Entries → Option Entries) : List String → Entries → Option Entries
  | [], entries => change entries
  | k :: path, entries => entries.inside k (below change path)

end Entries

end Worksheet.Toml
