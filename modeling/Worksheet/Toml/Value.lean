import Worksheet.Toml.Moment
import Worksheet.Toml.Number

/-!
Keys and values. Arrays and tables in braces may contain each other, but not too deeply, and a key
may not have too many parts.
-/

namespace Worksheet.Toml

open Reader

/-- Keys have fewer parts than this, and values are nested less deeply. -/
def nestingLimit : Nat := 80

def isBareKeyChar (c : Char) : Bool :=
  c.isAlphanum || c == '-' || c == '_'

def keyPart : Reader String := do
  match ← peek with
  | some '"' => basicText
  | some '\'' => literalText
  | _ =>
    let s ← takeWhile isBareKeyChar
    ensure (!s.isEmpty)
    return String.ofList s

/-- The parts of a key: those on the way, and the last. -/
structure Key where
  path : List String
  last : String

/-- A key, with the blanks around it and around its dots. -/
def key : Reader Key := do
  let k ← loop
    (fun (path : List String) => do
      blanks
      let part ← keyPart
      blanks
      if ← skip '.' then return .again (part :: path)
      else return .stop { path := path.reverse, last := part : Key })
    []
  ensure (k.path.length + 1 < nestingLimit)
  return k

/-- The rest of an array after its opening bracket; a comma may stand after the last item. -/
def arrayRest (item : Reader Item) : Reader Item := do
  let items ← loop
    (fun (items : List Item) => do
      layout
      match ← attempt item with
      | none => return .stop items.reverse
      | some i =>
        layout
        if ← skip ',' then return .again (i :: items) else return .stop (i :: items).reverse)
    []
  char ']'
  return .array items

/-- The rest of a table in braces after the opening one; it stands on one line. -/
def inlineRest (item : Reader Item) : Reader Item := do
  blanks
  if ← skip '\x7d' then
    return .inline []
  else
    let entries ← loop
      (fun (entries : Entries) => do
        let k ← key
        char '='
        blanks
        let i ← item
        blanks
        let some entries := entries.addDotted i k.last k.path | failure
        if ← skip ',' then return .again entries else return .stop entries)
      []
    char '\x7d'
    return .inline entries

/-- A value, where `array` and `table` read what follows an opening bracket or brace. -/
def valueWith (array table : Reader Item) : Reader Item := do
  match ← peek with
  | some '"' | some '\'' => return .text (← text)
  | some '[' =>
    char '['
    array
  | some '\x7b' =>
    char '\x7b'
    table
  | some 't' =>
    word "true"
    return .boolean true
  | some 'f' =>
    word "false"
    return .boolean false
  | _ => (do return .moment (String.ofList (← moment))) <|> number

/-- A value in which arrays and tables are nested at most so many times. -/
def value : Nat → Reader Item
  | 0 => valueWith failure failure
  | depth + 1 => valueWith (arrayRest (value depth)) (inlineRest (value depth))

end Worksheet.Toml
