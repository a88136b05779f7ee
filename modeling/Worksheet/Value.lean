import Worksheet.Content
import Worksheet.Number.Text

/-!
The value of a cell: computed from its content and from the values of the cells that its formula
refers to.
-/

namespace Worksheet

/-- The value of a cell; a formula yields an integer or an error. -/
inductive Value where
  | empty
  | number (x : Binary64)
  | integer (k : Int64)
  | text (s : String)
  | error (e : EvalError)
  deriving DecidableEq

namespace Value

def isEmpty : Value → Bool
  | empty => true
  | _ => false

def isError : Value → Bool
  | error _ => true
  | _ => false

/-- The integer as which a formula sees the value, or why it sees none. -/
def resolve : Value → Except String Int64
  | empty => .error "cell is empty"
  | text _ => .error "cell holds text"
  | error _ => .error "cell has an error"
  | integer k => .ok k
  | number x =>
    match x.toInt64? with
    | some k => .ok k
    | none => .error (String.ofList x.toText ++ " is not an integer")

/-- The value of a cell with this content, where `values` are those of the other cells. -/
def ofContent (values : String → Value) : Content → Value
  | .number x => number x
  | .text s => if s.isEmpty then empty else text s
  | .formula f =>
    match (f.evaluate fun name => (values name).resolve).result with
    | .ok k => integer k
    | .error e => error e

/-- The code that stands in a cell instead of a value. -/
def errorCode : EvalError → String
  | .arithmetic .divisionByZero => "#DIV/0!"
  | .arithmetic .overflow => "#NUM!"
  | .unresolved _ _ => "#REF!"
  | .malformed _ => "#ERR!"

/-- The text that a cell shows; only a number may have none. -/
def display (decimals : Nat) : Value → Option String
  | empty => some ""
  | number x => x.display decimals
  | integer k => some (toString k.toInt)
  | text s => some s
  | error e => some (errorCode e)

end Value

end Worksheet
