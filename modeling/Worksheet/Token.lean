import Worksheet.Text

/-!
The tokens of an expression: numbers, variables, the four operators and the parentheses; and what
can be wrong with the form of an expression.
-/

namespace Worksheet

/-- The binary operators of an expression. -/
inductive Operator where
  | add
  | sub
  | mul
  | div
  deriving DecidableEq, Repr

namespace Operator

def symbol : Operator → Char
  | add => '+'
  | sub => '-'
  | mul => '*'
  | div => '/'

/-- Multiplication and division bind tighter than addition and subtraction. -/
def isMultiplicative : Operator → Bool
  | mul | div => true
  | add | sub => false

end Operator

/-- A token of an expression; numbers and variables carry their text as written. -/
inductive Token where
  | number (digits : String)
  | var (name : String)
  | operator (op : Operator)
  | left
  | right
  deriving DecidableEq, Repr

namespace Token

def text : Token → String
  | number digits => digits
  | var name => name
  | operator op => op.symbol.toString
  | left => "("
  | right => ")"

def isOperand : Token → Bool
  | number _ | var _ => true
  | operator _ | left | right => false

def isOperator : Token → Bool
  | operator _ => true
  | number _ | var _ | left | right => false

/-- The name of a variable token. -/
def name? : Token → Option String
  | var name => some name
  | _ => none

/-- ASCII letters followed by ASCII digits, at least one of each. -/
def isVariableText (s : List Char) : Bool :=
  !(s.takeWhile Char.isAlpha).isEmpty && Text.isNumeral (s.dropWhile Char.isAlpha)

/-- Numbers and variables are spelled as such. -/
def WellFormed : Token → Prop
  | number digits => Text.isNumeral digits.toList
  | var name => isVariableText name.toList
  | operator _ | left | right => True

instance (t : Token) : Decidable t.WellFormed := by
  cases t <;> unfold WellFormed <;> infer_instance

end Token

/-- Why an expression is malformed. -/
inductive SyntaxError where
  | empty
  | illegalToken (piece : String)
  | mismatchedParentheses
  | impliedMultiplication
  | missingOperand (op : Operator)
  | unexpectedToken (token after : Token)
  | invalidStart (token : Token)
  | invalidEnd (token : Token)
  | unbalanced
  deriving DecidableEq, Repr

namespace SyntaxError

private def quoted (s : String) : String :=
  "`" ++ s ++ "`"

def message : SyntaxError → String
  | empty => "Expression is empty"
  | illegalToken piece => "Illegal token " ++ quoted piece
  | mismatchedParentheses => "Mismatched parentheses"
  | impliedMultiplication => "Implied multiplication after `)` is not supported"
  | missingOperand op => "Missing operand for " ++ quoted op.symbol.toString
  | unexpectedToken token after => "Unexpected " ++ quoted token.text ++ " after " ++ quoted after.text
  | invalidStart token => "Expression cannot start with " ++ quoted token.text
  | invalidEnd token => "Expression cannot end with " ++ quoted token.text
  | unbalanced => "Expression does not reduce to a single value"

end SyntaxError

end Worksheet
