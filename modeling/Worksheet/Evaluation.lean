import Worksheet.Arithmetic
import Worksheet.Token.Scan

/-!
Evaluation of an expression in one pass over its tokens, with a stack of operands and a stack of
what is pending. A pending `*` or `/` is carried out as soon as its right operand is known, a
pending `+` or `-` when the next `+`, `-` or `)` arrives. Beside the result stand the names whose
values were asked for.
-/

namespace Worksheet

/-- The value of a variable, or the reason why it has none. -/
abbrev Lookup := String → Except String Int64

/-- Why an expression has no value. -/
inductive EvalError where
  | malformed (cause : SyntaxError)
  | arithmetic (cause : ArithmeticError)
  | unresolved (name reason : String)
  deriving DecidableEq, Repr

def EvalError.message : EvalError → String
  | malformed cause => cause.message
  | arithmetic cause => cause.message
  | unresolved name reason => "Cannot resolve `" ++ name ++ "`: " ++ reason

/-- The outcome of an evaluation, and the names asked for, in order and with repeats. -/
structure Evaluation where
  result : Except EvalError Int64
  asked : List String

namespace Evaluation

/-- What waits for its right operand or for its closing parenthesis. -/
inductive Pending where
  | operator (op : Operator)
  | paren
  deriving DecidableEq, Repr

/-- The two stacks, the top first. -/
structure Stacks where
  operands : List Int64
  pending : List Pending
  deriving DecidableEq, Repr

def missingOperand (op : Operator) : EvalError :=
  .malformed (.missingOperand op)

def applyOperator (op : Operator) (l r : Int64) : Except EvalError Int64 :=
  (op.apply l r).mapError .arithmetic

namespace Stacks

/-- Replaces the two topmost operands by the result of the operator. -/
def combine (op : Operator) : List Int64 → Except EvalError (List Int64)
  | r :: l :: rest => (applyOperator op l r).map (· :: rest)
  | _ => .error (missingOperand op)

/-- Carries out the topmost pending operator if it is of the given strength. -/
def reduce (multiplicative : Bool) (s : Stacks) : Except EvalError Stacks :=
  match s.pending with
  | .operator op :: pending =>
    if op.isMultiplicative = multiplicative then
      (combine op s.operands).map fun operands => { operands, pending }
    else
      .ok s
  | _ => .ok s

/-- Takes in an operand: a pending `*` or `/` uses it up at once. -/
def operand (v : Int64) (s : Stacks) : Except EvalError Stacks :=
  reduce true { s with operands := v :: s.operands }

/-- Takes in a number, which must be in range. -/
def number (digits : String) (s : Stacks) : Except EvalError Stacks :=
  match inRange (Text.ofDigits digits.toList) with
  | .ok v => s.operand v
  | .error e => .error (.arithmetic e)

/-- Takes in an operator; before `+` and `-` a pending `+` or `-` is carried out. -/
def operator (op : Operator) (s : Stacks) : Except EvalError Stacks := do
  let s ← if op.isMultiplicative then .ok s else s.reduce false
  return { s with pending := .operator op :: s.pending }

def openParen (s : Stacks) : Stacks :=
  { s with pending := .paren :: s.pending }

/-- Closes the innermost parenthesis; what it encloses is then an operand. -/
def closeParen (s : Stacks) : Except EvalError Stacks := do
  let s ← s.reduce false
  match s.pending with
  | .paren :: pending => reduce true { s with pending }
  | .operator op :: _ => .error (missingOperand op)
  | [] => .error (.malformed .mismatchedParentheses)

/-- The value, if at most one operator is left and it has its two operands. -/
def result (s : Stacks) : Except EvalError Int64 :=
  match s.pending, s.operands with
  | [], [v] => .ok v
  | [.operator op], [r, l] => applyOperator op l r
  | _, _ => .error (.malformed .unbalanced)

end Stacks

/-- The stacks, or the failure that stopped them; and the names asked for, the latest first. -/
structure Machine where
  state : Except EvalError Stacks
  asked : List String

namespace Machine

def start : Machine :=
  { state := .ok { operands := [], pending := [] }, asked := [] }

/-- Asks for a variable and takes in its value. -/
def ask (lookup : Lookup) (name : String) (s : Stacks) : Except EvalError Stacks :=
  match lookup name with
  | .ok v => s.operand v
  | .error reason => .error (.unresolved name reason)

/-- Takes in one token; after a failure nothing changes any more. -/
def step (lookup : Lookup) (m : Machine) (t : Token) : Machine :=
  match m.state with
  | .error _ => m
  | .ok s =>
    match t with
    | .number digits => { m with state := s.number digits }
    | .var name => { state := ask lookup name s, asked := name :: m.asked }
    | .operator op => { m with state := s.operator op }
    | .left => { m with state := .ok s.openParen }
    | .right => { m with state := s.closeParen }

def run (lookup : Lookup) (m : Machine) (ts : List Token) : Machine :=
  ts.foldl (step lookup) m

theorem run_append (lookup : Lookup) (m : Machine) (ts us : List Token) :
    m.run lookup (ts ++ us) = (m.run lookup ts).run lookup us :=
  List.foldl_append

theorem step_of_failed {lookup : Lookup} {m : Machine} {e : EvalError} (h : m.state = .error e)
    (t : Token) : m.step lookup t = m := by
  simp only [step, h]

/-- A machine that has failed reads on without any change. -/
theorem run_of_failed {lookup : Lookup} {m : Machine} {e : EvalError} (h : m.state = .error e)
    (ts : List Token) : m.run lookup ts = m := by
  induction ts with
  | nil => rfl
  | cons t ts ih =>
    rw [run, List.foldl_cons, step_of_failed h]
    exact ih

def finish (m : Machine) : Evaluation :=
  { result := m.state.bind Stacks.result, asked := m.asked.reverse }

end Machine

/-- Does a number directly follow a closing parenthesis anywhere? -/
def hasImpliedMultiplication : List Token → Bool
  | .right :: .number _ :: _ => true
  | _ :: ts => hasImpliedMultiplication ts
  | [] => false

/-- What is checked before the pass: as many `)` as `(`, and no number directly after a `)`. -/
def precheck (ts : List Token) : Except SyntaxError Unit :=
  if ts.count .left ≠ ts.count .right then .error .mismatchedParentheses
  else if hasImpliedMultiplication ts then .error .impliedMultiplication
  else .ok ()

def failed (e : SyntaxError) : Evaluation :=
  { result := .error (.malformed e), asked := [] }

def ofTokens (lookup : Lookup) (ts : List Token) : Evaluation :=
  match precheck ts with
  | .ok () => (Machine.start.run lookup ts).finish
  | .error e => failed e

/-- Evaluates a text as an expression. -/
def ofText (lookup : Lookup) (s : String) : Evaluation :=
  match Token.scan s with
  | .ok ts => ofTokens lookup ts
  | .error e => failed e

end Evaluation

end Worksheet
