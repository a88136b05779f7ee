import Worksheet.Evaluation

/-!
Parse trees of expressions, and what they mean.

`Tree level` is the usual grammar: `*` and `/` bind tighter than `+` and `-`, and operators of the
same strength group to the left. `Tree.tokens` writes a tree down, parentheses included, and
`Tree.evaluate` evaluates it, left operand first, with exact integers that must all be in the range
of 64 bits.

A list of tokens has at most one tree (`tokens_injective`): no operator that a level does not allow
stands outside of the parentheses in it (`allows_of_tokens_eq`), so the operator at the root of a
tree is the last of those that its right operand does not allow.
-/

namespace Worksheet.Expression

/-- An atom is a number, a variable or a parenthesis; a product is made of atoms, a sum of
products. -/
inductive Level where
  | atom
  | product
  | sum
  deriving DecidableEq, Repr

/-- A parse tree. -/
inductive Tree : Level → Type where
  | number (digits : String) : Tree .atom
  | var (name : String) : Tree .atom
  | paren (t : Tree .sum) : Tree .atom
  | ofAtom (t : Tree .atom) : Tree .product
  | product (l : Tree .product) (op : Operator) (hop : op.isMultiplicative = true)
      (r : Tree .atom) : Tree .product
  | ofProduct (t : Tree .product) : Tree .sum
  | sum (l : Tree .sum) (op : Operator) (hop : op.isMultiplicative = false)
      (r : Tree .product) : Tree .sum

/-- The tokens from which the tree is read. -/
def Tree.tokens {level : Level} : Tree level → List Token
  | number digits => [.number digits]
  | var name => [.var name]
  | paren t => .left :: (t.tokens ++ [.right])
  | ofAtom t => t.tokens
  | product l op _ r => l.tokens ++ .operator op :: r.tokens
  | ofProduct t => t.tokens
  | sum l op _ r => l.tokens ++ .operator op :: r.tokens

/-! ## The meaning of a tree -/

/-- What an evaluation with exact integers yields, and the names asked for, in order. -/
structure Outcome where
  result : Except EvalError Int
  asked : List String

/-- The number, if it is in the range of 64 bits with sign. -/
def checked (n : Int) : Except EvalError Int :=
  if FitsInt64 n then .ok n else .error (.arithmetic .overflow)

/-- An operation on integers; division truncates toward zero. -/
def exact (op : Operator) (a b : Int) : Except EvalError Int :=
  match op with
  | .add => checked (a + b)
  | .sub => checked (a - b)
  | .mul => checked (a * b)
  | .div => if b = 0 then .error (.arithmetic .divisionByZero) else checked (a.tdiv b)

/-- An operation on two operands, the left one first; what fails first is the failure. -/
def Outcome.combine (op : Operator) (l r : Outcome) : Outcome :=
  match l.result, r.result with
  | .error e, _ => { result := .error e, asked := l.asked }
  | .ok _, .error e => { result := .error e, asked := l.asked ++ r.asked }
  | .ok a, .ok b => { result := exact op a b, asked := l.asked ++ r.asked }

/-- Asks for a variable. -/
def Outcome.ask (lookup : Lookup) (name : String) : Outcome :=
  { result :=
      match lookup name with
      | .ok v => .ok v.toInt
      | .error reason => .error (.unresolved name reason)
    asked := [name] }

/-- The value of the tree, operands before operations and left before right. -/
def Tree.evaluate (lookup : Lookup) {level : Level} : Tree level → Outcome
  | number digits => { result := checked (Text.ofDigits digits.toList), asked := [] }
  | var name => .ask lookup name
  | paren t => t.evaluate lookup
  | ofAtom t => t.evaluate lookup
  | product l op _ r => .combine op (l.evaluate lookup) (r.evaluate lookup)
  | ofProduct t => t.evaluate lookup
  | sum l op _ r => .combine op (l.evaluate lookup) (r.evaluate lookup)

/-! ## Parentheses -/

/-- How many more parentheses are opened than closed. -/
def depth (ts : List Token) : Int :=
  ts.count .left - ts.count .right

@[simp] theorem depth_nil : depth [] = 0 := rfl

@[simp] theorem depth_append (ts us : List Token) : depth (ts ++ us) = depth ts + depth us := by
  simp only [depth, List.count_append]
  omega

@[simp] theorem depth_left (ts : List Token) : depth (.left :: ts) = depth ts + 1 := by
  simp [depth]
  omega

@[simp] theorem depth_right (ts : List Token) : depth (.right :: ts) = depth ts - 1 := by
  simp [depth]
  omega

@[simp] theorem depth_number (digits : String) (ts : List Token) :
    depth (.number digits :: ts) = depth ts := by
  simp [depth]

@[simp] theorem depth_var (name : String) (ts : List Token) :
    depth (.var name :: ts) = depth ts := by
  simp [depth]

@[simp] theorem depth_operator (op : Operator) (ts : List Token) :
    depth (.operator op :: ts) = depth ts := by
  simp [depth]

variable {level : Level} {before after ts us : List Token} {op op' : Operator}

@[simp] theorem depth_tokens (t : Tree level) : depth t.tokens = 0 := by
  induction t with
  | number digits => simp [Tree.tokens]
  | var name => simp [Tree.tokens]
  | paren t ih => simp [Tree.tokens, ih]
  | ofAtom t ih => exact ih
  | product l op _ r ihl ihr => simp [Tree.tokens, ihl, ihr]
  | ofProduct t ih => exact ih
  | sum l op _ r ihl ihr => simp [Tree.tokens, ihl, ihr]

/-- A parenthesis is split before it, within it, or after it. -/
theorem paren_split (h : .left :: (ts ++ [.right]) = before ++ after) :
    before = [] ∨
      (∃ start rest, before = .left :: start ∧ ts = start ++ rest ∧ after = rest ++ [.right]) ∨
      before = .left :: (ts ++ [.right]) ∧ after = [] := by
  cases before with
  | nil => exact .inl rfl
  | cons t start =>
    rw [List.cons_append, List.cons.injEq] at h
    obtain ⟨rfl, h⟩ := h
    rcases List.append_eq_append_iff.1 h with ⟨rest, hstart, hright⟩ | ⟨rest, hts, hafter⟩
    · rcases List.singleton_eq_append_iff.1 hright with ⟨rfl, rfl⟩ | ⟨rfl, rfl⟩
      · exact .inr (.inl ⟨start, [], rfl, by simpa using hstart.symm, rfl⟩)
      · exact .inr (.inr ⟨by rw [hstart], rfl⟩)
    · exact .inr (.inl ⟨start, rest, rfl, hts, hafter⟩)

/-- No parenthesis is closed before it is opened. -/
theorem depth_nonneg (t : Tree level) (h : t.tokens = before ++ after) : 0 ≤ depth before := by
  induction t generalizing before after with
  | number digits =>
    rcases List.singleton_eq_append_iff.1 h with ⟨rfl, _⟩ | ⟨rfl, _⟩ <;> simp
  | var name =>
    rcases List.singleton_eq_append_iff.1 h with ⟨rfl, _⟩ | ⟨rfl, _⟩ <;> simp
  | paren t ih =>
    rcases paren_split h with rfl | ⟨start, rest, rfl, ht, _⟩ | ⟨rfl, _⟩
    · simp
    · have := ih ht
      rw [depth_left]
      omega
    · simp
  | ofAtom t ih => exact ih h
  | product l op _ r ihl ihr =>
    rcases append_cons_split h with ⟨rest, hl, _⟩ | ⟨start, rfl, hr⟩
    · exact ihl hl
    · simpa using ihr hr
  | ofProduct t ih => exact ih h
  | sum l op _ r ihl ihr =>
    rcases append_cons_split h with ⟨rest, hl, _⟩ | ⟨start, rfl, hr⟩
    · exact ihl hl
    · simpa using ihr hr

/-! ## A list of tokens has one tree -/

/-- May the operator stand outside of the parentheses of the level? -/
def Level.allows : Level → Operator → Bool
  | atom, _ => false
  | product, op => op.isMultiplicative
  | sum, _ => true

/-- An operator outside of the parentheses is one that the level allows. -/
theorem allows_of_tokens_eq (t : Tree level) (h : t.tokens = before ++ .operator op :: after)
    (hdepth : depth before = 0) : level.allows op = true := by
  induction t generalizing before after with
  | number digits => rcases List.singleton_eq_append_iff.1 h with ⟨_, h⟩ | ⟨_, h⟩ <;> cases h
  | var name => rcases List.singleton_eq_append_iff.1 h with ⟨_, h⟩ | ⟨_, h⟩ <;> cases h
  | paren t ih =>
    rcases paren_split h with rfl | ⟨start, rest, rfl, ht, _⟩ | ⟨_, h⟩
    · cases h
    · have := depth_nonneg t ht
      rw [depth_left] at hdepth
      omega
    · cases h
  | ofAtom t ih => cases ih h hdepth
  | product l op' hop' r ihl ihr =>
    rcases append_cons_split h with ⟨rest, hl, hafter⟩ | ⟨start, rfl, hr⟩
    · cases rest with
      | nil =>
        cases hafter
        exact hop'
      | cons t rest =>
        cases hafter
        exact ihl hl hdepth
    · cases ihr hr (by simpa using hdepth)
  | ofProduct t ih => rfl
  | sum l op' _ r ihl ihr => rfl

/-- Where the right operand allows neither operator, there is one way to split. -/
theorem split_unique {lower : Level} {l l' : Tree level} {r r' : Tree lower}
    (hop : lower.allows op = false) (hop' : lower.allows op' = false)
    (h : l.tokens ++ .operator op :: r.tokens = l'.tokens ++ .operator op' :: r'.tokens) :
    l.tokens = l'.tokens ∧ op = op' ∧ r.tokens = r'.tokens := by
  rcases append_cons_split h with ⟨rest, hl, hafter⟩ | ⟨start, hl', hr⟩
  · cases rest with
    | nil =>
      rw [List.nil_append, List.cons.injEq] at hafter
      obtain ⟨hops, hr⟩ := hafter
      cases hops
      exact ⟨by simpa using hl, rfl, hr.symm⟩
    | cons t rest =>
      rw [List.cons_append, List.cons.injEq] at hafter
      obtain ⟨rfl, hr'⟩ := hafter
      have hdepth : depth rest = 0 := by simpa using (congrArg depth hl).symm
      exact absurd (allows_of_tokens_eq r' hr' hdepth) (by simp [hop])
  · have hdepth : depth start = 0 := by simpa using (congrArg depth hl').symm
    exact absurd (allows_of_tokens_eq r hr hdepth) (by simp [hop'])

/-- A list of tokens is read in one way only. -/
theorem tokens_injective (t t' : Tree level) (h : t.tokens = t'.tokens) : t = t' := by
  induction t with
  | number digits =>
    cases t' with
    | number digits' => cases h; rfl
    | var name => cases h
    | paren t' => cases h
  | var name =>
    cases t' with
    | number digits => cases h
    | var name' => cases h; rfl
    | paren t' => cases h
  | paren t ih =>
    cases t' with
    | number digits => cases h
    | var name => cases h
    | paren t' =>
      rw [Tree.tokens, Tree.tokens, List.cons.injEq] at h
      rw [ih t' (List.append_cancel_right h.2)]
  | ofAtom t ih =>
    cases t' with
    | ofAtom t' => rw [ih t' h]
    | product l' op' _ r' => cases allows_of_tokens_eq t h (depth_tokens l')
  | product l op hop r ihl ihr =>
    cases t' with
    | ofAtom t' => cases allows_of_tokens_eq t' h.symm (depth_tokens l)
    | product l' op' hop' r' =>
      obtain ⟨hl, rfl, hr⟩ := split_unique rfl rfl h
      rw [ihl l' hl, ihr r' hr]
  | ofProduct t ih =>
    cases t' with
    | ofProduct t' => rw [ih t' h]
    | sum l' op' hop' r' =>
      have hallows := allows_of_tokens_eq t h (depth_tokens l')
      rw [Level.allows, hop'] at hallows
      cases hallows
  | sum l op hop r ihl ihr =>
    cases t' with
    | ofProduct t' =>
      have hallows := allows_of_tokens_eq t' h.symm (depth_tokens l)
      rw [Level.allows, hop] at hallows
      cases hallows
    | sum l' op' hop' r' =>
      have hallows : Level.product.allows op = false := hop
      obtain ⟨hl, rfl, hr⟩ := split_unique hallows hop' h
      rw [ihl l' hl, ihr r' hr]

end Worksheet.Expression
