import Worksheet.Proofs.Expression.Grammar

/-!
The grammar of expressions without precedence, and its agreement with the parse trees.

`Derives` is the grammar in its shortest form: an expression is an operand, or an expression, an
operator and an operand. It derives the same lists of tokens as there are trees for
(`derives_iff_tree`), since a product at the end of a sum can be taken apart and put to it operand
by operand (`derivable_tokens`), and an operand at the end of a sum belongs to the sum or to its
last product (`Tree.extend`). So the check of a formula accepts just what the grammar derives
(`check_eq_ok_iff_derives`).
-/

namespace Worksheet.Expression

/-- What the grammar derives. -/
inductive Nonterminal where
  | expression
  | operand
  deriving DecidableEq, Repr

/-- The tokens can be derived by the rules `expression ::= operand | expression op operand` and
`operand ::= number | variable | ( expression )`. -/
inductive Derives : Nonterminal → List Token → Prop
  | single {ts : List Token} (h : Derives .operand ts) : Derives .expression ts
  | operation {l r : List Token} (hl : Derives .expression l) (op : Operator)
      (hr : Derives .operand r) : Derives .expression (l ++ .operator op :: r)
  | number (digits : String) : Derives .operand [.number digits]
  | var (name : String) : Derives .operand [.var name]
  | paren {ts : List Token} (h : Derives .expression ts) :
      Derives .operand (.left :: (ts ++ [.right]))

/-- The trees for what is derived. -/
def Nonterminal.level : Nonterminal → Level
  | expression => .sum
  | operand => .atom

theorem exists_tree_of_derives {n : Nonterminal} {ts : List Token} (h : Derives n ts) :
    ∃ t : Tree n.level, t.tokens = ts := by
  induction h with
  | single _ ih =>
    obtain ⟨a, rfl⟩ := ih
    exact ⟨.ofProduct (.ofAtom a), rfl⟩
  | operation _ op _ ihl ihr =>
    obtain ⟨t, rfl⟩ := ihl
    obtain ⟨a, rfl⟩ := ihr
    exact ⟨Tree.extend t op a, Tree.tokens_extend t op a⟩
  | number digits => exact ⟨.number digits, rfl⟩
  | var name => exact ⟨.var name, rfl⟩
  | paren _ ih =>
    obtain ⟨t, rfl⟩ := ih
    exact ⟨.paren t, rfl⟩

/-- The tokens of a tree are an operand, or an expression, or can stand behind an expression and an
operator, as far as the level allows it. -/
structure Derivable (level : Level) (ts : List Token) : Prop where
  operand : level = .atom → Derives .operand ts
  expression : Derives .expression ts
  appended : level ≠ .sum → ∀ {l : List Token}, Derives .expression l → ∀ op,
    Derives .expression (l ++ .operator op :: ts)

theorem derivable_of_operand {ts : List Token} (h : Derives .operand ts) (level : Level) :
    Derivable level ts :=
  ⟨fun _ => h, .single h, fun _ _ hl op => .operation hl op h⟩

theorem derivable_tokens {level : Level} (t : Tree level) : Derivable level t.tokens := by
  induction t with
  | number digits => exact derivable_of_operand (.number digits) .atom
  | var name => exact derivable_of_operand (.var name) .atom
  | paren t ih => exact derivable_of_operand (.paren ih.expression) .atom
  | ofAtom t ih => exact derivable_of_operand (ih.operand rfl) .product
  | product l op _ r ihl ihr =>
    have hr := ihr.operand rfl
    refine ⟨fun h => absurd h (by decide), .operation ihl.expression op hr, ?_⟩
    intro _ lead hlead op'
    have := Derives.operation (ihl.appended (by decide) hlead op') op hr
    rwa [List.append_assoc, List.cons_append] at this
  | ofProduct t ih => exact ⟨fun h => absurd h (by decide), ih.expression, fun h => absurd rfl h⟩
  | sum l op _ r ihl ihr =>
    refine ⟨fun h => absurd h (by decide), ?_, fun h => absurd rfl h⟩
    exact ihr.appended (by decide) ihl.expression op

/-- What the grammar derives is what there is a tree for. -/
theorem derives_iff_tree {ts : List Token} :
    Derives .expression ts ↔ ∃ t : Tree .sum, t.tokens = ts := by
  constructor
  · exact exists_tree_of_derives
  · rintro ⟨t, rfl⟩
    exact (derivable_tokens t).expression

/-- The check of a formula accepts the lists of tokens that the grammar derives, and no others. -/
theorem check_eq_ok_iff_derives {ts : List Token} :
    Formula.check ts = .ok () ↔ Derives .expression ts := by
  rw [check_eq_ok_iff_tree, derives_iff_tree]

end Worksheet.Expression
