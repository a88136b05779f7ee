import Std.Data.ExtTreeSet
import Worksheet.Name
import Worksheet.Evaluation

/-!
Formulas: expressions that are known to be well formed. A formula keeps its tokens; its text is
the tokens without the blanks between them, and it can be evaluated and brought into another case.
-/

namespace Worksheet

namespace Token

/-- Can the token begin an expression, or stand after an operator or `(`? -/
def startsOperand (t : Token) : Bool :=
  t.isOperand || t == left

/-- Can the token end an expression, or stand before an operator or `)`? -/
def endsOperand (t : Token) : Bool :=
  t.isOperand || t == right

/-- May `next` directly follow `prev`? -/
def mayPrecede (prev next : Token) : Bool :=
  match prev with
  | operator _ | left => next.startsOperand
  | number _ | var _ | right => next.isOperator || next == right

/-- The token with its letters in the given case. -/
def recase (casing : Casing) : Token → Token
  | var name => var (casing.apply name)
  | t => t

theorem isVariableText_map (casing : Casing) (s : List Char) :
    isVariableText (s.map casing.onChar) = isVariableText s := by
  have halpha : Char.isAlpha ∘ casing.onChar = Char.isAlpha :=
    funext fun c => casing.isAlpha_onChar c
  have hdigit : Char.isDigit ∘ casing.onChar = Char.isDigit :=
    funext fun c => casing.isDigit_onChar c
  simp [isVariableText, Text.isNumeral, List.takeWhile_map, List.dropWhile_map, List.all_map,
    halpha, hdigit]

theorem wellFormed_recase (casing : Casing) {t : Token} (h : t.WellFormed) :
    (t.recase casing).WellFormed := by
  cases t with
  | var name => simpa [recase, WellFormed, isVariableText_map] using h
  | number _ | operator _ | left | right => exact h

@[simp] theorem startsOperand_recase (casing : Casing) (t : Token) :
    (t.recase casing).startsOperand = t.startsOperand := by
  cases t <;> rfl

@[simp] theorem endsOperand_recase (casing : Casing) (t : Token) :
    (t.recase casing).endsOperand = t.endsOperand := by
  cases t <;> rfl

@[simp] theorem mayPrecede_recase (casing : Casing) (prev next : Token) :
    (prev.recase casing).mayPrecede (next.recase casing) = prev.mayPrecede next := by
  cases prev <;> cases next <;> rfl

end Token

namespace Formula

/-- Why `next` cannot directly follow `prev`. -/
def misplaced (prev next : Token) : SyntaxError :=
  match prev, next with
  | .right, .number _ => .impliedMultiplication
  | _, _ => .unexpectedToken next prev

def checkEnds (ts : List Token) : Except SyntaxError Unit :=
  match ts.head?, ts.getLast? with
  | some first, some last =>
    if !first.startsOperand then .error (.invalidStart first)
    else if !last.endsOperand then .error (.invalidEnd last)
    else .ok ()
  | _, _ => .error .empty

/-- Is every parenthesis closed that is opened, and none closed that is not open? -/
def isNested (depth : Nat) : List Token → Bool
  | [] => depth == 0
  | .left :: ts => isNested (depth + 1) ts
  | .right :: ts => depth != 0 && isNested (depth - 1) ts
  | _ :: ts => isNested depth ts

/-- The first two neighbours that may not stand side by side. -/
def checkNeighbours : List Token → Except SyntaxError Unit
  | prev :: next :: ts =>
    if prev.mayPrecede next then checkNeighbours (next :: ts) else .error (misplaced prev next)
  | _ => .ok ()

/-- Is the sequence of tokens an expression? Of several faults the one reported is at the ends,
else in the nesting, else at the leftmost pair of neighbours. -/
def check (ts : List Token) : Except SyntaxError Unit := do
  checkEnds ts
  if !isNested 0 ts then
    throw .mismatchedParentheses
  checkNeighbours ts

theorem isNested_map_recase (casing : Casing) (depth : Nat) (ts : List Token) :
    isNested depth (ts.map (Token.recase casing)) = isNested depth ts := by
  induction ts generalizing depth with
  | nil => rfl
  | cons t ts ih => cases t <;> simp [isNested, Token.recase, ih]

theorem checkEnds_map_recase {casing : Casing} {ts : List Token} (h : checkEnds ts = .ok ()) :
    checkEnds (ts.map (Token.recase casing)) = .ok () := by
  unfold checkEnds at h ⊢
  rw [List.head?_map, List.getLast?_map]
  cases hf : ts.head? with
  | none => simp [hf] at h
  | some first =>
    cases hl : ts.getLast? with
    | none => simp [hf, hl] at h
    | some last => cases hs : first.startsOperand <;> cases he : last.endsOperand <;> simp_all

theorem checkNeighbours_map_recase {casing : Casing} {ts : List Token}
    (h : checkNeighbours ts = .ok ()) :
    checkNeighbours (ts.map (Token.recase casing)) = .ok () := by
  fun_induction checkNeighbours ts with
  | case1 prev next ts hnext ih =>
    simpa [checkNeighbours, hnext] using ih h
  | case2 => cases h
  | case3 ts hts =>
    match ts, hts with
    | [], _ => rfl
    | [t], _ => rfl
    | prev :: next :: ts, hts => exact absurd rfl (hts prev next ts)

theorem check_eq_ok_iff {ts : List Token} :
    check ts = .ok () ↔
      checkEnds ts = .ok () ∧ isNested 0 ts = true ∧ checkNeighbours ts = .ok () := by
  unfold check
  cases checkEnds ts with
  | error e => simp [bind, Except.bind]
  | ok u => cases isNested 0 ts <;> simp [bind, Except.bind, throw, throwThe, MonadExceptOf.throw]

theorem check_map_recase {casing : Casing} {ts : List Token} (h : check ts = .ok ()) :
    check (ts.map (Token.recase casing)) = .ok () := by
  rw [check_eq_ok_iff] at h ⊢
  exact ⟨checkEnds_map_recase h.1, (isNested_map_recase casing 0 ts).trans h.2.1,
    checkNeighbours_map_recase h.2.2⟩

end Formula

/-- A well-formed expression. -/
@[ext] structure Formula where
  tokens : List Token
  spelled : ∀ t ∈ tokens, t.WellFormed
  wellFormed : Formula.check tokens = .ok ()
  deriving DecidableEq

namespace Formula

/-- Reads a formula, with its variables brought into the given case. -/
def parse (casing : Casing) (s : String) : Except SyntaxError Formula :=
  match hscan : Token.scan s with
  | .error e => .error e
  | .ok ts =>
    match hcheck : check ts with
    | .error e => .error e
    | .ok () =>
      .ok
        { tokens := ts.map (Token.recase casing)
          spelled := by
            intro t ht
            obtain ⟨u, hu, rfl⟩ := List.mem_map.1 ht
            exact Token.wellFormed_recase casing (Token.wellFormed_of_scan hscan u hu)
          wellFormed := check_map_recase hcheck }

/-- The tokens of the formula with nothing between them. -/
def text (f : Formula) : String :=
  String.ofList (f.tokens.flatMap fun t => t.text.toList)

/-- Reads a formula as a user writes it, with its variables in upper case. -/
def ofString (s : String) : Except SyntaxError Formula :=
  parse .upper s

/-- The text that is kept for a formula. -/
def encode (f : Formula) : String :=
  f.text

/-- Reads a formula back from the text that was kept, as it is written there. -/
def decode (s : String) : Except SyntaxError Formula :=
  parse .preserve s

/-- The names that the formula refers to. -/
def references (f : Formula) : Std.ExtTreeSet String :=
  Std.ExtTreeSet.ofList (f.tokens.filterMap Token.name?)

theorem mem_references {f : Formula} {name : String} :
    name ∈ f.references ↔ Token.var name ∈ f.tokens := by
  simp only [references, Std.ExtTreeSet.mem_ofList, List.contains_iff_mem, List.mem_filterMap]
  constructor
  · rintro ⟨t, ht, hname⟩
    cases t <;> simp [Token.name?] at hname
    exact hname ▸ ht
  · intro h
    exact ⟨_, h, rfl⟩

/-- The same formula with its variables in the given case. -/
def recase (casing : Casing) (f : Formula) : Formula where
  tokens := f.tokens.map (Token.recase casing)
  spelled := by
    intro t ht
    obtain ⟨u, hu, rfl⟩ := List.mem_map.1 ht
    exact Token.wellFormed_recase casing (f.spelled u hu)
  wellFormed := check_map_recase f.wellFormed

/-- Evaluates the formula by its text. -/
def evaluate (lookup : Lookup) (f : Formula) : Evaluation :=
  Evaluation.ofText lookup f.text

end Formula

end Worksheet
