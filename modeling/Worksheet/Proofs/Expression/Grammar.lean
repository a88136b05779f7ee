import Mathlib.Data.List.Chain
import Worksheet.Formula
import Worksheet.Proofs.Expression.Tree

/-!
The check of a formula accepts the lists of tokens that have a parse tree, and no others
(`check_eq_ok_iff_tree`).

That the tokens of a tree pass is an induction on the tree. For the converse `exists_tree` reads the
tokens from left to right and keeps what has been read: for each open parenthesis what stands before
it, and either a sum or what stands before an operand. The next token always fits, because its
neighbour allows it.
-/

namespace Worksheet.Expression

open Formula

variable {level : Level} {prev : Token} {ts : List Token}

/-- May `next` directly follow `prev`? -/
abbrev Fits (prev next : Token) : Prop :=
  prev.mayPrecede next = true

theorem checkNeighbours_eq_ok_iff : checkNeighbours ts = .ok () ↔ ts.IsChain Fits := by
  induction ts with
  | nil => simp [checkNeighbours]
  | cons prev ts ih =>
    cases ts with
    | nil => simp [checkNeighbours]
    | cons next ts =>
      rw [checkNeighbours, List.isChain_cons_cons, ← ih]
      by_cases hnext : Fits prev next
      · rw [if_pos hnext, and_iff_right hnext]
      · simp [hnext]

theorem checkEnds_eq_ok_iff :
    checkEnds ts = .ok () ↔
      (∃ first, ts.head? = some first ∧ first.startsOperand = true) ∧
        ∃ last, ts.getLast? = some last ∧ last.endsOperand = true := by
  unfold checkEnds
  cases hf : ts.head? with
  | none => simp
  | some first =>
    cases hl : ts.getLast? with
    | none => simp
    | some last => cases hs : first.startsOperand <;> cases he : last.endsOperand <;> simp [hs, he]

/-! ## The tokens of a tree -/

theorem isNested_tokens_append (t : Tree level) (n : Nat) (ts : List Token) :
    isNested n (t.tokens ++ ts) = isNested n ts := by
  induction t generalizing n ts with
  | number digits => rfl
  | var name => rfl
  | paren t ih => simp [Tree.tokens, isNested, ih]
  | ofAtom t ih => exact ih n ts
  | product l op _ r ihl ihr => simp [Tree.tokens, isNested, ihl, ihr]
  | ofProduct t ih => exact ih n ts
  | sum l op _ r ihl ihr => simp [Tree.tokens, isNested, ihl, ihr]

theorem head?_tokens (t : Tree level) :
    ∃ first, t.tokens.head? = some first ∧ first.startsOperand = true := by
  induction t with
  | number digits => exact ⟨_, rfl, rfl⟩
  | var name => exact ⟨_, rfl, rfl⟩
  | paren t _ => exact ⟨_, rfl, rfl⟩
  | ofAtom t ih => exact ih
  | product l op _ r ihl _ =>
    obtain ⟨first, hfirst, hstarts⟩ := ihl
    exact ⟨first, by simp [Tree.tokens, hfirst], hstarts⟩
  | ofProduct t ih => exact ih
  | sum l op _ r ihl _ =>
    obtain ⟨first, hfirst, hstarts⟩ := ihl
    exact ⟨first, by simp [Tree.tokens, hfirst], hstarts⟩

theorem getLast?_tokens (t : Tree level) :
    ∃ last, t.tokens.getLast? = some last ∧ last.endsOperand = true := by
  induction t with
  | number digits => exact ⟨_, rfl, rfl⟩
  | var name => exact ⟨_, rfl, rfl⟩
  | paren t _ => exact ⟨.right, by simp [Tree.tokens, List.getLast?_cons], rfl⟩
  | ofAtom t ih => exact ih
  | product l op _ r _ ihr =>
    obtain ⟨last, hlast, hends⟩ := ihr
    exact ⟨last, by simp [Tree.tokens, List.getLast?_cons, hlast], hends⟩
  | ofProduct t ih => exact ih
  | sum l op _ r _ ihr =>
    obtain ⟨last, hlast, hends⟩ := ihr
    exact ⟨last, by simp [Tree.tokens, List.getLast?_cons, hlast], hends⟩

/-- An operator or `)` fits after what ends an operand. -/
theorem fits_of_endsOperand {last next : Token} (hlast : last.endsOperand = true)
    (hnext : (next.isOperator || next == .right) = true) : Fits last next := by
  cases last with
  | number _ | var _ | right => exact hnext
  | operator _ | left => cases hlast

/-- What follows the end of an operand is no beginning of another, and what follows anything else
is. -/
theorem endsOperand_of_fits {next : Token} (h : Fits prev next) :
    prev.endsOperand = !next.startsOperand := by
  cases prev <;> cases next <;> first | rfl | cases h

theorem isChain_operator {l r : List Token} {op : Operator} (hl : l.IsChain Fits)
    (hlast : ∃ last, l.getLast? = some last ∧ last.endsOperand = true) (hr : r.IsChain Fits)
    (hfirst : ∃ first, r.head? = some first ∧ first.startsOperand = true) :
    (l ++ .operator op :: r).IsChain Fits := by
  obtain ⟨last, hlast, hends⟩ := hlast
  obtain ⟨first, hfirst, hstarts⟩ := hfirst
  refine hl.append (hr.cons ?_) ?_
  · intro next hnext
    rw [hfirst, Option.mem_some_iff] at hnext
    exact hnext ▸ hstarts
  · intro prev hprev next hnext
    rw [hlast, Option.mem_some_iff] at hprev
    rw [List.head?_cons, Option.mem_some_iff] at hnext
    subst hprev hnext
    exact fits_of_endsOperand hends rfl

theorem isChain_tokens (t : Tree level) : t.tokens.IsChain Fits := by
  induction t with
  | number digits => exact List.isChain_singleton _
  | var name => exact List.isChain_singleton _
  | paren t ih =>
    obtain ⟨first, hfirst, hstarts⟩ := head?_tokens t
    obtain ⟨last, hlast, hends⟩ := getLast?_tokens t
    rw [Tree.tokens]
    refine (ih.append (List.isChain_singleton _) ?_).cons ?_
    · intro prev hprev next hnext
      rw [hlast, Option.mem_some_iff] at hprev
      rw [List.head?_cons, Option.mem_some_iff] at hnext
      subst hprev hnext
      exact fits_of_endsOperand hends rfl
    · intro next hnext
      rw [List.head?_append, hfirst, Option.some_or, Option.mem_some_iff] at hnext
      exact hnext ▸ hstarts
  | ofAtom t ih => exact ih
  | product l op _ r ihl ihr => exact isChain_operator ihl (getLast?_tokens l) ihr (head?_tokens r)
  | ofProduct t ih => exact ih
  | sum l op _ r ihl ihr => exact isChain_operator ihl (getLast?_tokens l) ihr (head?_tokens r)

theorem check_tokens (t : Tree level) : check t.tokens = .ok () := by
  rw [check_eq_ok_iff, checkEnds_eq_ok_iff, checkNeighbours_eq_ok_iff]
  refine ⟨⟨head?_tokens t, getLast?_tokens t⟩, ?_, isChain_tokens t⟩
  simpa [isNested] using isNested_tokens_append t 0 []

/-! ## Reading from left to right -/

/-- The sum with one more operator and atom at its end. -/
def Tree.extend (t : Tree .sum) (op : Operator) (a : Tree .atom) : Tree .sum :=
  match t with
  | ofProduct p =>
    if hop : op.isMultiplicative = true then ofProduct (product p op hop a)
    else sum (ofProduct p) op (Bool.eq_false_iff.2 hop) (ofAtom a)
  | sum l op' hop' r =>
    if hop : op.isMultiplicative = true then sum l op' hop' (product r op hop a)
    else sum (sum l op' hop' r) op (Bool.eq_false_iff.2 hop) (ofAtom a)

theorem Tree.tokens_extend (t : Tree .sum) (op : Operator) (a : Tree .atom) :
    (t.extend op a).tokens = t.tokens ++ .operator op :: a.tokens := by
  cases t with
  | ofProduct p =>
    rw [extend]
    split <;> rfl
  | sum l op' hop' r =>
    rw [extend]
    split <;> simp [tokens]

/-- What stands before an operand: nothing, or a sum and an operator. -/
abbrev Lead := Option (Tree .sum × Operator)

def Lead.tokens : Lead → List Token
  | none => []
  | some (t, op) => t.tokens ++ [.operator op]

/-- The sum that an operand completes. -/
def Lead.fill : Lead → Tree .atom → Tree .sum
  | none, a => .ofProduct (.ofAtom a)
  | some (t, op), a => t.extend op a

theorem Lead.tokens_fill (lead : Lead) (a : Tree .atom) :
    (lead.fill a).tokens = lead.tokens ++ a.tokens := by
  match lead with
  | none => rfl
  | some (t, op) => simp [fill, tokens, Tree.tokens_extend]

/-- What has been read up to the innermost open parenthesis. -/
def opened : List Lead → List Token
  | [] => []
  | lead :: outer => opened outer ++ lead.tokens ++ [.left]

/-- Reading on from `prev`: after the end of an operand that completes a sum, or before one. -/
theorem exists_tree (outer : List Lead) (hfits : (prev :: ts).IsChain Fits)
    (hlast : ∀ last ∈ (prev :: ts).getLast?, last.endsOperand = true)
    (hnested : isNested outer.length ts = true) :
    (prev.endsOperand = true → ∀ t : Tree .sum, ∃ whole : Tree .sum,
      whole.tokens = opened outer ++ t.tokens ++ ts) ∧
    (prev.endsOperand = false → ∀ lead : Lead, ∃ whole : Tree .sum,
      whole.tokens = opened outer ++ lead.tokens ++ ts) := by
  induction ts generalizing prev outer with
  | nil =>
    have hprev : prev.endsOperand = true := hlast prev rfl
    have houter : outer = [] := by simpa [isNested] using hnested
    subst houter
    exact ⟨fun _ t => ⟨t, by simp [opened]⟩, fun h => by rw [hprev] at h; cases h⟩
  | cons next ts ih =>
    obtain ⟨hnext, hfits⟩ := List.isChain_cons_cons.1 hfits
    have hprev : prev.endsOperand = !next.startsOperand := endsOperand_of_fits hnext
    have hlast' : ∀ last ∈ (next :: ts).getLast?, last.endsOperand = true := by
      simpa [List.getLast?_cons] using hlast
    cases next with
    | number digits =>
      refine ⟨fun h => ?_, fun _ lead => ?_⟩
      · rw [hprev] at h
        cases h
      · obtain ⟨whole, hwhole⟩ := (ih outer hfits hlast' hnested).1 rfl (lead.fill (.number digits))
        exact ⟨whole, by simp [hwhole, Lead.tokens_fill, Tree.tokens]⟩
    | var name =>
      refine ⟨fun h => ?_, fun _ lead => ?_⟩
      · rw [hprev] at h
        cases h
      · obtain ⟨whole, hwhole⟩ := (ih outer hfits hlast' hnested).1 rfl (lead.fill (.var name))
        exact ⟨whole, by simp [hwhole, Lead.tokens_fill, Tree.tokens]⟩
    | operator op =>
      refine ⟨fun _ t => ?_, fun h => ?_⟩
      · obtain ⟨whole, hwhole⟩ := (ih outer hfits hlast' hnested).2 rfl (some (t, op))
        exact ⟨whole, by simp [hwhole, Lead.tokens]⟩
      · rw [hprev] at h
        cases h
    | left =>
      refine ⟨fun h => ?_, fun _ lead => ?_⟩
      · rw [hprev] at h
        cases h
      · obtain ⟨whole, hwhole⟩ := (ih (lead :: outer) hfits hlast' hnested).2 rfl none
        exact ⟨whole, by simp [hwhole, opened, Lead.tokens]⟩
    | right =>
      refine ⟨fun _ t => ?_, fun h => ?_⟩
      · cases outer with
        | nil => simp [isNested] at hnested
        | cons lead outer =>
          have hnested' : isNested outer.length ts = true := by simpa [isNested] using hnested
          obtain ⟨whole, hwhole⟩ := (ih outer hfits hlast' hnested').1 rfl (lead.fill (.paren t))
          exact ⟨whole, by simp [hwhole, opened, Lead.tokens_fill, Tree.tokens]⟩
      · rw [hprev] at h
        cases h

/-- The check accepts the lists of tokens that have a parse tree, and no others. -/
theorem check_eq_ok_iff_tree : check ts = .ok () ↔ ∃ t : Tree .sum, t.tokens = ts := by
  constructor
  · intro h
    rw [check_eq_ok_iff, checkEnds_eq_ok_iff, checkNeighbours_eq_ok_iff] at h
    obtain ⟨⟨⟨first, hfirst, hstarts⟩, last, hlast, hends⟩, hnested, hfits⟩ := h
    -- a formula may start with what may follow a parenthesis
    have hfits' : (.left :: ts).IsChain Fits := hfits.cons fun next hnext => by
      rw [hfirst, Option.mem_some_iff] at hnext
      exact hnext ▸ hstarts
    have hlast' : ∀ last' ∈ (Token.left :: ts).getLast?, last'.endsOperand = true := by
      simp [List.getLast?_cons, hlast, hends]
    obtain ⟨whole, hwhole⟩ := (exists_tree [] hfits' hlast' hnested).2 rfl none
    exact ⟨whole, by simpa [opened, Lead.tokens] using hwhole⟩
  · rintro ⟨t, rfl⟩
    exact check_tokens t

end Worksheet.Expression
