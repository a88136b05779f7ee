import Worksheet.Proofs.Expression.Grammar
import Worksheet.Proofs.Token.Spacing

/-!
The text of a formula stands for its tokens: scanning it gives the tokens back (`scan_text`), so
that evaluating the text is evaluating the tokens (`evaluate_eq_ofTokens`). The outcome depends on
nothing but the values of the names that the formula refers to (`evaluate_congr`).
-/

namespace Worksheet

namespace Formula

open Token

/-- Neighbours that may stand side by side are not both operands. -/
theorem separated_of_checkNeighbours {ts : List Token} (h : checkNeighbours ts = .ok ()) :
    Separated ts := by
  refine (Expression.checkNeighbours_eq_ok_iff.1 h).imp fun prev next hnext => ?_
  rintro ⟨hprev, hop⟩
  have hends := Expression.endsOperand_of_fits hnext
  simp [endsOperand, startsOperand, hprev, hop] at hends

theorem separated_tokens (f : Formula) : Separated f.tokens :=
  separated_of_checkNeighbours (check_eq_ok_iff.1 f.wellFormed).2.2

theorem spaced_flatMap (ts : List Token) : Spaced ts (ts.flatMap fun t => t.text.toList) := by
  have hnone : Text.IsBlanks [] := fun c hc => absurd hc List.not_mem_nil
  induction ts with
  | nil => exact .nil hnone
  | cons t ts ih => exact .cons t hnone ih

theorem toList_text (f : Formula) : f.text.toList = f.tokens.flatMap fun t => t.text.toList :=
  String.toList_ofList

/-- Scanning the text of a formula gives its tokens back. -/
theorem scan_text (f : Formula) : scan f.text = .ok f.tokens :=
  scan_of_spaced (toList_text f ▸ spaced_flatMap f.tokens) f.spelled (separated_tokens f)

/-- Tokens that are found and pass the check make a formula, in the given case. -/
theorem parse_of_scan (casing : Casing) {s : String} {ts : List Token} (hscan : scan s = .ok ts)
    (hcheck : check ts = .ok ()) :
    ∃ f, parse casing s = .ok f ∧ f.tokens = ts.map (Token.recase casing) := by
  unfold parse
  split
  · next e he =>
    rw [hscan] at he
    cases he
  · next us hus =>
    rw [hscan] at hus
    cases hus
    split
    · next e he =>
      rw [hcheck] at he
      cases he
    · exact ⟨_, rfl, rfl⟩

/-- The text of a formula is read as the same formula, in the given case. -/
theorem parse_text (casing : Casing) (f : Formula) : parse casing f.text = .ok (f.recase casing) := by
  obtain ⟨f', hparse, htokens⟩ := parse_of_scan casing (scan_text f) f.wellFormed
  have hsame : f' = f.recase casing := Formula.ext htokens
  rw [hparse, hsame]

/-- No two formulas have the same text. -/
theorem eq_of_text {f f' : Formula} (h : f.text = f'.text) : f = f' := by
  have hscan := scan_text f
  rw [h, scan_text, Except.ok.injEq] at hscan
  exact Formula.ext hscan.symm

theorem evaluate_eq_ofTokens (lookup : Lookup) (f : Formula) :
    f.evaluate lookup = Evaluation.ofTokens lookup f.tokens := by
  rw [evaluate, Evaluation.ofText, scan_text]

end Formula

namespace Evaluation

/-- A run asks for no other names than those of its tokens. -/
theorem Machine.run_congr {lookup lookup' : Lookup} {ts : List Token} (m : Machine)
    (h : ∀ name, Token.var name ∈ ts → lookup name = lookup' name) :
    m.run lookup ts = m.run lookup' ts := by
  induction ts generalizing m with
  | nil => rfl
  | cons t ts ih =>
    have hstep : m.step lookup t = m.step lookup' t := by
      cases t with
      | var name => simp only [step, ask, h name List.mem_cons_self]
      | number _ | operator _ | left | right => rfl
    have hrest := ih (m.step lookup t) fun name hname => h name (List.mem_cons_of_mem _ hname)
    rw [run, run, List.foldl_cons, List.foldl_cons, ← hstep]
    exact hrest

end Evaluation

/-- The outcome depends on the values of the names referred to only. -/
theorem Formula.evaluate_congr {lookup lookup' : Lookup} (f : Formula)
    (h : ∀ name ∈ f.references, lookup name = lookup' name) :
    f.evaluate lookup = f.evaluate lookup' := by
  have hrun := Evaluation.Machine.run_congr .start fun name hname =>
    h name (mem_references.2 hname)
  rw [evaluate_eq_ofTokens, evaluate_eq_ofTokens, Evaluation.ofTokens, Evaluation.ofTokens, hrun]

end Worksheet
