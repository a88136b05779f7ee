import Worksheet.Proofs.Expression.Derivation
import Worksheet.Proofs.Formula.Text

/-!
Which texts are formulas.

A text is read as a formula just if it is scanned to tokens that the grammar of expressions derives
(`parse_isOk_iff_derives`). The case asked for has no part in that: it is given to the variables
of a text that has been accepted (`parse_eq_ok_iff`), and the reason for a rejection is the same in
every case (`parse_eq_error_iff`).
-/

namespace Worksheet.Formula

open Token (scan)
open Expression (Derives check_eq_ok_iff_derives)

variable {casing : Casing} {s : String} {f : Formula}

/-- A formula has the tokens of its text, in the case asked for. -/
theorem parse_eq_ok_iff :
    parse casing s = .ok f ↔
      ∃ ts, scan s = .ok ts ∧ check ts = .ok () ∧ f.tokens = ts.map (Token.recase casing) := by
  constructor
  · intro h
    unfold parse at h
    split at h
    · cases h
    · next ts hscan =>
      split at h
      · cases h
      · next hcheck =>
        cases h
        exact ⟨ts, hscan, hcheck, rfl⟩
  · rintro ⟨ts, hscan, hcheck, htokens⟩
    obtain ⟨g, hparse, hg⟩ := parse_of_scan casing hscan hcheck
    rw [hparse, Formula.ext (hg.trans htokens.symm)]

/-- The reason for a rejection is found before the case is looked at. -/
theorem parse_eq_error_iff {e : SyntaxError} :
    parse casing s = .error e ↔ (scan s).bind check = .error e := by
  unfold parse
  split
  · next e' hscan =>
    have hreason : (scan s).bind check = .error e' := by rw [hscan]; rfl
    rw [hreason, Except.error.injEq, Except.error.injEq]
  · next ts hscan =>
    have hreason : (scan s).bind check = check ts := by rw [hscan]; rfl
    rw [hreason]
    split
    · next e' hcheck => rw [hcheck, Except.error.injEq, Except.error.injEq]
    · next hcheck => simp [hcheck]

/-- A text is a formula just if the grammar derives its tokens, and the reason why it is none does
not depend on the case asked for. -/
theorem parse_isOk_iff_derives (casing : Casing) (s : String) :
    ((∃ f, parse casing s = .ok f) ↔ ∃ ts, scan s = .ok ts ∧ Derives .expression ts) ∧
    ∀ casing' e, parse casing s = .error e ↔ parse casing' s = .error e := by
  constructor
  · constructor
    · rintro ⟨f, hf⟩
      obtain ⟨ts, hscan, hcheck, -⟩ := parse_eq_ok_iff.1 hf
      exact ⟨ts, hscan, check_eq_ok_iff_derives.1 hcheck⟩
    · rintro ⟨ts, hscan, hderives⟩
      obtain ⟨f, hparse, -⟩ := parse_of_scan casing hscan (check_eq_ok_iff_derives.2 hderives)
      exact ⟨f, hparse⟩
  · intro casing' e
    rw [parse_eq_error_iff, parse_eq_error_iff]

end Worksheet.Formula
