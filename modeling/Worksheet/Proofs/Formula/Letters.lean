import Worksheet.Proofs.Formula.Case
import Worksheet.Proofs.Formula.Origin
import Worksheet.Proofs.Formula.Parse
import Worksheet.Proofs.Token.Lexical

/-!
Texts that differ in the case of their letters only.

Brought into upper or into lower case such texts are equal (`Text.SameLetters.apply_eq`), whatever
case they were in before. A text in another case is a spelling of the same tokens in that case
(`scan_apply`), since blanks and marks are no letters. So formulas that were read from such texts,
each in any case, have texts of the same letters (`Formula.sameLetters_of_parse`), and are equal
once they are in upper or in lower case (`Formula.SameLetters.recase_eq`). To bring a formula into
upper or into lower case is to read its text in that case (`Formula.recase_eq_parse`).
-/

namespace Worksheet

variable {casing : Casing}

/-! ## Texts -/

namespace Casing

open Text

/-- What upper or lower case makes of a letter does not depend on the case that it had. -/
theorem onChar_onChar_of_ne (h : casing ≠ .preserve) (other : Casing) (c : Char) :
    casing.onChar (other.onChar c) = casing.onChar c := by
  by_cases hother : other = casing
  · rw [hother, onChar_onChar]
  · apply Char.toNat_inj.1
    cases casing with
    | preserve => exact absurd rfl h
    | upper =>
      cases other with
      | upper => exact absurd rfl hother
      | lower => simp only [onChar, toNat_toUpper, toNat_toLower]; split_ifs <;> omega
      | preserve => rfl
    | lower =>
      cases other with
      | upper => simp only [onChar, toNat_toUpper, toNat_toLower]; split_ifs <;> omega
      | lower => exact absurd rfl hother
      | preserve => rfl

theorem apply_apply_of_ne (h : casing ≠ .preserve) (other : Casing) (s : String) :
    casing.apply (other.apply s) = casing.apply s := by
  rw [← String.toList_inj]
  simp [onChar_onChar_of_ne h]

end Casing

/-- The texts differ in the case of their ASCII letters only. -/
def Text.SameLetters (s s' : String) : Prop :=
  Casing.lower.apply s = Casing.lower.apply s'

instance (s s' : String) : Decidable (Text.SameLetters s s') :=
  inferInstanceAs (Decidable (_ = _))

theorem Text.SameLetters.apply_eq {s s' : String} (h : SameLetters s s')
    (hcasing : casing ≠ .preserve) : casing.apply s = casing.apply s' := by
  rw [← Casing.apply_apply_of_ne hcasing .lower s, ← Casing.apply_apply_of_ne hcasing .lower s']
  exact congrArg casing.apply h

theorem Name.isValid_of_sameLetters {name name' : String} (h : Text.SameLetters name name') :
    isValid name = isValid name' := by
  rw [← isValid_apply .lower name, h, isValid_apply]

/-! ## Tokens -/

namespace Token

theorem recase_recase_of_ne (h : casing ≠ .preserve) (other : Casing) (t : Token) :
    (t.recase other).recase casing = t.recase casing := by
  cases t with
  | var name => simp [recase, Casing.apply_apply_of_ne h]
  | number _ | operator _ | left | right => rfl

theorem isOperand_recase (casing : Casing) (t : Token) :
    (t.recase casing).isOperand = t.isOperand := by
  cases t <;> rfl

/-- A change of case leaves blanks alone. -/
theorem map_onChar_blanks {blanks : List Char} (h : Text.IsBlanks blanks) :
    blanks.map casing.onChar = blanks := by
  refine (List.map_congr_left fun c hc => ?_).trans (List.map_id blanks)
  refine Casing.onChar_of_not_alpha casing (Bool.eq_false_iff.2 fun hletter => ?_)
  exact Bool.false_ne_true ((Text.not_blank_of_alphanum (.inl hletter)).symm.trans (h c hc))

theorem Spaced.recase {ts : List Token} {s : List Char} (h : Spaced ts s)
    (hspelled : ∀ t ∈ ts, t.WellFormed) :
    Spaced (ts.map (Token.recase casing)) (s.map casing.onChar) := by
  induction h with
  | nil hblanks =>
    rw [map_onChar_blanks hblanks]
    exact .nil hblanks
  | cons t hblanks _ ih =>
    rw [List.map_append, List.map_append, map_onChar_blanks hblanks, ← Casing.toList_apply,
      ← text_recase casing (hspelled t List.mem_cons_self)]
    exact .cons _ hblanks (ih fun u hu => hspelled u (List.mem_cons_of_mem _ hu))

/-- A text in another case is scanned to its tokens in that case. -/
theorem scan_apply {s : String} {ts : List Token} (h : scan s = .ok ts) (casing : Casing) :
    scan (casing.apply s) = .ok (ts.map (recase casing)) := by
  obtain ⟨hspaced, hspelled, hsep⟩ := scan_eq_ok_iff.1 h
  refine scan_eq_ok_iff.2 ⟨?_, fun t ht => ?_, ?_⟩
  · rw [Casing.toList_apply]
    exact hspaced.recase hspelled
  · obtain ⟨u, hu, rfl⟩ := List.mem_map.1 ht
    exact wellFormed_recase casing (hspelled u hu)
  · rw [Separated, List.isChain_map]
    simpa only [isOperand_recase, Separated] using hsep

end Token

/-! ## Formulas and contents -/

namespace Formula

/-- The texts of the formulas differ in the case of their variables only. -/
def SameLetters (f f' : Formula) : Prop :=
  Text.SameLetters f.text f'.text

theorem SameLetters.recase_eq {f f' : Formula} (h : f.SameLetters f')
    (hcasing : casing ≠ .preserve) : f.recase casing = f'.recase casing := by
  apply eq_of_text
  rw [text_recase, text_recase, Text.SameLetters.apply_eq h hcasing]

/-- In upper or in lower case a formula does not depend on the case in which it was read first. -/
theorem parse_of_parse {s : String} {f : Formula} {other : Casing} (h : parse other s = .ok f)
    (hcasing : casing ≠ .preserve) : parse casing s = .ok (f.recase casing) := by
  obtain ⟨ts, hscan, hcheck, htokens⟩ := parse_eq_ok_iff.1 h
  refine parse_eq_ok_iff.2 ⟨ts, hscan, hcheck, ?_⟩
  simp [recase, htokens, Token.recase_recase_of_ne hcasing, Function.comp_def]

/-- A text that is brought into the case in which it is read gives the same formula. -/
theorem parse_apply {s : String} {f : Formula} (h : parse casing s = .ok f) :
    parse casing (casing.apply s) = .ok f := by
  obtain ⟨ts, hscan, hcheck, htokens⟩ := parse_eq_ok_iff.1 h
  refine parse_eq_ok_iff.2 ⟨_, Token.scan_apply hscan casing, check_map_recase hcheck, ?_⟩
  simp [htokens, Token.recase_recase, Function.comp_def]

/-- Formulas that are read from texts of the same letters, each in any case, have the same
letters. -/
theorem sameLetters_of_parse {one other : Casing} {s s' : String} {f f' : Formula}
    (h : Text.SameLetters s s') (hf : parse one s = .ok f) (hf' : parse other s' = .ok f') :
    f.SameLetters f' := by
  have hne : Casing.lower ≠ .preserve := by decide
  have hlower : f.recase .lower = f'.recase .lower := by
    have hparse := parse_apply (parse_of_parse hf hne)
    rw [h, parse_apply (parse_of_parse hf' hne), Except.ok.injEq] at hparse
    exact hparse.symm
  rw [SameLetters, Text.SameLetters, ← text_recase, hlower, text_recase]

/-- A formula that is brought into upper or into lower case is the one that its text gives when it
is read in that case, and a formula whose case is preserved stays as it is. This holds as well when
the text and the references are kept apart: the text changes letter by letter, and references that
become the same are merged. -/
theorem recase_eq_parse {s : String} {f : Formula} (h : parse casing s = .ok f) :
    (∀ other, other ≠ .preserve →
      parse other s = .ok (f.recase other) ∧ Parts.parse other s = .ok (f.parts.recase other)) ∧
    f.recase .preserve = f ∧ f.parts.recase .preserve = f.parts := by
  refine ⟨fun other hother => ?_, recase_preserve f, ?_⟩
  · have hparse := parse_of_parse h hother
    refine ⟨hparse, ?_⟩
    rw [parse_parts, hparse, recase_parts]
    rfl
  · rw [recase_parts, recase_preserve]

theorem recase_eq_parse_merged :
    ∃ f, parse .preserve "Ab1 + aB1" = .ok f ∧
      (∀ name, name ∈ f.references ↔ name = "Ab1" ∨ name = "aB1") ∧
      parse .lower "Ab1 + aB1" = .ok (f.recase .lower) ∧
      (f.recase .lower).text = "ab1+ab1" ∧
      ∀ name, name ∈ (f.recase .lower).references ↔ name = "ab1" := by
  have hscan : Token.scan "Ab1 + aB1" = .ok [.var "Ab1", .operator .add, .var "aB1"] := rfl
  obtain ⟨f, hparse, htokens⟩ := parse_of_scan .preserve hscan rfl
  obtain ⟨hlower, -⟩ := (recase_eq_parse hparse).1 .lower (by decide)
  have hfirst : Casing.lower.apply "Ab1" = "ab1" := by
    rw [← String.toList_inj, Casing.toList_apply]
    rfl
  have hsecond : Casing.lower.apply "aB1" = "ab1" := by
    rw [← String.toList_inj, Casing.toList_apply]
    rfl
  have hlowered : (f.recase .lower).tokens = [.var "ab1", .operator .add, .var "ab1"] := by
    simp [recase, htokens, Token.recase, hfirst, hsecond]
  refine ⟨f, hparse, fun name => ?_, hlower, ?_, fun name => ?_⟩
  · simp [mem_references, htokens, Token.recase]
  · rw [← String.toList_inj, toList_text, hlowered]
    rfl
  · simp [mem_references, hlowered]

end Formula

namespace Content

/-- The contents differ in the case of the variables of a formula only. -/
inductive SameLetters : Content → Content → Prop
  | number (x : Binary64) : SameLetters (number x) (number x)
  | text (s : String) : SameLetters (text s) (text s)
  | formula {f f' : Formula} (h : f.SameLetters f') : SameLetters (formula f) (formula f')

theorem SameLetters.recase_eq {c c' : Content} (h : c.SameLetters c')
    (hcasing : casing ≠ .preserve) : c.recase casing = c'.recase casing := by
  cases h with
  | number x => rfl
  | text s => rfl
  | formula h => exact congrArg Content.formula (h.recase_eq hcasing)

end Content

end Worksheet
