import Mathlib.Data.List.Basic
import Worksheet.Content
import Worksheet.Name
import Worksheet.Proofs.Token.Spacing

/-!
What a change of case does to names, formulas and contents.

Doing it twice is doing it once (`apply_apply`, `Content.recase_recase`). It changes the text of a
formula and its references name by name (`text_recase`, `mem_references_recase`), since nothing but
variables contains letters. Every variable is a name that a cell can have
(`isValid_of_mem_references`), in any case.
-/

namespace Worksheet

namespace Casing

open Text

variable (casing : Casing)

theorem onChar_of_not_alpha {c : Char} (h : c.isAlpha = false) : casing.onChar c = c := by
  have hc : ¬ ((65 ≤ c.toNat ∧ c.toNat ≤ 90) ∨ (97 ≤ c.toNat ∧ c.toNat ≤ 122)) := by
    rw [← isAlpha_iff, h]
    exact Bool.false_ne_true
  apply Char.toNat_inj.1
  cases casing with
  | upper => rw [onChar, toNat_toUpper, if_neg]; omega
  | lower => rw [onChar, toNat_toLower, if_neg]; omega
  | preserve => rfl

theorem onChar_onChar (c : Char) : casing.onChar (casing.onChar c) = casing.onChar c := by
  apply Char.toNat_inj.1
  cases casing with
  | upper =>
    rw [onChar, toNat_toUpper c.toUpper, if_neg]
    rw [toNat_toUpper]
    split <;> omega
  | lower =>
    rw [onChar, toNat_toLower c.toLower, if_neg]
    rw [toNat_toLower]
    split <;> omega
  | preserve => rfl

@[simp] theorem apply_apply (s : String) : casing.apply (casing.apply s) = casing.apply s := by
  rw [← String.toList_inj]
  simp [onChar_onChar]

/-- A text without letters has no case. -/
theorem apply_of_not_alpha {s : String} (h : ∀ c ∈ s.toList, c.isAlpha = false) :
    casing.apply s = s := by
  rw [← String.toList_inj, toList_apply]
  exact (List.map_congr_left fun c hc => onChar_of_not_alpha casing (h c hc)).trans (List.map_id _)

end Casing

/-! ## Names -/

namespace Name

/-- The name is one that a cell can have, and in the given case. -/
def Canonical (casing : Casing) (name : String) : Prop :=
  isValid name ∧ casing.apply name = name

theorem isValid_apply (casing : Casing) (s : String) : isValid (casing.apply s) = isValid s := by
  have hstarts : ∀ c, startsName (casing.onChar c) = startsName c := fun c => by
    cases hc : c.isAlpha with
    | true => simp [startsName, hc]
    | false => rw [Casing.onChar_of_not_alpha casing hc]
  have hcontinues : ∀ c, continuesName (casing.onChar c) = continuesName c := fun c => by
    cases hc : c.isAlpha with
    | true => simp [continuesName, Char.isAlphanum, hc]
    | false => rw [Casing.onChar_of_not_alpha casing hc]
  unfold isValid
  rw [Casing.toList_apply]
  match s.toList with
  | [] => rfl
  | [_] => rfl
  | c :: d :: rest => simp [hstarts, hcontinues, List.all_map, Function.comp_def]

theorem canonical_apply (casing : Casing) {s : String} (h : isValid s) :
    Canonical casing (casing.apply s) :=
  ⟨(isValid_apply casing s).trans h, casing.apply_apply s⟩

/-- A variable, letters and then digits, is a name that a cell can have. -/
theorem isValid_of_isVariableText {s : String} (h : Token.isVariableText s.toList) :
    isValid s := by
  simp only [Token.isVariableText, Text.isNumeral, Bool.and_eq_true, Bool.not_eq_true',
    List.isEmpty_eq_false_iff, List.all_eq_true] at h
  obtain ⟨hletters, hdigits, hall⟩ := h
  have hsplit := List.takeWhile_append_dropWhile (p := Char.isAlpha) (l := s.toList)
  have halphanum : ∀ c ∈ s.toList, continuesName c := by
    intro c hc
    rw [← hsplit, List.mem_append] at hc
    rcases hc with hc | hc
    · simp [continuesName, Char.isAlphanum, List.all_eq_true.1 List.all_takeWhile c hc]
    · simp [continuesName, Char.isAlphanum, hall c hc]
  unfold isValid
  rcases hs : s.toList with _ | ⟨c, _ | ⟨d, rest⟩⟩
  · simp [hs] at hletters
  · rw [hs] at hletters hdigits
    cases hc : c.isAlpha <;> simp [hc] at hletters hdigits
  · have hfirst : c.isAlpha := by
      rw [hs] at hletters
      cases hc : c.isAlpha
      · simp [hc] at hletters
      · rfl
    rw [hs] at halphanum
    simp only [startsName, hfirst, Bool.true_or, Bool.true_and]
    exact List.all_eq_true.2 fun c hc => halphanum c (List.mem_cons_of_mem _ hc)

end Name

/-! ## Formulas and contents -/

namespace Token

theorem recase_recase (casing : Casing) (t : Token) :
    (t.recase casing).recase casing = t.recase casing := by
  cases t with
  | var name => simp [recase]
  | number _ | operator _ | left | right => rfl

theorem not_alpha_of_not_operand {t : Token} (h : t.isOperand = false) :
    ∀ c ∈ t.text.toList, c.isAlpha = false := by
  obtain ⟨mark, htext, hmark⟩ := mark_of_not_operand h
  intro c hc
  rw [htext, List.mem_singleton] at hc
  subst hc
  cases ha : c.isAlpha with
  | false => rfl
  | true => simp [mark?_of_alphanum (.inl ha)] at hmark

/-- Only variables contain letters. -/
theorem text_recase (casing : Casing) {t : Token} (h : t.WellFormed) :
    (t.recase casing).text = casing.apply t.text := by
  cases t with
  | number digits =>
    simp only [WellFormed, Text.isNumeral, Bool.and_eq_true, List.all_eq_true] at h
    refine (Casing.apply_of_not_alpha casing fun c hc => ?_).symm
    have hd := h.2 c hc
    rw [Text.isDigit_iff] at hd
    rw [Bool.eq_false_iff, ne_eq, Text.isAlpha_iff]
    omega
  | var name => rfl
  | operator op => exact (Casing.apply_of_not_alpha casing (not_alpha_of_not_operand rfl)).symm
  | left => exact (Casing.apply_of_not_alpha casing (not_alpha_of_not_operand rfl)).symm
  | right => exact (Casing.apply_of_not_alpha casing (not_alpha_of_not_operand rfl)).symm

end Token

namespace Formula

variable (casing : Casing) (f : Formula)

theorem recase_recase : (f.recase casing).recase casing = f.recase casing := by
  ext1
  simp [recase, Token.recase_recase, Function.comp_def]

/-- The text changes case letter by letter. -/
theorem text_recase : (f.recase casing).text = casing.apply f.text := by
  rw [← String.toList_inj, Casing.toList_apply, text, text, String.toList_ofList,
    String.toList_ofList, List.map_flatMap, recase, List.flatMap_map]
  refine List.flatMap_congr fun t ht => ?_
  rw [Token.text_recase casing (f.spelled t ht), Casing.toList_apply]

theorem mem_references_recase {name : String} :
    name ∈ (f.recase casing).references ↔ ∃ v ∈ f.references, casing.apply v = name := by
  simp only [mem_references, recase, List.mem_map]
  constructor
  · rintro ⟨t, ht, hname⟩
    cases t with
    | var v => exact ⟨v, ht, by simpa [Token.recase] using hname⟩
    | number _ | operator _ | left | right => simp [Token.recase] at hname
  · rintro ⟨v, hv, rfl⟩
    exact ⟨_, hv, rfl⟩

variable {f}

theorem isValid_of_mem_references {name : String} (h : name ∈ f.references) :
    Name.isValid name :=
  Name.isValid_of_isVariableText (f.spelled _ (mem_references.1 h))

variable {casing}

/-- The references of a formula in the given case are in that case. -/
theorem canonical_of_mem_references (hf : f.recase casing = f) {name : String}
    (h : name ∈ f.references) : Name.Canonical casing name := by
  refine ⟨isValid_of_mem_references h, ?_⟩
  rw [← hf] at h
  obtain ⟨v, _, rfl⟩ := (mem_references_recase casing f).1 h
  exact casing.apply_apply v

end Formula

namespace Content

theorem recase_recase (casing : Casing) (c : Content) :
    (c.recase casing).recase casing = c.recase casing := by
  cases c with
  | formula f => exact congrArg formula (f.recase_recase casing)
  | number _ | text _ => rfl

theorem isEmpty_iff {c : Content} : c.isEmpty ↔ c = empty := by
  cases c with
  | text s => simp [isEmpty, empty]
  | number _ | formula _ => simp [isEmpty, empty]

/-- Only a formula refers to anything. -/
theorem mem_references {c : Content} {name : String} :
    name ∈ c.references ↔ ∃ f, c = formula f ∧ name ∈ f.references := by
  cases c with
  | formula f => simp [references, Std.ExtTreeSet.mem_toList]
  | number _ | text _ => simp [references]

end Content

end Worksheet
