import Worksheet.Content
import Worksheet.Proofs.Formula.Text
import Worksheet.Proofs.Number.Text

/-!
The input that stands for a content is read as this content (`parse_ofContent`).

A text is put in quotes just if it would be read as something else without them, and both rules ask
the same questions. The input of a number or of a formula has no blanks that could be trimmed off
(`Binary64.plain_of_mem_toText`, `Formula.not_blank_of_mem_text`), and only that of a formula begins
with an equals sign. What is left is that a number reads back (`Binary64.parse?_toText`) and that a
formula does (`Formula.parse_text`). NaN is left out: two signs and many fractions are written as
one word.
-/

namespace Worksheet

theorem Text.trim_of_not_blank {s : List Char} (h : ∀ c ∈ s, isBlank c = false) : trim s = s :=
  trim_eq_self (fun c hc => h c (List.mem_of_mem_head? hc))
    fun c hc => h c (List.mem_of_mem_getLast? hc)

/-- There are no blanks in the text of a token. -/
theorem Token.not_blank_of_mem_text {t : Token} (ht : t.WellFormed) :
    ∀ c ∈ t.text.toList, Text.isBlank c = false := by
  intro c hc
  cases hop : t.isOperand with
  | true => exact Text.not_blank_of_alphanum ((alphanum_of_operand ht hop).2 c hc)
  | false =>
    obtain ⟨mark, htext, hmark⟩ := mark_of_not_operand hop
    rw [htext, List.mem_singleton] at hc
    subst hc
    rw [Bool.eq_false_iff]
    intro hblank
    -- a blank cuts nothing
    have hblanks : Text.IsBlanks [c] := fun d hd => List.mem_singleton.1 hd ▸ hblank
    have hnone := mark?_of_blanks hblanks c List.mem_cons_self
    rw [hmark] at hnone
    cases hnone

/-- There are no blanks in the text of a formula. -/
theorem Formula.not_blank_of_mem_text (f : Formula) :
    ∀ c ∈ f.text.toList, Text.isBlank c = false := by
  intro c hc
  rw [toList_text, List.mem_flatMap] at hc
  obtain ⟨t, ht, hc⟩ := hc
  exact Token.not_blank_of_mem_text (f.spelled t ht) c hc

/-- There are neither blanks nor an equals sign nor quotes in what is written for a number. -/
theorem Binary64.plain_of_mem_toText {x : Binary64} (h : x.isNaN = false) {c : Char}
    (hc : c ∈ x.toText) : Text.isBlank c = false ∧ c ≠ '=' ∧ c ≠ '"' := by
  have hkind := chars_toText h c hc
  refine ⟨?_, ?_, ?_⟩
  · rcases hkind with halpha | hdigit | rfl | rfl
    · exact Text.not_blank_of_alphanum (.inl halpha)
    · exact Text.not_blank_of_alphanum (.inr hdigit)
    · decide
    · decide
  · rintro rfl
    revert hkind
    decide
  · rintro rfl
    revert hkind
    decide

namespace Input

variable (casing : Casing)

/-- What does not begin with an equals sign is a text or a number. -/
theorem ofTrimmed_of_head? {s : List Char} (h : s.head? ≠ some '=') :
    ofTrimmed casing s =
      if isQuoted s then .ok (.text (String.ofList (s.drop 1).dropLast))
      else match Binary64.parse? s with
        | some x => .ok (.number x)
        | none => .ok (.text (String.ofList s)) := by
  unfold ofTrimmed
  split
  · exact absurd rfl h
  · rfl

/-! What is written for a number is neither trimmed nor in quotes nor a formula. -/

theorem trim_toText {x : Binary64} (h : x.isNaN = false) : Text.trim x.toText = x.toText :=
  Text.trim_of_not_blank fun _ hc => (Binary64.plain_of_mem_toText h hc).1

theorem isQuoted_toText {x : Binary64} (h : x.isNaN = false) : isQuoted x.toText = false := by
  cases hfirst : x.toText.head? with
  | none => simp [isQuoted, hfirst]
  | some c =>
    simp [isQuoted, hfirst, (Binary64.plain_of_mem_toText h (List.mem_of_mem_head? hfirst)).2.2]

theorem head?_toText_ne {x : Binary64} (h : x.isNaN = false) : x.toText.head? ≠ some '=' :=
  fun hfirst => (Binary64.plain_of_mem_toText h (List.mem_of_mem_head? hfirst)).2.1 rfl

theorem parse_number {x : Binary64} (h : x.isNaN = false) :
    parse casing (ofContent (.number x)) = .ok (.number x) := by
  rw [parse, ofContent, String.toList_ofList, trim_toText h,
    ofTrimmed_of_head? casing (head?_toText_ne h), isQuoted_toText h, Binary64.parse?_toText h]
  rfl

/-- Quotes around a text are taken off and nothing else is. -/
theorem parse_quoted (s : String) : parse casing ("\"" ++ s ++ "\"") = .ok (.text s) := by
  have hlist : ("\"" ++ s ++ "\"").toList = '"' :: (s.toList ++ ['"']) := by
    simp [String.toList_append]
  have htrim : Text.trim ('"' :: (s.toList ++ ['"'])) = '"' :: (s.toList ++ ['"']) := by
    refine Text.trim_eq_self (fun c hc => ?_) fun c hc => ?_
    · have : '"' = c := by simpa using hc
      subst this
      decide
    · have : '"' = c := by simpa [List.getLast?_cons] using hc
      subst this
      decide
  have hquoted : isQuoted ('"' :: (s.toList ++ ['"'])) = true := by
    simp [isQuoted, List.getLast?_cons]
  rw [parse, hlist, htrim, ofTrimmed_of_head? casing (by simp), if_pos hquoted]
  simp

theorem parse_text (s : String) : parse casing (ofContent (.text s)) = .ok (.text s) := by
  rw [ofContent]
  split
  · exact parse_quoted casing s
  · next hplain =>
    simp only [isAmbiguous, Bool.or_eq_true, bne_iff_ne, beq_iff_eq, not_or, not_not,
      Bool.not_eq_true, Option.isSome_eq_false_iff, Option.isNone_iff_eq_none] at hplain
    obtain ⟨⟨⟨htrim, hhead⟩, hquoted⟩, hnumber⟩ := hplain
    rw [parse, htrim, ofTrimmed_of_head? casing hhead, hquoted, hnumber]
    simp

theorem parse_formula (f : Formula) :
    parse casing (ofContent (.formula f)) = .ok (.formula (f.recase casing)) := by
  have hlist : ("=" ++ f.text).toList = '=' :: f.text.toList := by
    simp [String.toList_append]
  have htrim : Text.trim ('=' :: f.text.toList) = '=' :: f.text.toList := by
    refine Text.trim_of_not_blank fun c hc => ?_
    rcases List.mem_cons.1 hc with rfl | hc
    · decide
    · exact f.not_blank_of_mem_text c hc
  rw [parse, ofContent, hlist, htrim, ofTrimmed, String.ofList_toList, Formula.parse_text]
  rfl

/-- The input that stands for a content is read as this content, if the content is in the given
case and not NaN. -/
theorem parse_ofContent {c : Content} (hcase : c.recase casing = c)
    (hnumber : ∀ x, c = .number x → x.isNaN = false) :
    parse casing (ofContent c) = .ok c := by
  cases c with
  | number x => exact parse_number casing (hnumber x rfl)
  | text s => exact parse_text casing s
  | formula f =>
    rw [parse_formula]
    exact congrArg Except.ok hcase

end Input

end Worksheet
