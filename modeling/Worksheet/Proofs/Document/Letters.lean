import Mathlib
import Worksheet.Proofs.Document.Contents
import Worksheet.Proofs.Sheet.Letters

/-!
The case of letters does not matter in upper or in lower case.

What holds of the sheet of a document (`Sheet.transcript_letters`) holds of the document: an edit
and another one with the same letters lead to documents that show the same (`alike_set_letters`),
since the values are known when the contents are. `letters_run` says so of sheets and of documents
as they come to be, after every single call.
-/

namespace Worksheet.Document

open Text (SameLetters)

variable {d d' : Document} {casing : Casing}

/-- With the same letters an edit does the same. -/
theorem set_letters (hcasing : d.sheet.casing ≠ .preserve) (listing : Listing)
    {name name' : String} (h : SameLetters name name') {c c' : Content} (hc : c.SameLetters c') :
    (d.set listing name c).1 = (d.set listing name' c').1 := by
  obtain ⟨hsheet, hresult⟩ := Sheet.set_letters hcasing listing h hc
  unfold set
  generalize d.sheet.set listing name c = outcome at hsheet hresult
  generalize d.sheet.set listing name' c' = outcome' at hsheet hresult
  obtain ⟨sheet, result⟩ := outcome
  obtain ⟨sheet', result'⟩ := outcome'
  obtain rfl : sheet = sheet' := hsheet
  cases hresult with
  | same => rfl
  | invalidName _ => rfl

theorem alike_set_letters (hd : d.Alike d') (hcasing : d.sheet.casing ≠ .preserve)
    (listing listing' : Listing) {name name' : String} (h : SameLetters name name')
    {c c' : Content} (hc : c.SameLetters c') :
    (d.set listing name c).1.Alike (d'.set listing' name' c').1 := by
  rw [set_letters hcasing listing h hc]
  exact alike_set hd listing listing' name' c'

/-- The calls differ in the case of the letters of names and of variables only, and perhaps in the
order in which they list sets of names. -/
inductive Action.SameLetters : Action → Action → Prop
  | content (listing listing' : Listing) {name name' : String} (h : Text.SameLetters name name')
      {c c' : Content} (hc : c.SameLetters c') :
      SameLetters (.content listing name c) (.content listing' name' c')
  | clearCell (listing listing' : Listing) {name name' : String}
      (h : Text.SameLetters name name') :
      SameLetters (.clearCell listing name) (.clearCell listing' name')
  | clear : SameLetters .clear .clear
  | markSaved : SameLetters .markSaved .markSaved

theorem alike_perform_letters (hd : d.Alike d') (hcasing : d.sheet.casing ≠ .preserve)
    {a a' : Action} (h : a.SameLetters a') : (d.perform a).Alike (d'.perform a') := by
  cases h with
  | content listing listing' h hc => exact alike_set_letters hd hcasing listing listing' h hc
  | clearCell listing listing' h =>
    exact alike_set_letters hd hcasing listing listing' h (.text "")
  | clear => exact alike_perform hd .clear
  | markSaved => exact alike_perform hd .markSaved

/-- Whole runs: what is shown is the same at the beginning and after every call. -/
theorem scanl_letters (hd : d.Alike d') (hcasing : d.sheet.casing ≠ .preserve)
    {actions actions' : List Action} (h : List.Forall₂ Action.SameLetters actions actions') :
    List.Forall₂ Agree (actions.scanl perform d) (actions'.scanl perform d') := by
  induction h generalizing d d' with
  | nil => exact .cons hd.agree .nil
  | @cons a a' actions actions' ha _ ih =>
    rw [List.scanl_cons, List.scanl_cons]
    exact .cons hd.agree (ih (alike_perform_letters hd hcasing ha) (by rwa [casing_perform]))

/-- In upper or in lower case the case of letters does not matter. Formulas that are read in any
cases from texts with the same letters have the same letters. Calls of a new sheet that differ in
the case of letters only leave the same sheet one by one, and their answers are the same, except for
a name that no cell can have. Edits of a new document that differ in the case of letters only leave
documents one by one that show the same. -/
theorem letters_run (hcasing : casing ≠ .preserve) :
    (∀ (one other : Casing) (s s' : String) (f f' : Formula), SameLetters s s' →
      Formula.parse one s = .ok f → Formula.parse other s' = .ok f' → f.SameLetters f') ∧
    (∀ calls calls', List.Forall₂ Sheet.Call.SameLetters calls calls' →
      List.Forall₂ Sheet.Entry.Same ((Sheet.empty casing).transcript calls)
        ((Sheet.empty casing).transcript calls')) ∧
    ∀ decimals actions actions', List.Forall₂ Action.SameLetters actions actions' →
      List.Forall₂ Agree (actions.scanl perform (empty { casing, decimals }))
        (actions'.scanl perform (empty { casing, decimals })) := by
  refine ⟨?_, fun calls calls' h => ?_, fun decimals actions actions' h => ?_⟩
  · exact fun one other s s' f f' h hf hf' => Formula.sameLetters_of_parse h hf hf'
  · exact Sheet.transcript_letters (Sheet.consistent_empty casing) hcasing h
  · have hcurrent : (empty { casing, decimals }).Current :=
      current_of_empty casing false { casing, decimals }
    exact scanl_letters ⟨hcurrent, hcurrent, rfl, rfl⟩ hcasing h

/-- `A1` comes to refer to `B1`, a loop is rejected, and no cell can have the name asked for. -/
def spelled : List Sheet.Call :=
  [.act (.formula .sorted "A1" (.ofVariable "B1" (Eq.refl true))),
    .act (.content .sorted "B1" (.formula (.ofVariable "A1" (Eq.refl true)))), .content "1A"]

/-- The same in other letters. -/
def respelled : List Sheet.Call :=
  [.act (.formula .reversed "a1" (.ofVariable "b1" (Eq.refl true))),
    .act (.content .sorted "b1" (.formula (.ofVariable "a1" (Eq.refl true)))), .content "1a"]

theorem letters_run_respelled :
    (∃ f f', Formula.parse .preserve "A1*b2" = .ok f ∧ Formula.parse .lower "a1*B2" = .ok f' ∧
      f.SameLetters f') ∧
    List.Forall₂ Sheet.Entry.Same ((Sheet.empty .upper).transcript spelled)
      ((Sheet.empty .upper).transcript respelled) ∧
    ((Sheet.empty .upper).transcript respelled).map Sheet.Entry.answer =
      [.cells (.ok ["A1"]),
        .cells (.error (.circular { cell := "B1", path := ["B1", "A1", "B1"] })),
        .content (.error (.invalidName "1a"))] ∧
    List.Forall₂ Agree
      ([.content .sorted "A1" (.text "x"), .clearCell .sorted "a1"].scanl perform (empty {}))
      ([.content .reversed "a1" (.text "x"), .clearCell .sorted "A1"].scanl perform
        (empty {})) := by
  have hA : SameLetters "A1" "a1" := by unfold SameLetters; cbv
  have hB : SameLetters "B1" "b1" := by unfold SameLetters; cbv
  have h1A : SameLetters "1A" "1a" := by unfold SameLetters; cbv
  have htext : SameLetters "A1*b2" "a1*B2" := by unfold SameLetters; cbv
  have hvarA : Formula.SameLetters (.ofVariable "A1" (by decide))
      (.ofVariable "a1" (by decide)) := by
    unfold Formula.SameLetters SameLetters
    cbv
  have hvarB : Formula.SameLetters (.ofVariable "B1" (by decide))
      (.ofVariable "b1" (by decide)) := by
    unfold Formula.SameLetters SameLetters
    cbv
  have hcalls : List.Forall₂ Sheet.Call.SameLetters spelled respelled :=
    .cons (.formula .sorted .reversed hA hvarB)
      (.cons (.setContent .sorted .sorted hB (.formula hvarA)) (.cons (.content h1A) .nil))
  have hupper : Casing.upper ≠ .preserve := by decide
  obtain ⟨hformulas, hsheet, hdocument⟩ := letters_run hupper
  refine ⟨⟨_, _, rfl, rfl, hformulas .preserve .lower _ _ _ _ htext rfl rfl⟩,
    hsheet _ _ hcalls, by cbv, ?_⟩
  exact hdocument 2 _ _ (.cons (.content .sorted .reversed hA (.text "x"))
    (.cons (.clearCell .sorted .sorted hA.symm) .nil))

end Worksheet.Document
