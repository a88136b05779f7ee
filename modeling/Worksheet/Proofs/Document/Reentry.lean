import Mathlib
import Worksheet.Proofs.Document.Contents
import Worksheet.Proofs.Input

/-!
The input of a cell, entered into this cell, changes nothing.

The input is read as the content of the cell (`parseInput_ofContent`), and a cell that is set to
its own content leaves the sheet as it is, hence the values too (`set_contentAt`). Only the mark of
changes is set. This holds of every cell that is not NaN, and of empty cells (`enter_cellInput`).
-/

namespace Worksheet.Document

variable {d : Document} {name : String}

theorem cellInput_of_isValid (d : Document) (hname : Name.isValid name) :
    d.cellInput name = .ok (Input.ofContent (d.sheet.contentAt (d.sheet.casing.apply name))) := by
  rw [cellInput, content_of_isValid d hname]
  rfl

/-- The input that stands for a content of the document is read as this content. -/
theorem parseInput_ofContent (d : Document) {c : Content} (hcase : c.recase d.sheet.casing = c)
    (hnumber : ∀ x, c = .number x → x.isNaN = false) :
    d.parseInput (Input.ofContent c) = .ok c :=
  Input.parse_ofContent d.sheet.casing hcase hnumber

/-- A cell that is set to its own content is accepted; only the mark of changes is set. -/
theorem set_contentAt (hd : d.Current) (listing : Listing) (hname : Name.isValid name) :
    ∃ order, d.set listing name (d.sheet.contentAt (d.sheet.casing.apply name)) =
      ({ d with modified := true }, .ok order) := by
  obtain ⟨order, hsheet⟩ := Sheet.set_contentAt hd.consistent listing hname
  have hset := set_of_ok (d := d) (congrArg Prod.snd hsheet)
  rw [hsheet] at hset
  have hcurrent := current_set hd listing name (d.sheet.contentAt (d.sheet.casing.apply name))
  rw [hset] at hcurrent
  -- the sheet is the old one, so the values are the old ones too
  have halike : (order.foldl recompute { d with modified := true }).Alike d := by
    refine ⟨hcurrent, hd, ?_, ?_⟩
    · rw [foldl_recompute_eq]
    · rw [foldl_recompute_eq]
  have hdocument : order.foldl recompute { d with modified := true } = { d with modified := true } := by
    rw [foldl_recompute_eq, halike.values_eq]
  refine ⟨order, ?_⟩
  rw [hset]
  exact Prod.ext hdocument rfl

/-- The input of a cell, entered again, is accepted; only the mark of changes is set. -/
theorem enter_cellInput (hd : d.Current) (listing : Listing) (hname : Name.isValid name)
    (hnumber : ∀ x, d.content name = .ok (.number x) → x.isNaN = false) :
    ∃ input order, d.cellInput name = .ok input ∧
      d.enter listing name input = ({ d with modified := true }, .ok order) := by
  obtain ⟨order, hset⟩ := set_contentAt hd listing hname
  have hparse : d.parseInput
      (Input.ofContent (d.sheet.contentAt (d.sheet.casing.apply name))) =
        .ok (d.sheet.contentAt (d.sheet.casing.apply name)) := by
    refine parseInput_ofContent d (Sheet.recase_contentAt hd.consistent _) fun x hx => hnumber x ?_
    rw [content_of_isValid d hname, hx]
  refine ⟨_, order, cellInput_of_isValid d hname, ?_⟩
  rw [enter, hparse]
  exact hset

/-- However a document has come to be, the input of any cell that is not NaN, entered again, is
accepted, and all is as it was but for the mark of changes. -/
theorem enter_cellInput_run (settings : Settings) (actions : List Action) (listing : Listing)
    (hname : Name.isValid name)
    (hnumber : ∀ x, (run settings actions).content name = .ok (.number x) → x.isNaN = false) :
    ∃ input order, (run settings actions).cellInput name = .ok input ∧
      (run settings actions).enter listing name input =
        ({ run settings actions with modified := true }, .ok order) :=
  enter_cellInput (current_run settings actions) listing hname hnumber

/-- A text that is in quotes itself, and a formula that refers to it. -/
def quotedTwice : List Action :=
  [.content .sorted "a1" (.text "\"12\""),
    .content .sorted "b1" (.formula (.ofVariable "A1" (Eq.refl true)))]

theorem enter_cellInput_run_quotedTwice :
    Name.isValid "A1" ∧ (run {} quotedTwice).content "A1" = .ok (.text "\"12\"") ∧
      (run {} quotedTwice).cellInput "A1" = .ok "\"\"12\"\"" ∧
      ∃ order, (run {} quotedTwice).enter .sorted "A1" "\"\"12\"\"" =
        ({ run {} quotedTwice with modified := true }, .ok order) := by
  have hname : Name.isValid "A1" := by decide
  have hcontent : (run {} quotedTwice).content "A1" = .ok (.text "\"12\"") := by cbv
  have hinput : (run {} quotedTwice).cellInput "A1" = .ok "\"\"12\"\"" := by
    rw [cellInput, hcontent]
    rfl
  obtain ⟨input, order, hinput', henter⟩ := enter_cellInput_run {} quotedTwice .sorted hname
    fun x hx => by
      rw [hcontent] at hx
      cases hx
  rw [hinput] at hinput'
  cases hinput'
  exact ⟨hname, hcontent, hinput, order, henter⟩

end Worksheet.Document
