import Mathlib
import Worksheet.Proofs.Document.Run
import Worksheet.Proofs.Sheet.Circular

/-!
Rejected edits change nothing.

An edit that would close a loop has already replaced the references of its cell, in both views of
the graph, when the loop is found. Putting the old ones back gives the very graph that was there
before (`Sheet.set_error`), with no name left behind that has an empty set
(`Sheet.trimmed_of_consistent`). A document does nothing else before the sheet has accepted the
edit (`set_error`, `enter_error`). `unchanged_run` says this of all calls on sheets and documents as
they come to be.
-/

namespace Worksheet

/-- A rejected call leaves what it was made on as it was. -/
def UnchangedOnError {α β ε : Type} (before : α) (outcome : α × Except ε β) : Prop :=
  ∀ e, outcome.2 = .error e → outcome.1 = before

/-- Neither view of the graph of a consistent sheet keeps a name with an empty set. -/
theorem Sheet.trimmed_of_consistent {s : Sheet} (hs : s.Consistent) :
    s.graph.dependentsOf.Trimmed ∧ s.graph.dependeesOf.Trimmed := by
  obtain ⟨E, hE, _⟩ := hs.represents
  exact ⟨hE.trimmed_dependents, hE.trimmed_dependees⟩

namespace Document

/-- Input that is rejected, as a formula or as an edit, changes nothing. -/
theorem enter_error {d : Document} {listing : Listing} (hd : d.Current) {name input : String}
    {e : EditError} (h : (d.enter listing name input).2 = .error e) :
    (d.enter listing name input).1 = d := by
  rw [enter] at h ⊢
  split at h
  · exact set_error hd h
  · rfl

/-- However a sheet has come to be, a rejected call leaves its contents, both views of its graph and
the number of edges as they were. However a document has come to be, a rejected call leaves its
sheet, its values and the mark of changes as they were. No name is left with an empty set. -/
theorem unchanged_run :
    (∀ (casing : Casing) (actions : List Sheet.Action) (listing : Listing) (name : String),
      let s := Sheet.run casing actions
      (∀ x, UnchangedOnError s (s.setNumber listing name x)) ∧
      (∀ t, UnchangedOnError s (s.setText listing name t)) ∧
      (∀ f, UnchangedOnError s (s.setFormula listing name f)) ∧
      (∀ c, UnchangedOnError s (s.set listing name c)) ∧
      s.graph.dependentsOf.Trimmed ∧ s.graph.dependeesOf.Trimmed) ∧
    (∀ (settings : Settings) (actions : List Action) (listing : Listing) (name : String),
      let d := run settings actions
      (∀ input, UnchangedOnError d (d.enter listing name input)) ∧
      (∀ c, UnchangedOnError d (d.set listing name c)) ∧
      UnchangedOnError d (d.clearCell listing name) ∧
      d.sheet.graph.dependentsOf.Trimmed ∧ d.sheet.graph.dependeesOf.Trimmed) := by
  constructor
  · intro casing actions listing name s
    have hs : s.Consistent := Sheet.consistent_run casing actions
    have hset : ∀ c, UnchangedOnError s (s.set listing name c) := fun c e => Sheet.set_error hs
    exact ⟨fun x => hset (.number x), fun t => hset (.text t), fun f => hset (.formula f), hset,
      Sheet.trimmed_of_consistent hs⟩
  · intro settings actions listing name d
    have hd : d.Current := current_run settings actions
    have hset : ∀ c, UnchangedOnError d (d.set listing name c) := fun c e => set_error hd
    exact ⟨fun input e => enter_error hd, hset, hset .empty,
      Sheet.trimmed_of_consistent hd.consistent⟩

/-- `A1` refers to `B1`, which holds a text, and nothing has changed since the document was saved. -/
def saved : Document :=
  run {}
    [.content .sorted "A1" (.formula (.ofVariable "B1" (by decide))),
      .content .sorted "B1" (.text "ten"), .markSaved]

theorem unchanged_run_saved :
    ((saved.set .sorted "B1" (.formula (.ofVariable "A1" (by decide)))).2 =
        .error (.cell (.circular { cell := "B1", path := ["B1", "A1", "B1"] })) ∧
      (saved.set .sorted "B1" (.formula (.ofVariable "A1" (by decide)))).1 = saved) ∧
    ((saved.enter .sorted "B1" "=(1").2 = .error (.formula .mismatchedParentheses) ∧
      (saved.enter .sorted "B1" "=(1").1 = saved) ∧
    ((saved.clearCell .sorted "1B").2 = .error (.cell (.invalidName "1B")) ∧
      (saved.clearCell .sorted "1B").1 = saved) := by
  have hcircular : (saved.set .sorted "B1" (.formula (.ofVariable "A1" (by decide)))).2 =
      .error (.cell (.circular { cell := "B1", path := ["B1", "A1", "B1"] })) := by cbv
  have hformula : (saved.enter .sorted "B1" "=(1").2 =
      .error (.formula .mismatchedParentheses) := by
    have hcasing : saved.sheet.casing = .upper := casing_run _ _
    have hparse : Input.parse .upper "=(1" = .error .mismatchedParentheses := rfl
    rw [enter, parseInput, hcasing, hparse]
  have hname : (saved.clearCell .sorted "1B").2 = .error (.cell (.invalidName "1B")) := by
    have hinvalid : ¬ Name.isValid "1B" := by decide
    rw [clearCell, set, Sheet.set_of_not_isValid _ _ _ hinvalid]
  have hkept := fun name => unchanged_run.2 {}
    [.content .sorted "A1" (.formula (.ofVariable "B1" (by decide))),
      .content .sorted "B1" (.text "ten"), .markSaved] .sorted name
  exact ⟨⟨hcircular, (hkept "B1").2.1 _ _ hcircular⟩, ⟨hformula, (hkept "B1").1 _ _ hformula⟩,
    ⟨hname, (hkept "1B").2.2.1 _ hname⟩⟩

end Document

end Worksheet
