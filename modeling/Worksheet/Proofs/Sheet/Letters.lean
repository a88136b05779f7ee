import Worksheet.Proofs.Formula.Letters
import Worksheet.Proofs.Sheet.Contents

/-!
Sheets in upper or in lower case, and calls that differ in the case of letters only.

Such a sheet brings every name and every formula into its own case before it looks at them, so that
one call of it cannot be told from another with the same letters (`set_letters`, `step_letters`).
What is left of the difference is the name in the answer if it is one that no cell can have. If sets
of names are listed in different orders as well, then so are the cells to recompute, and another
loop may be found; the sheet afterwards is the same. This holds of every call of a run
(`transcript_letters`).
-/

namespace Worksheet

open Text (SameLetters)

/-! ## Answers -/

/-- The results are the same, except for the name that no cell can have. -/
inductive SameResult {α : Type} : Except CellError α → Except CellError α → Prop
  | same (result : Except CellError α) : SameResult result result
  | invalidName {name name' : String} (h : SameLetters name name') :
      SameResult (.error (.invalidName name)) (.error (.invalidName name'))

/-- The reasons are the same, except for the name that no cell can have and for the path of a
loop. -/
inductive CellError.SameReason : CellError → CellError → Prop
  | invalidName {name name' : String} (h : SameLetters name name') :
      SameReason (.invalidName name) (.invalidName name')
  | circular {cycle cycle' : Cycle} (h : cycle.cell = cycle'.cell) :
      SameReason (.circular cycle) (.circular cycle')

theorem SameResult.map {α β : Type} {r r' : Except CellError α} (h : SameResult r r')
    (f : α → β) : SameResult (r.map f) (r'.map f) := by
  cases h with
  | same => exact .same _
  | invalidName h => exact .invalidName h

theorem SameResult.bind {α β : Type} {r r' : Except CellError α} (h : SameResult r r')
    (f : α → Except CellError β) : SameResult (r.bind f) (r'.bind f) := by
  cases h with
  | same => exact .same _
  | invalidName h => exact .invalidName h

/-- Another order of listing after another name. -/
theorem SameResult.sameAnswer {r r' r'' : Except CellError (List String)} (h : SameResult r r')
    (h' : SameAnswer CellError.SameKind r' r'') : SameAnswer CellError.SameReason r r'' := by
  cases h with
  | same =>
    cases h' with
    | accepted horder => exact .accepted horder
    | rejected he =>
      cases he with
      | invalidName name => exact .rejected (.invalidName rfl)
      | circular hcell => exact .rejected (.circular hcell)
  | invalidName hname =>
    cases h' with
    | rejected he =>
      cases he with
      | invalidName name' => exact .rejected (.invalidName hname)

namespace Sheet

/-- A call of a sheet: one that changes it, or a question. -/
inductive Call where
  | act (a : Action)
  | content (name : String)
  | dependents (name : String)
  | dependees (name : String)
  | recalculation (listing : Listing) (name : String)

/-- What a call answers. -/
inductive Answer where
  | done
  | cells (result : Except CellError (List String))
  | content (result : Except CellError Content)
  | names (result : Except CellError Names)

/-- The order in which the call lists sets of names, if it lists any. -/
def Call.listing? : Call → Option Listing
  | .act (.number listing _ _) | .act (.text listing _ _) | .act (.formula listing _ _)
  | .act (.content listing _ _) | .recalculation listing _ => some listing
  | .act .clear | .content _ | .dependents _ | .dependees _ => none

/-- The sheet after the call. -/
def after (s : Sheet) : Call → Sheet
  | .act a => s.perform a
  | .content _ | .dependents _ | .dependees _ | .recalculation _ _ => s

/-- What the call answers. -/
def answer (s : Sheet) : Call → Answer
  | .act (.number listing name x) => .cells (s.setNumber listing name x).2
  | .act (.text listing name t) => .cells (s.setText listing name t).2
  | .act (.formula listing name f) => .cells (s.setFormula listing name f).2
  | .act (.content listing name c) => .cells (s.set listing name c).2
  | .act .clear => .done
  | .content name => .content (s.content name)
  | .dependents name => .names (s.dependents name)
  | .dependees name => .names (s.dependees name)
  | .recalculation listing name => .cells (s.recalculation listing name)

/-- A call, its answer, and the sheet after it. -/
structure Entry where
  call : Call
  answer : Answer
  sheet : Sheet

/-- What happens in the course of the calls, one after the other. -/
def transcript (s : Sheet) : List Call → List Entry
  | [] => []
  | call :: calls =>
    { call, answer := s.answer call, sheet := s.after call } :: (s.after call).transcript calls

/-! ## Calls with the same letters -/

/-- The calls differ in the case of the letters of names and of variables only, and perhaps in the
order in which they list sets of names. -/
inductive Call.SameLetters : Call → Call → Prop
  | number (listing listing' : Listing) {name name' : String} (h : Text.SameLetters name name')
      (x : Binary64) :
      SameLetters (.act (.number listing name x)) (.act (.number listing' name' x))
  | text (listing listing' : Listing) {name name' : String} (h : Text.SameLetters name name')
      (t : String) :
      SameLetters (.act (.text listing name t)) (.act (.text listing' name' t))
  | formula (listing listing' : Listing) {name name' : String} (h : Text.SameLetters name name')
      {f f' : Formula} (hf : f.SameLetters f') :
      SameLetters (.act (.formula listing name f)) (.act (.formula listing' name' f'))
  | setContent (listing listing' : Listing) {name name' : String}
      (h : Text.SameLetters name name') {c c' : Content} (hc : c.SameLetters c') :
      SameLetters (.act (.content listing name c)) (.act (.content listing' name' c'))
  | clear : SameLetters (.act .clear) (.act .clear)
  | content {name name' : String} (h : Text.SameLetters name name') :
      SameLetters (.content name) (.content name')
  | dependents {name name' : String} (h : Text.SameLetters name name') :
      SameLetters (.dependents name) (.dependents name')
  | dependees {name name' : String} (h : Text.SameLetters name name') :
      SameLetters (.dependees name) (.dependees name')
  | recalculation (listing listing' : Listing) {name name' : String}
      (h : Text.SameLetters name name') :
      SameLetters (.recalculation listing name) (.recalculation listing' name')

/-- The answers are the same, except for the name that no cell can have, and for the order of cells
and the path of a loop unless sets of names are listed alike. -/
inductive Answer.Same (alike : Prop) : Answer → Answer → Prop
  | done : Same alike .done .done
  | cells {r r' : Except CellError (List String)} (h : SameAnswer CellError.SameReason r r')
      (hsame : alike → SameResult r r') : Same alike (.cells r) (.cells r')
  | content {r r' : Except CellError Content} (h : SameResult r r') :
      Same alike (.content r) (.content r')
  | names {r r' : Except CellError Names} (h : SameResult r r') : Same alike (.names r) (.names r')

/-- The same answer, and the same sheet after it. -/
structure Entry.Same (e e' : Entry) : Prop where
  answer : Answer.Same (e.call.listing? = e'.call.listing?) e.answer e'.answer
  sheet : e.sheet = e'.sheet

variable {s : Sheet} {name name' : String}

theorem cellName_letters (hcasing : s.casing ≠ .preserve) (h : SameLetters name name') :
    SameResult (s.cellName name) (s.cellName name') := by
  have hvalid := Name.isValid_of_sameLetters h
  by_cases hname : Name.isValid name = true
  · rw [cellName_of_isValid s hname, cellName_of_isValid s (hvalid ▸ hname), h.apply_eq hcasing]
    exact .same _
  · have hname' : ¬ Name.isValid name' = true := hvalid ▸ hname
    simp only [cellName, Name.canonical?, hname, hname']
    exact .invalidName h

/-- With the same letters an edit does the same. -/
theorem set_letters (hcasing : s.casing ≠ .preserve) (listing : Listing)
    (h : SameLetters name name') {c c' : Content} (hc : c.SameLetters c') :
    (s.set listing name c).1 = (s.set listing name' c').1 ∧
      SameResult (s.set listing name c).2 (s.set listing name' c').2 := by
  have hcell := cellName_letters hcasing h
  rw [set, set, ← hc.recase_eq hcasing]
  generalize s.cellName name = cell at hcell
  generalize s.cellName name' = cell' at hcell
  cases hcell with
  | same => exact ⟨rfl, .same _⟩
  | invalidName h => exact ⟨rfl, .invalidName h⟩

/-- With the same letters an edit leads to the same sheet, in whatever order it lists sets. -/
theorem edit_letters (hs : s.Consistent) (hcasing : s.casing ≠ .preserve)
    (listing listing' : Listing) (h : SameLetters name name') {c c' : Content}
    (hc : c.SameLetters c') :
    (s.set listing name c).1 = (s.set listing' name' c').1 ∧
      Answer.Same (some listing = some listing') (.cells (s.set listing name c).2)
        (.cells (s.set listing' name' c').2) := by
  obtain ⟨hsheet, hresult⟩ := set_letters hcasing listing h hc
  refine ⟨hsheet.trans (set_eq_set hs listing listing' name' c'), .cells ?_ fun hlisting => ?_⟩
  · exact hresult.sameAnswer (sameAnswer_set s listing listing' name' c')
  · rw [← Option.some.inj hlisting]
    exact hresult

theorem recalculation_letters (hcasing : s.casing ≠ .preserve) (listing listing' : Listing)
    (h : SameLetters name name') :
    Answer.Same (some listing = some listing') (.cells (s.recalculation listing name))
      (.cells (s.recalculation listing' name')) := by
  have hresult : SameResult (s.recalculation listing name) (s.recalculation listing name') :=
    (cellName_letters hcasing h).bind _
  refine .cells (hresult.sameAnswer ?_) fun hlisting => ?_
  · rw [recalculation, recalculation]
    cases hcell : s.cellName name' with
    | ok cell => exact Graph.sameAnswer_recalculation s.graph cell listing listing'
    | error e =>
      simp only [cellName] at hcell
      split at hcell
      · cases hcell
      · cases hcell
        exact .rejected (.invalidName name')
  · rw [← Option.some.inj hlisting]
    exact hresult

/-- One call: the same answer, and the same sheet after it. -/
theorem step_letters (hs : s.Consistent) (hcasing : s.casing ≠ .preserve) {call call' : Call}
    (h : call.SameLetters call') :
    Answer.Same (call.listing? = call'.listing?) (s.answer call) (s.answer call') ∧
      s.after call = s.after call' := by
  cases h with
  | number listing listing' h x =>
    exact (edit_letters hs hcasing listing listing' h (.number x)).symm
  | text listing listing' h t =>
    exact (edit_letters hs hcasing listing listing' h (.text t)).symm
  | formula listing listing' h hf =>
    exact (edit_letters hs hcasing listing listing' h (.formula hf)).symm
  | setContent listing listing' h hc =>
    exact (edit_letters hs hcasing listing listing' h hc).symm
  | clear => exact ⟨.done, rfl⟩
  | content h => exact ⟨.content ((cellName_letters hcasing h).map _), rfl⟩
  | dependents h => exact ⟨.names ((cellName_letters hcasing h).map _), rfl⟩
  | dependees h => exact ⟨.names ((cellName_letters hcasing h).map _), rfl⟩
  | recalculation listing listing' h =>
    exact ⟨recalculation_letters hcasing listing listing' h, rfl⟩

theorem consistent_after (hs : s.Consistent) (call : Call) : (s.after call).Consistent := by
  cases call with
  | act a => exact consistent_perform hs a
  | content _ | dependents _ | dependees _ | recalculation _ _ => exact hs

theorem casing_after (s : Sheet) (call : Call) : (s.after call).casing = s.casing := by
  cases call with
  | act a => exact casing_perform s a
  | content _ | dependents _ | dependees _ | recalculation _ _ => rfl

/-- Whole runs: the same answers, and the same sheet after every call. -/
theorem transcript_letters (hs : s.Consistent) (hcasing : s.casing ≠ .preserve)
    {calls calls' : List Call} (h : List.Forall₂ Call.SameLetters calls calls') :
    List.Forall₂ Entry.Same (s.transcript calls) (s.transcript calls') := by
  induction h generalizing s with
  | nil => exact .nil
  | @cons call call' calls calls' hcall _ ih =>
    obtain ⟨hanswer, hsheet⟩ := step_letters hs hcasing hcall
    rw [transcript, transcript]
    refine .cons ⟨hanswer, hsheet⟩ ?_
    rw [← hsheet]
    exact ih (consistent_after hs call) (by rwa [casing_after])

end Sheet

end Worksheet
