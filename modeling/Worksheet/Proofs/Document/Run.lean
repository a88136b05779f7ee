import Worksheet.Document
import Worksheet.Proofs.Sheet.Run
import Worksheet.Proofs.Sheet.Values

/-!
The values that a document keeps are never out of date.

`Document.Current d` says that every kept value is the value of its cell's content with the other
kept values. An edit recomputes some cells only, one after the other. While that goes on the cells
that are still to come may be wrong and all others are right (`valueAt_foldl_recompute`): the cells
to come contain everything that refers to the cell just computed, and that cell is no longer one
of them. So every edit keeps the document current (`current_perform`), and by the uniqueness of
`Sheet.valueOf` its values are those that recursion along the references gives (`values_run`).
-/

namespace Worksheet.Document

open Relation

variable {d : Document} {listing : Listing} {cell : String} {order : List String}

/-! ## Recomputing along an order -/

theorem valueAt_eq (d : Document) (cell : String) : d.valueAt cell = d.values[cell]?.getD .empty :=
  Std.ExtTreeMap.getD_eq_getD_getElem?

theorem valueAt_of_getElem? {v : Value} (h : d.values[cell]? = some v) : d.valueAt cell = v := by
  rw [valueAt_eq, h, Option.getD_some]

theorem getElem?_recompute (d : Document) (cell a : String) :
    (d.recompute cell).values[a]? =
      if cell = a then (if (d.computed cell).isEmpty then none else some (d.computed cell))
      else d.values[a]? := by
  simp only [recompute]
  by_cases h : (d.computed cell).isEmpty = true
  · simp only [h, if_true, Std.ExtTreeMap.getElem?_erase, Std.LawfulEqOrd.compare_eq_iff_eq]
  · simp only [h, Bool.false_eq_true, if_false, Std.ExtTreeMap.getElem?_insert,
      Std.LawfulEqOrd.compare_eq_iff_eq]

theorem valueAt_recompute (d : Document) (cell a : String) :
    (d.recompute cell).valueAt a = if cell = a then d.computed cell else d.valueAt a := by
  rw [valueAt_eq, valueAt_eq, getElem?_recompute]
  split
  · split
    · next h => exact (Value.isEmpty_iff.1 h).symm
    · rfl
  · rfl

theorem sheet_recompute (d : Document) (cell : String) : (d.recompute cell).sheet = d.sheet := rfl

@[simp] theorem sheet_foldl_recompute (d : Document) (order : List String) :
    (order.foldl recompute d).sheet = d.sheet := by
  induction order generalizing d with
  | nil => rfl
  | cons cell order ih => rw [List.foldl_cons, ih, sheet_recompute]

theorem computed_of_canonical (h : Name.Canonical d.sheet.casing cell) :
    d.computed cell = Value.ofContent d.valueAt (d.sheet.contentAt cell) := by
  rw [computed, Sheet.content, Sheet.cellName_of_canonical h]
  rfl

/-- The kept value of the cell is that of its content with the other kept values. -/
def UpToDate (d : Document) (cell : String) : Prop :=
  d.valueAt cell = Value.ofContent d.valueAt (d.sheet.contentAt cell)

/-- A cell computed anew is up to date, and so stays every cell that does not refer to it. -/
theorem upToDate_recompute {a : String} (hcell : Name.Canonical d.sheet.casing cell)
    (ha : a ≠ cell → d.UpToDate a) (hrefers : ¬ d.sheet.RefersTo cell a) :
    (d.recompute cell).UpToDate a := by
  have hvalues : Value.ofContent d.valueAt (d.sheet.contentAt a) =
      Value.ofContent (d.recompute cell).valueAt (d.sheet.contentAt a) := by
    refine Value.ofContent_congr fun name hname => ?_
    have hne : cell ≠ name := fun h => hrefers (h ▸ hname)
    rw [valueAt_recompute, if_neg hne]
  rw [UpToDate, sheet_recompute, ← hvalues, valueAt_recompute]
  split
  · next h => rw [computed_of_canonical hcell, h]
  · next h => exact ha (Ne.symm h)

/-- After all names of a sorted order have been computed, every cell is up to date. -/
theorem upToDate_foldl_recompute {next : String → List String} (hsorted : Walk.Sorted next order)
    (hnodup : order.Nodup) (hnext : ∀ a b, b ∈ next a ↔ d.sheet.RefersTo a b)
    (hcanonical : ∀ a ∈ order, Name.Canonical d.sheet.casing a)
    (hrest : ∀ a, a ∉ order → d.UpToDate a) (a : String) : (order.foldl recompute d).UpToDate a := by
  induction order generalizing d with
  | nil => exact hrest a List.not_mem_nil
  | cons cell later ih =>
    obtain ⟨hbefore, hsorted⟩ := hsorted
    obtain ⟨hfresh, hnodup⟩ := List.nodup_cons.1 hnodup
    refine ih hsorted hnodup hnext (fun b hb => hcanonical b (List.mem_cons_of_mem _ hb)) ?_
    intro b hb
    -- what refers to `cell` is still to come, and neither `cell` nor `b` is
    refine upToDate_recompute (hcanonical cell List.mem_cons_self) (fun hne => ?_) fun hrefers => ?_
    · refine hrest b fun hmem => ?_
      rcases List.mem_cons.1 hmem with h | h
      · exact hne h
      · exact hb h
    · exact hb (hbefore b ((hnext cell b).2 hrefers))

/-! ## Current documents -/

/-- The sheet is consistent, all kept values are up to date, and no empty value is kept. -/
structure Current (d : Document) : Prop where
  consistent : d.sheet.Consistent
  upToDate : ∀ cell, d.UpToDate cell
  nonempty : ∀ (cell : String) v, d.values[cell]? = some v → v.isEmpty = false

theorem current_of_empty (casing : Casing) (modified : Bool) (settings : Settings) :
    Current { sheet := .empty casing, values := ∅, modified, settings } where
  consistent := Sheet.consistent_empty casing
  upToDate cell := by
    rw [UpToDate, valueAt_eq, Sheet.contentAt_eq]
    simp [Sheet.empty, Content.empty, Value.ofContent]
  nonempty cell v h := by simp at h

theorem nonempty_foldl_recompute
    (h : ∀ (cell : String) v, d.values[cell]? = some v → v.isEmpty = false) (order : List String)
    {a : String} {v : Value} (ha : (order.foldl recompute d).values[a]? = some v) :
    v.isEmpty = false := by
  induction order generalizing d with
  | nil => exact h a v ha
  | cons cell order ih =>
    refine ih (fun b w hb => ?_) ha
    rw [getElem?_recompute] at hb
    split at hb
    · split at hb
      · cases hb
      · next hempty =>
        cases hb
        simpa using hempty
    · exact h b w hb

/-- The names to recompute after a change of a canonical name are canonical. -/
theorem canonical_of_reaches {s : Sheet} (hs : s.Consistent)
    (hcell : Name.Canonical s.casing cell) {a : String} (ha : ReflTransGen s.graph.Edge cell a) :
    Name.Canonical s.casing a := by
  induction ha with
  | refl => exact hcell
  | tail _ hbc _ => exact (Sheet.canonical_of_refersTo hs ((Sheet.edge_iff_refersTo hs).1 hbc)).2

/-- Recomputing what depends on an edited cell makes the document current again. -/
theorem current_foldl_recompute (hd : d.Current) {sheet : Sheet} {modified : Bool}
    (hsheet : sheet.Consistent) (hcell : Name.Canonical sheet.casing cell)
    (hcontents : ∀ a, a ≠ cell → sheet.contentAt a = d.sheet.contentAt a)
    (hrun : sheet.graph.recalculation listing cell = .ok order) :
    (order.foldl recompute { d with sheet, modified }).Current := by
  have hcomplete := Graph.recalculation_ok hrun
  constructor
  · rw [sheet_foldl_recompute]
    exact hsheet
  · refine upToDate_foldl_recompute hcomplete.sorted hcomplete.nodup ?_ ?_ ?_
    · intro a b
      rw [listing.mem_list]
      exact Sheet.edge_iff_refersTo hsheet
    · intro a ha
      have hreach := (hcomplete.mem_iff a).1 ha
      rw [Graph.leads_list] at hreach
      exact canonical_of_reaches hsheet hcell hreach
    · intro a ha
      have hne : a ≠ cell := fun h => ha (h ▸ hcomplete.start_mem)
      have hold := hd.upToDate a
      rw [UpToDate, ← hcontents a hne] at hold
      exact hold
  · intro a v hv
    exact nonempty_foldl_recompute (d := { d with sheet, modified }) hd.nonempty order hv

/-- A rejected edit changes nothing. -/
theorem set_error (hd : d.Current) {name : String} {c : Content} {e : EditError}
    (h : (d.set listing name c).2 = .error e) : (d.set listing name c).1 = d := by
  cases hanswer : (d.sheet.set listing name c).2 with
  | ok order => simp only [set, hanswer, reduceCtorEq] at h
  | error e' =>
    simp only [set, hanswer]
    rw [Sheet.set_error hd.consistent hanswer]

theorem set_of_ok {name : String} {c : Content}
    (h : (d.sheet.set listing name c).2 = .ok order) :
    d.set listing name c =
      (order.foldl recompute { d with sheet := (d.sheet.set listing name c).1, modified := true },
        .ok order) := by
  simp only [set, h]

theorem sheet_set (listing : Listing) (d : Document) (name : String) (c : Content) :
    (d.set listing name c).1.sheet = (d.sheet.set listing name c).1 := by
  cases hanswer : (d.sheet.set listing name c).2 with
  | ok order => rw [set_of_ok hanswer, sheet_foldl_recompute]
  | error e => simp only [set, hanswer]

theorem current_set (hd : d.Current) (listing : Listing) (name : String) (c : Content) :
    (d.set listing name c).1.Current := by
  cases hanswer : (d.sheet.set listing name c).2 with
  | error e =>
    rw [set_error hd (e := .cell e) (by simp only [set, hanswer])]
    exact hd
  | ok order =>
    obtain ⟨hname, hcontents, hrun⟩ := Sheet.set_ok hanswer
    have hsheet := Sheet.consistent_set hd.consistent listing name c
    have hcell : Name.Canonical (d.sheet.set listing name c).1.casing
        (d.sheet.casing.apply name) := by
      rw [Sheet.casing_set]
      exact Name.canonical_apply d.sheet.casing hname
    rw [set_of_ok hanswer]
    refine current_foldl_recompute hd hsheet hcell (fun a ha => ?_) hrun
    rw [hcontents, if_neg (Ne.symm ha)]

/-! ## Documents as they come to be -/

/-- A call that changes a document, and the order in which it lists sets of names. -/
inductive Action where
  | enter (listing : Listing) (name input : String)
  | content (listing : Listing) (name : String) (c : Content)
  | clearCell (listing : Listing) (name : String)
  | clear
  | markSaved

/-- The document after the call, be it accepted or rejected. -/
def perform (d : Document) : Action → Document
  | .enter listing name input => (d.enter listing name input).1
  | .content listing name c => (d.set listing name c).1
  | .clearCell listing name => (d.clearCell listing name).1
  | .clear => d.clear
  | .markSaved => d.markSaved

/-- The document after the calls on a new document. -/
def run (settings : Settings) (actions : List Action) : Document :=
  actions.foldl perform (empty settings)

theorem current_perform (hd : d.Current) (a : Action) : (d.perform a).Current := by
  cases a with
  | enter listing name input =>
    rw [perform, enter]
    split
    · next c _ => exact current_set hd listing name c
    · exact hd
  | content listing name c => exact current_set hd listing name c
  | clearCell listing name => exact current_set hd listing name .empty
  | clear => exact current_of_empty d.sheet.casing true d.settings
  | markSaved => exact ⟨hd.consistent, hd.upToDate, hd.nonempty⟩

theorem current_foldl (hd : d.Current) (actions : List Action) :
    (actions.foldl perform d).Current := by
  induction actions generalizing d with
  | nil => exact hd
  | cons a actions ih => exact ih (current_perform hd a)

theorem current_run (settings : Settings) (actions : List Action) :
    (run settings actions).Current :=
  current_foldl (current_of_empty settings.casing false settings) actions

theorem casing_perform (d : Document) (a : Action) :
    (d.perform a).sheet.casing = d.sheet.casing := by
  cases a with
  | enter listing name input =>
    rw [perform, enter]
    split
    · next c _ => rw [sheet_set, Sheet.casing_set]
    · rfl
  | content listing name c => rw [perform, sheet_set, Sheet.casing_set]
  | clearCell listing name => rw [perform, clearCell, sheet_set, Sheet.casing_set]
  | clear => rfl
  | markSaved => rfl

theorem casing_foldl (d : Document) (actions : List Action) :
    (actions.foldl perform d).sheet.casing = d.sheet.casing := by
  induction actions generalizing d with
  | nil => rfl
  | cons a actions ih => rw [List.foldl_cons, ih, casing_perform]

theorem casing_run (settings : Settings) (actions : List Action) :
    (run settings actions).sheet.casing = settings.casing :=
  casing_foldl (empty settings) actions

/-! ## Contents and values by name -/

theorem content_of_isValid (d : Document) {name : String} (hname : Name.isValid name) :
    d.content name = .ok (d.sheet.contentAt (d.sheet.casing.apply name)) := by
  rw [content, Sheet.content, Sheet.cellName_of_isValid d.sheet hname]
  rfl

theorem value_of_isValid (d : Document) {name : String} (hname : Name.isValid name) :
    d.value name = .ok (d.valueAt (d.sheet.casing.apply name)) := by
  rw [value, Sheet.cellName_of_isValid d.sheet hname]
  rfl

/-- A content is found under a valid name only. -/
theorem content_eq_ok_iff {name : String} {c : Content} :
    d.content name = .ok c ↔
      Name.isValid name ∧ d.sheet.contentAt (d.sheet.casing.apply name) = c := by
  by_cases hname : Name.isValid name = true
  · rw [content_of_isValid d hname, Except.ok.injEq, and_iff_right hname]
  · simp [content, Sheet.content, Sheet.cellName, Name.canonical?, hname, Except.map]

/-- The value of a cell is that of its content. -/
theorem Current.value_of_content (hd : d.Current) {name : String} {c : Content}
    (h : d.content name = .ok c) : d.value name = .ok (Value.ofContent d.valueAt c) := by
  obtain ⟨hname, hc⟩ := content_eq_ok_iff.1 h
  rw [value_of_isValid d hname, hd.upToDate, hc]

/-! ## Values by recursion -/

/-- The values of a current document are those that recursion along the references gives. -/
theorem Current.valueAt_eq (hd : d.Current) (hwf : WellFounded d.sheet.RefersTo) (cell : String) :
    d.valueAt cell = d.sheet.valueOf hwf cell :=
  Sheet.eq_valueOf hwf hd.upToDate cell

/-- A current document keeps values for the cells with something in them and no others. -/
theorem Current.mem_values_iff (hd : d.Current) (cell : String) :
    cell ∈ d.values ↔ cell ∈ d.sheet.cells := by
  have hvalue : (d.valueAt cell).isEmpty = (d.sheet.contentAt cell).isEmpty := by
    rw [hd.upToDate cell, Value.isEmpty_ofContent]
  rw [Document.valueAt_eq, Sheet.contentAt_eq] at hvalue
  rw [Std.ExtTreeMap.mem_iff_isSome_getElem?, Std.ExtTreeMap.mem_iff_isSome_getElem?]
  cases hv : d.values[cell]? with
  | none =>
    cases hc : d.sheet.cells[cell]? with
    | none => rfl
    | some c =>
      rw [hv, hc, Option.getD_some, (hd.consistent.keeps cell c hc).nonempty] at hvalue
      cases hvalue
  | some v =>
    cases hc : d.sheet.cells[cell]? with
    | none =>
      rw [hv, hc, Option.getD_some, hd.nonempty cell v hv] at hvalue
      cases hvalue
    | some c => rfl

/-- However a document has come to be, references in its contents are well founded, and the value
of every cell is what recursion along them gives. Values are kept for the cells with something in
them and no others, and none of them is out of date. -/
theorem values_run (settings : Settings) (actions : List Action) :
    ∃ hwf : WellFounded (run settings actions).sheet.RefersTo,
      (∀ cell, (run settings actions).sheet.valueOf hwf cell =
        Value.ofContent ((run settings actions).sheet.valueOf hwf)
          ((run settings actions).sheet.contentAt cell)) ∧
      (∀ name, Name.isValid name →
        (run settings actions).value name =
          .ok ((run settings actions).sheet.valueOf hwf (settings.casing.apply name))) ∧
      (∀ cell, cell ∈ (run settings actions).values ↔
        cell ∈ (run settings actions).sheet.cells) ∧
      (∀ (cell : String) v, (run settings actions).values[cell]? = some v →
        v = (run settings actions).sheet.valueOf hwf cell) := by
  have hd : (run settings actions).Current := current_run settings actions
  have hwf := Sheet.wellFounded_refersTo hd.consistent
  refine ⟨hwf, Sheet.valueOf_eq hwf, ?_, hd.mem_values_iff, ?_⟩
  · intro name hname
    rw [value_of_isValid _ hname, casing_run, ← hd.valueAt_eq hwf]
  · intro cell v hv
    rw [← hd.valueAt_eq hwf, valueAt_of_getElem? hv]

end Worksheet.Document
