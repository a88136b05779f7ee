import Worksheet.Proofs.Sheet.Edit

/-!
Sheets as they come to be: from an empty sheet, by any calls that set cells or clear the sheet. A
call may be accepted or rejected, may bring a formula in any case, and lists sets of names in an
order of its own.

Every such sheet is consistent (`consistent_run`). So there is no loop anywhere in its graph
(`acyclic_run`), and graph and contents say the same of every cell, those that were never set or are
empty again included (`faithful_run`).
-/

namespace Worksheet.Sheet

open Relation

/-- A call that changes a sheet, and the order in which it lists sets of names. -/
inductive Action where
  | number (listing : Listing) (name : String) (x : Binary64)
  | text (listing : Listing) (name t : String)
  | formula (listing : Listing) (name : String) (f : Formula)
  | content (listing : Listing) (name : String) (c : Content)
  | clear

/-- The sheet after the call, be it accepted or rejected. -/
def perform (s : Sheet) : Action → Sheet
  | .number listing name x => (s.setNumber listing name x).1
  | .text listing name t => (s.setText listing name t).1
  | .formula listing name f => (s.setFormula listing name f).1
  | .content listing name c => (s.set listing name c).1
  | .clear => s.clear

/-- The sheet after the calls on a new sheet. -/
def run (casing : Casing) (actions : List Action) : Sheet :=
  actions.foldl perform (empty casing)

variable {s : Sheet}

theorem consistent_perform (hs : s.Consistent) (a : Action) : (s.perform a).Consistent := by
  cases a with
  | number listing name x => exact consistent_set hs listing name (.number x)
  | text listing name t => exact consistent_set hs listing name (.text t)
  | formula listing name f => exact consistent_set hs listing name (.formula f)
  | content listing name c => exact consistent_set hs listing name c
  | clear => exact consistent_empty s.casing

@[simp] theorem casing_perform (s : Sheet) (a : Action) : (s.perform a).casing = s.casing := by
  cases a with
  | number listing name x => exact casing_set listing s name (.number x)
  | text listing name t => exact casing_set listing s name (.text t)
  | formula listing name f => exact casing_set listing s name (.formula f)
  | content listing name c => exact casing_set listing s name c
  | clear => rfl

theorem consistent_foldl (hs : s.Consistent) (actions : List Action) :
    (actions.foldl perform s).Consistent := by
  induction actions generalizing s with
  | nil => exact hs
  | cons a actions ih => exact ih (consistent_perform hs a)

theorem casing_foldl (s : Sheet) (actions : List Action) :
    (actions.foldl perform s).casing = s.casing := by
  induction actions generalizing s with
  | nil => rfl
  | cons a actions ih => rw [List.foldl_cons, ih, casing_perform]

theorem consistent_run (casing : Casing) (actions : List Action) :
    (run casing actions).Consistent :=
  consistent_foldl (consistent_empty casing) actions

theorem casing_run (casing : Casing) (actions : List Action) :
    (run casing actions).casing = casing :=
  casing_foldl (empty casing) actions

/-! ## No loops -/

theorem recalculation_of_consistent (hs : s.Consistent) (listing : Listing) {name : String}
    (hname : Name.isValid name) : ∃ order, s.recalculation listing name = .ok order := by
  obtain ⟨order, hrun⟩ := (Graph.recalculation_isOk_iff listing s.graph (s.casing.apply name)).2
    fun a _ => hs.acyclic a
  refine ⟨order, ?_⟩
  rw [recalculation, cellName_of_isValid s hname]
  show (s.graph.recalculation listing (s.casing.apply name)).mapError CellError.circular =
    .ok order
  rw [hrun]
  rfl

theorem set_of_no_references (hs : s.Consistent) (listing : Listing) {name : String} {c : Content}
    (hname : Name.isValid name) (hc : (c.recase s.casing).references = []) :
    ∃ order, (s.set listing name c).2 = .ok order := by
  rw [set_of_isValid listing s c hname]
  exact setAt_of_no_references hs listing _ hc

/-- However a sheet has come to be, no cell in it reaches itself. So an order of recalculation is
found for every cell, and only a formula can be rejected. -/
theorem acyclic_run (casing : Casing) (actions : List Action) :
    (∀ a, ¬ TransGen (run casing actions).graph.Edge a a) ∧
    (∀ listing name, Name.isValid name →
      ∃ order, (run casing actions).recalculation listing name = .ok order) ∧
    (∀ listing name x, Name.isValid name →
      ∃ order, ((run casing actions).setNumber listing name x).2 = .ok order) ∧
    (∀ listing name t, Name.isValid name →
      ∃ order, ((run casing actions).setText listing name t).2 = .ok order) := by
  have hs : (run casing actions).Consistent := consistent_run casing actions
  refine ⟨hs.acyclic, ?_, ?_, ?_⟩
  · intro listing name hname
    exact recalculation_of_consistent hs listing hname
  · intro listing name x hname
    exact set_of_no_references hs listing hname rfl
  · intro listing name t hname
    exact set_of_no_references hs listing hname rfl

/-! ## Graph and contents -/

/-- Graph and contents say the same, and all that is kept is in the sheet's case. -/
structure Faithful (s : Sheet) : Prop where
  /-- The dependees of a cell are the variables of the formula in it. -/
  mem_dependees : ∀ v cell, v ∈ s.graph.dependees cell ↔
    ∃ f, s.cells[cell]? = some (.formula f) ∧ v ∈ f.references
  /-- The dependents of a name are the cells with a formula that has it as a variable. -/
  mem_dependents : ∀ v cell, cell ∈ s.graph.dependents v ↔
    ∃ f, s.cells[cell]? = some (.formula f) ∧ v ∈ f.references
  /-- The dependees that the sheet reports of a cell. -/
  dependees_eq : ∀ name, Name.isValid name →
    ∃ c, s.content name = .ok c ∧
      s.dependees name = .ok (match c with | .formula f => f.references | _ => ∅)
  /-- The dependents that the sheet reports of a cell. -/
  dependents_eq : ∀ name, Name.isValid name →
    ∃ cells, s.dependents name = .ok cells ∧ ∀ cell, cell ∈ cells ↔
      ∃ f, s.cells[cell]? = some (.formula f) ∧ s.casing.apply name ∈ f.references
  canonical_of_mem : ∀ cell ∈ s.cells, Name.Canonical s.casing cell
  canonical_of_mem_dependentsOf : ∀ v ∈ s.graph.dependentsOf,
    Name.Canonical s.casing v ∧ ∀ cell ∈ s.graph.dependents v, Name.Canonical s.casing cell
  canonical_of_mem_dependeesOf : ∀ cell ∈ s.graph.dependeesOf,
    Name.Canonical s.casing cell ∧ ∀ v ∈ s.graph.dependees cell, Name.Canonical s.casing v
  /-- Formulas are kept in the sheet's case, in text and in variables. -/
  formula_recased : ∀ (cell : String) (f : Formula), s.cells[cell]? = some (.formula f) →
    f.recase s.casing = f ∧ s.casing.apply f.text = f.text ∧
      ∀ v ∈ f.references, s.casing.apply v = v
  /-- Nothing is kept for an empty cell. -/
  not_empty : ∀ cell : String, s.cells[cell]? ≠ some (.text "")

theorem dependees_of_consistent (hs : s.Consistent) (cell : String) :
    s.graph.dependees cell =
      match s.contentAt cell with
      | .formula f => f.references
      | _ => ∅ := by
  refine Std.ExtTreeSet.ext_mem fun v => ?_
  rw [mem_dependees_iff_refersTo hs, RefersTo, Content.mem_references]
  cases s.contentAt cell with
  | formula f => simp
  | number _ | text _ => simp

theorem faithful_of_consistent (hs : s.Consistent) : s.Faithful where
  mem_dependees v cell := (mem_dependees_iff_refersTo hs).trans refersTo_iff
  mem_dependents v cell := (edge_iff_refersTo hs).trans refersTo_iff
  dependees_eq name hname := by
    refine ⟨s.contentAt (s.casing.apply name), ?_, ?_⟩
    · rw [content, cellName_of_isValid s hname]
      rfl
    · rw [dependees, cellName_of_isValid s hname, ← dependees_of_consistent hs]
      rfl
  dependents_eq name hname := by
    refine ⟨s.graph.dependents (s.casing.apply name), ?_, fun cell => ?_⟩
    · rw [dependents, cellName_of_isValid s hname]
      rfl
    · exact (edge_iff_refersTo hs).trans refersTo_iff
  canonical_of_mem cell hcell := by
    rw [Std.ExtTreeMap.mem_iff_isSome_getElem?, Option.isSome_iff_exists] at hcell
    obtain ⟨c, hc⟩ := hcell
    exact (hs.keeps cell c hc).canonical
  canonical_of_mem_dependentsOf v hv := by
    obtain ⟨E, hE, _⟩ := hs.represents
    obtain ⟨cell, hcell⟩ := (Links.mem_iff_of_trimmed hE.trimmed_dependents).1 hv
    exact ⟨(canonical_of_refersTo hs ((edge_iff_refersTo hs).1 hcell)).1,
      fun b hb => (canonical_of_refersTo hs ((edge_iff_refersTo hs).1 hb)).2⟩
  canonical_of_mem_dependeesOf cell hcell := by
    obtain ⟨E, hE, _⟩ := hs.represents
    obtain ⟨v, hv⟩ := (Links.mem_iff_of_trimmed hE.trimmed_dependees).1 hcell
    exact ⟨(canonical_of_refersTo hs ((mem_dependees_iff_refersTo hs).1 hv)).2,
      fun a ha => (canonical_of_refersTo hs ((mem_dependees_iff_refersTo hs).1 ha)).1⟩
  formula_recased cell f hf := by
    have hrecased : f.recase s.casing = f := Content.formula.inj (hs.keeps cell _ hf).recased
    refine ⟨hrecased, ?_, fun v hv => (Formula.canonical_of_mem_references hrecased hv).2⟩
    rw [← Formula.text_recase, hrecased]
  not_empty cell hcell := by
    have hnonempty := (hs.keeps cell _ hcell).nonempty
    simp [Content.isEmpty] at hnonempty

/-- However a sheet has come to be, graph and contents say the same of all its cells. -/
theorem faithful_run (casing : Casing) (actions : List Action) :
    (run casing actions).casing = casing ∧ (run casing actions).Faithful :=
  ⟨casing_run casing actions, faithful_of_consistent (consistent_run casing actions)⟩

end Worksheet.Sheet
