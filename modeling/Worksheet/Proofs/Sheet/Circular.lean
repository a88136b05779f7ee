import Mathlib
import Worksheet.Proofs.Sheet.Run

/-!
Which formulas are rejected, and with what loop.

All the references that an edit makes new end in the edited cell. Where there was no loop before,
the cell therefore reaches the same names after the edit as before
(`reflTransGen_replaceDependees_iff`), and every new loop passes through the cell. So a formula is
rejected just if the cell already reached one of its variables (`setFormula_isCircular_iff`). The
search for loops begins at the cell, and the loop that it reports begins and ends there
(`closedBy_of_setFormula`). `circular_run` says this of sheets as they come to be.
-/

namespace Worksheet

open Relation

/-- A variable alone is a formula. -/
def Formula.ofVariable (name : String) (h : (Token.var name).WellFormed) : Formula where
  tokens := [.var name]
  spelled _ ht := List.mem_singleton.1 ht ▸ h
  wellFormed := rfl

/-! ## Loops that new dependees close -/

namespace Graph

variable {g : Graph} {E : Finset (String × String)} {cell : String} {names : List String}

/-- Where there is no loop, other dependees of `cell` do not change what `cell` reaches. -/
theorem reflTransGen_replaceDependees_iff (h : g.Represents E) (hg : g.Acyclic) {a : String} :
    ReflTransGen (g.replaceDependees cell names).Edge cell a ↔ ReflTransGen g.Edge cell a := by
  constructor
  · intro ha
    induction ha with
    | refl => exact .refl
    | @tail b c _ hbc ih =>
      by_cases hc : c = cell
      · rw [hc]
      · rw [edge_replaceDependees h, if_neg hc] at hbc
        exact ih.tail hbc
  · intro ha
    induction ha with
    | refl => exact .refl
    | @tail b c hb hbc ih =>
      have hc : c ≠ cell := by
        rintro rfl
        exact hg c (.tail' hb hbc)
      refine ih.tail ?_
      rw [edge_replaceDependees h, if_neg hc]
      exact hbc

/-- New dependees of `cell` close a loop just if `cell` reaches one of them. -/
theorem recalculation_replaceDependees_isError_iff (h : g.Represents E) (hg : g.Acyclic)
    (listing : Listing) :
    (∃ cycle, (g.replaceDependees cell names).recalculation listing cell = .error cycle) ↔
      ∃ v ∈ names, ReflTransGen g.Edge cell v := by
  rw [recalculation_isError_iff]
  constructor
  · rintro ⟨a, hreach, haa⟩
    rcases transGen_replaceDependees h haa with hold | ⟨hto, _⟩
    · exact absurd hold (hg a)
    · -- the loop passes through `cell`: its last edge there comes from a new dependee
      have hself := (TransGen.trans_right hreach haa).trans_left hto
      obtain ⟨v, hv, hvcell⟩ := TransGen.tail'_iff.1 hself
      rw [edge_replaceDependees h, if_pos rfl] at hvcell
      exact ⟨v, hvcell, (reflTransGen_replaceDependees_iff h hg).1 hv⟩
  · rintro ⟨v, hv, hreach⟩
    have hedge : (g.replaceDependees cell names).Edge v cell := by
      rw [edge_replaceDependees h, if_pos rfl]
      exact hv
    exact ⟨cell, .refl, .tail' ((reflTransGen_replaceDependees_iff h hg).2 hreach) hedge⟩

/-- The loop that is reported begins and ends with `cell`. -/
theorem closed_of_recalculation_replaceDependees (h : g.Represents E) (hg : g.Acyclic)
    {listing : Listing} {cycle : Cycle}
    (hrun : (g.replaceDependees cell names).recalculation listing cell = .error cycle) :
    cycle.cell = cell ∧ cycle.path.IsChain (g.replaceDependees cell names).Edge ∧
      ∃ between, cycle.path = cell :: (between ++ [cell]) ∧ (cell :: between).Nodup := by
  obtain ⟨hcell, hfound⟩ := recalculation_error hrun
  obtain ⟨first, between, hpath, hnodup⟩ := hfound.loop.closed
  have hchain := hfound.loop.chain
  rw [leads_list] at hchain
  have hmem : cell ∈ cycle.path := by
    by_contra hnot
    -- without `cell` on it, the loop would be an old one
    have hold : cycle.path.IsChain g.Edge := by
      refine hchain.imp_of_mem_imp fun a b _ hb hab => ?_
      rwa [edge_replaceDependees h, if_neg (ne_of_mem_of_not_mem hb hnot)] at hab
    rw [hpath] at hold
    exact hg first (Walk.transGen_of_isChain hold)
  have hfirst : first = cell := by simpa [hpath] using hfound.begins hmem
  subst hfirst
  exact ⟨hcell, hchain, between, hpath, hnodup⟩

end Graph

namespace Sheet

variable {s : Sheet} {name : String} {f : Formula}

/-! ## Loops that a formula closes -/

/-- A variable of the formula is the cell itself, or a cell whose content refers to it, directly or
through other contents. -/
def Closes (s : Sheet) (cell : String) (f : Formula) : Prop :=
  ∃ v ∈ f.references, s.casing.apply v = cell ∨ TransGen s.RefersTo cell (s.casing.apply v)

/-- The path leads from the cell back to it. Each name on it is a variable of the formula in the
next one, where the cell has the new formula and all others the one that they hold. -/
structure ClosedBy (s : Sheet) (cell : String) (f : Formula) (cycle : Cycle) : Prop where
  cell_eq : cycle.cell = cell
  closed : ∃ between, cycle.path = cell :: (between ++ [cell]) ∧ (cell :: between).Nodup
  refers : cycle.path.IsChain fun a b =>
    if b = cell then ∃ v ∈ f.references, s.casing.apply v = a
    else ∃ f', s.cells[b]? = some (.formula f') ∧ a ∈ f'.references

theorem closes_iff {cell : String} :
    s.Closes cell f ↔
      ∃ v ∈ (Content.formula (f.recase s.casing)).references, ReflTransGen s.RefersTo cell v := by
  simp only [Closes, Content.references, Std.ExtTreeSet.mem_toList, Formula.mem_references_recase,
    reflTransGen_iff_eq_or_transGen, exists_exists_and_eq_and]

theorem answer_setFormula (listing : Listing) (hname : Name.isValid name) :
    (s.setFormula listing name f).2 =
      ((s.graph.replaceDependees (s.casing.apply name)
        (Content.formula (f.recase s.casing)).references).recalculation listing
          (s.casing.apply name)).mapError .circular := by
  rw [setFormula, set_of_isValid listing s (.formula f) hname, answer_setAt]
  rfl

/-- A formula is rejected just if it closes a loop. -/
theorem setFormula_isCircular_iff (hs : s.Consistent) (listing : Listing)
    (hname : Name.isValid name) :
    (∃ cycle, (s.setFormula listing name f).2 = .error (.circular cycle)) ↔
      s.Closes (s.casing.apply name) f := by
  obtain ⟨E, hE, _⟩ := hs.represents
  rw [closes_iff, ← edge_eq_refersTo hs,
    ← Graph.recalculation_replaceDependees_isError_iff hE hs.acyclic listing,
    answer_setFormula listing hname]
  cases Graph.recalculation _ _ _ with
  | ok order => simp [Except.mapError]
  | error cycle => simp [Except.mapError]

/-- There is no other reason to reject a formula for a cell. -/
theorem setFormula_isOk_iff (hs : s.Consistent) (listing : Listing)
    (hname : Name.isValid name) :
    (∃ order, (s.setFormula listing name f).2 = .ok order) ↔
      ¬ s.Closes (s.casing.apply name) f := by
  rw [← setFormula_isCircular_iff hs listing hname, answer_setFormula listing hname]
  cases Graph.recalculation _ _ _ with
  | ok order => simp [Except.mapError]
  | error cycle => simp [Except.mapError]

/-- The loop that is reported is one that the formula closes. -/
theorem closedBy_of_setFormula (hs : s.Consistent) {listing : Listing} (hname : Name.isValid name)
    {cycle : Cycle} (h : (s.setFormula listing name f).2 = .error (.circular cycle)) :
    s.ClosedBy (s.casing.apply name) f cycle := by
  rw [setFormula, set_of_isValid listing s (.formula f) hname] at h
  obtain ⟨_, _, ⟨⟩, hrun⟩ := setAt_error hs h
  obtain ⟨E, hE, _⟩ := hs.represents
  obtain ⟨hcell, hchain, hclosed⟩ :=
    Graph.closed_of_recalculation_replaceDependees hE hs.acyclic hrun
  refine ⟨hcell, hclosed, hchain.imp fun a b hab => ?_⟩
  rw [Graph.edge_replaceDependees hE] at hab
  split at hab
  · next hb =>
    -- the last reference is one of the new formula, the others are stored ones
    rw [if_pos hb]
    simpa only [Content.recase, Content.references, Std.ExtTreeSet.mem_toList,
      Formula.mem_references_recase] using hab
  · next hb =>
    rw [if_neg hb]
    exact refersTo_iff.1 ((edge_iff_refersTo hs).1 hab)

/-- However a sheet has come to be, a formula is rejected just if it would close a loop, and the
loop that is reported is one that it would close. -/
theorem circular_run (casing : Casing) (actions : List Action) (listing : Listing)
    (hname : Name.isValid name) (f : Formula) :
    ((∃ cycle, ((run casing actions).setFormula listing name f).2 = .error (.circular cycle)) ↔
      (run casing actions).Closes (casing.apply name) f) ∧
    ((∃ order, ((run casing actions).setFormula listing name f).2 = .ok order) ↔
      ¬ (run casing actions).Closes (casing.apply name) f) ∧
    ∀ cycle, ((run casing actions).setFormula listing name f).2 = .error (.circular cycle) →
      (run casing actions).ClosedBy (casing.apply name) f cycle := by
  have hs : (run casing actions).Consistent := consistent_run casing actions
  have hcell : casing.apply name = (run casing actions).casing.apply name := by rw [casing_run]
  rw [hcell]
  exact ⟨setFormula_isCircular_iff hs listing hname, setFormula_isOk_iff hs listing hname,
    fun cycle => closedBy_of_setFormula hs hname⟩

/-- `B1` refers to `A1` and `C1` to `B1`, with the variables in lower case. -/
def chain : Sheet :=
  run .upper
    [.formula .sorted "B1" (.ofVariable "a1" (by decide)),
      .formula .sorted "C1" (.ofVariable "b1" (by decide))]

theorem circular_run_chain :
    Name.isValid "A1" ∧
      (chain.setFormula .sorted "A1" (.ofVariable "c1" (by decide))).2 =
        .error (.circular { cell := "A1", path := ["A1", "B1", "C1", "A1"] }) ∧
      chain.Closes "A1" (.ofVariable "c1" (by decide)) ∧
      chain.ClosedBy "A1" (.ofVariable "c1" (by decide))
        { cell := "A1", path := ["A1", "B1", "C1", "A1"] } := by
  have hname : Name.isValid "A1" := by decide
  have hanswer : (chain.setFormula .sorted "A1" (.ofVariable "c1" (by decide))).2 =
      .error (.circular { cell := "A1", path := ["A1", "B1", "C1", "A1"] }) := by cbv
  have hcell : Casing.upper.apply "A1" = "A1" := by cbv
  obtain ⟨hcircular, _, hclosedBy⟩ := circular_run .upper
    [.formula .sorted "B1" (.ofVariable "a1" (by decide)),
      .formula .sorted "C1" (.ofVariable "b1" (by decide))]
    .sorted hname (.ofVariable "c1" (by decide))
  rw [hcell] at hcircular hclosedBy
  exact ⟨hname, hanswer, hcircular.1 ⟨_, hanswer⟩, hclosedBy _ hanswer⟩

end Sheet

end Worksheet
