import Mathlib
import Worksheet.Proofs.Graph.Pairs
import Worksheet.Proofs.Graph.Walk

/-!
What is recomputed after a change, in terms of the edges of the graph.

A recalculation says the same for every order in which the dependents of the names are listed. It
either lists the changed name and all that depends on it, directly or through other names, with
every name before its dependents (`recalculation_order`), or reports a loop that the changed name
reaches. It reports one just if there is one (`recalculation_circular`). Nothing is asked of the
graph: names may depend on themselves, and there may be loops that are not reached.

The order itself may depend on how the dependents are listed, but not if each name in it directly
depends on the one before (`recalculation_forced`).
-/

namespace Worksheet.Graph

open Relation Walk

variable {g : Graph} {listing : Listing} {start : String}

/-- The graph with the given edges. -/
def ofEdges (edges : List (String × String)) : Graph :=
  edges.foldl (fun g e => g.add e.1 e.2) empty

theorem edge_ofEdges {edges : List (String × String)} {a b : String} :
    (ofEdges edges).Edge a b ↔ (a, b) ∈ edges := by
  have hpairs := represents_foldl_add id edges represents_empty
  exact (hpairs.mem_dependents a b).trans (by simp)

/-! ## Orders -/

/-- An order begins with the changed name and lists it and all that depends on it, directly or
through other names. Each name in it stands once, and before all its dependents. -/
theorem recalculation_order {order : List String} (h : g.recalculation listing start = .ok order) :
    order.head? = some start ∧ order.Nodup ∧
      (∀ a, a ∈ order ↔ ReflTransGen g.Edge start a) ∧
      ∀ a b, g.Edge a b → a ∈ order → b ∈ order ∧ order.idxOf a < order.idxOf b := by
  have hcomplete := recalculation_ok h
  refine ⟨hcomplete.begins, hcomplete.nodup, fun a => ?_, fun a b hab ha => ?_⟩
  · rw [hcomplete.mem_iff, leads_list]
  · rw [← leads_list listing] at hab
    exact idxOf_lt_of_leads hcomplete.sorted hcomplete.nodup ha hab

/-- Two ways from `A1` to `D1`, and a name that depends on itself beside them. -/
def diamond : Graph :=
  ofEdges [("A1", "B1"), ("A1", "C1"), ("B1", "D1"), ("C1", "D1"), ("X1", "X1")]

theorem recalculation_order_diamond :
    diamond.recalculation .sorted "A1" = .ok ["A1", "C1", "B1", "D1"] ∧
      (∀ a, a ∈ ["A1", "C1", "B1", "D1"] ↔ ReflTransGen diamond.Edge "A1" a) ∧
      ∀ a b, diamond.Edge a b → a ∈ ["A1", "C1", "B1", "D1"] →
        b ∈ ["A1", "C1", "B1", "D1"] ∧
          ["A1", "C1", "B1", "D1"].idxOf a < ["A1", "C1", "B1", "D1"].idxOf b := by
  have hrun : diamond.recalculation .sorted "A1" = .ok ["A1", "C1", "B1", "D1"] := by cbv
  exact ⟨hrun, (recalculation_order hrun).2.2⟩

/-! ## Forced orders -/

/-- An order in which each name directly depends on the one before it does not depend on how the
dependents are listed: a graph with the same edges has it too, in whatever order these come. -/
theorem recalculation_forced {g' : Graph} {listing' : Listing} {order : List String}
    (hedges : ∀ a b, g.Edge a b ↔ g'.Edge a b)
    (h : g.recalculation listing start = .ok order) (hforced : order.IsChain g.Edge) :
    g'.recalculation listing' start = .ok order := by
  have hsame : g'.Edge = g.Edge := by
    funext a b
    exact propext (hedges a b).symm
  have hfree := (recalculation_isOk_iff listing g start).1 ⟨order, h⟩
  rw [← hsame] at hfree
  obtain ⟨other, hother⟩ := (recalculation_isOk_iff listing' g' start).2 hfree
  have hcomplete := recalculation_ok h
  have hcomplete' := recalculation_ok hother
  have hperm : order.Perm other := by
    refine (List.perm_ext_iff_of_nodup hcomplete.nodup hcomplete'.nodup).2 fun a => ?_
    rw [hcomplete.mem_iff, hcomplete'.mem_iff, leads_list, leads_list, hsame]
  have hchain : order.IsChain (Leads (listing'.list g')) := by
    rw [leads_list, hsame]
    exact hforced
  rw [hother, eq_of_isChain_of_sorted hchain hperm hcomplete'.nodup hcomplete'.sorted]

/-- Two ways from `A1` to `C1`, one of them through `B1`. -/
def shortcut : Graph :=
  ofEdges [("A1", "B1"), ("A1", "C1"), ("B1", "C1")]

theorem recalculation_forced_shortcut :
    shortcut.recalculation .sorted "A1" = .ok ["A1", "B1", "C1"] ∧
      ["A1", "B1", "C1"].IsChain shortcut.Edge ∧
      (ofEdges [("B1", "C1"), ("A1", "C1"), ("A1", "B1")]).recalculation .reversed "A1" =
        .ok ["A1", "B1", "C1"] := by
  have hrun : shortcut.recalculation .sorted "A1" = .ok ["A1", "B1", "C1"] := by cbv
  have hchain : ["A1", "B1", "C1"].IsChain shortcut.Edge := by
    simp [shortcut, edge_ofEdges]
  have hedges : ∀ a b, shortcut.Edge a b ↔
      (ofEdges [("B1", "C1"), ("A1", "C1"), ("A1", "B1")]).Edge a b := by
    intro a b
    simp only [shortcut, edge_ofEdges, List.mem_cons, List.not_mem_nil, or_false]
    tauto
  exact ⟨hrun, hchain, recalculation_forced hedges hrun hchain⟩

/-! ## Loops -/

/-- A loop is reported just if the changed name reaches one. What is reported is the changed name
and a closed path along edges that it reaches; the path has the same name at both ends and meets no
other name twice. -/
theorem recalculation_circular (listing : Listing) (g : Graph) (start : String) :
    ((∃ cycle, g.recalculation listing start = .error cycle) ↔
      ∃ a, ReflTransGen g.Edge start a ∧ TransGen g.Edge a a) ∧
    ∀ cycle, g.recalculation listing start = .error cycle →
      cycle.cell = start ∧
      (∃ first between, cycle.path = first :: (between ++ [first]) ∧ (first :: between).Nodup) ∧
      cycle.path.IsChain g.Edge ∧
      ∀ a ∈ cycle.path, ReflTransGen g.Edge start a := by
  refine ⟨recalculation_isError_iff listing g start, fun cycle h => ?_⟩
  obtain ⟨hcell, hfound⟩ := recalculation_error h
  have hchain := hfound.loop.chain
  have hreached := hfound.reached
  rw [leads_list] at hchain hreached
  exact ⟨hcell, hfound.loop.closed, hchain, hreached⟩

/-- A loop below `A1` that `A1` is not on. -/
def downstream : Graph :=
  ofEdges [("A1", "B1"), ("B1", "C1"), ("C1", "B1")]

theorem recalculation_circular_downstream :
    downstream.recalculation .sorted "A1" = .error { cell := "A1", path := ["B1", "C1", "B1"] } ∧
      (∃ a, ReflTransGen downstream.Edge "A1" a ∧ TransGen downstream.Edge a a) ∧
      ["B1", "C1", "B1"].IsChain downstream.Edge ∧
      ∀ a ∈ ["B1", "C1", "B1"], ReflTransGen downstream.Edge "A1" a := by
  have hrun : downstream.recalculation .sorted "A1" =
      .error { cell := "A1", path := ["B1", "C1", "B1"] } := by cbv
  obtain ⟨hiff, hcycle⟩ := recalculation_circular .sorted downstream "A1"
  exact ⟨hrun, hiff.1 ⟨_, hrun⟩, (hcycle _ hrun).2.2⟩

end Worksheet.Graph
