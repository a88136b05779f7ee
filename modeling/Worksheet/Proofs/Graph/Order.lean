import Mathlib.Data.List.Chain
import Mathlib.Logic.Relation
import Worksheet.Graph.Walk

/-!
Orders and loops along the edges of a graph, given as the names that each name leads to.

* `Walk.Sorted next order`: each name stands before all the names that it leads to, and these are
  in the order too.
* `Walk.Loop next path`: a closed path that meets no name twice but the first, which is the last.

A sorted order without repetition is closed under edges (`mem_of_reaches`), each name in it stands
before what it leads to (`idxOf_lt_of_leads`), and no name in it reaches itself
(`not_reaches_self`); a loop is a name that does (`Loop.reaches_self`). If each name leads to the
next, there is no other sorted order of the same names (`eq_of_isChain_of_sorted`).
-/

namespace Worksheet.Walk

open Relation

variable {next : String → List String} {a b : String} {order path : List String}

/-- There is an edge from `a` to `b`. -/
def Leads (next : String → List String) (a b : String) : Prop :=
  b ∈ next a

/-- Each name stands before all the names that it leads to. -/
def Sorted (next : String → List String) : List String → Prop
  | [] => True
  | name :: later => (∀ other ∈ next name, other ∈ later) ∧ Sorted next later

/-! ## Sorted orders -/

theorem sorted_right_of_append {before : List String} (h : Sorted next (before ++ order)) :
    Sorted next order := by
  induction before with
  | nil => exact h
  | cons name before ih => exact ih h.2

/-- What a name reaches stands after it. -/
theorem mem_of_sorted_cons {later : List String} (h : Sorted next (a :: later))
    (hab : TransGen (Leads next) a b) : b ∈ later := by
  induction hab with
  | single hab => exact h.1 _ hab
  | tail _ hbc ih =>
    obtain ⟨between, after, rfl⟩ := List.append_of_mem ih
    have hafter : Sorted next (_ :: after) := sorted_right_of_append h.2
    exact List.mem_append_right _ (List.mem_cons_of_mem _ (hafter.1 _ hbc))

theorem mem_of_reaches (h : Sorted next order) (ha : a ∈ order)
    (hab : ReflTransGen (Leads next) a b) : b ∈ order := by
  rcases reflTransGen_iff_eq_or_transGen.1 hab with rfl | hab
  · exact ha
  · obtain ⟨before, later, rfl⟩ := List.append_of_mem ha
    exact List.mem_append_right _
      (List.mem_cons_of_mem _ (mem_of_sorted_cons (sorted_right_of_append h) hab))

theorem not_reaches_self (h : Sorted next order) (hnodup : order.Nodup) (ha : a ∈ order) :
    ¬ TransGen (Leads next) a a := by
  intro haa
  obtain ⟨before, later, rfl⟩ := List.append_of_mem ha
  have hlater : a ∈ later := mem_of_sorted_cons (sorted_right_of_append h) haa
  exact (List.nodup_cons.1 (List.nodup_append.1 hnodup).2.1).1 hlater

/-- What a name of the order leads to stands after it. -/
theorem idxOf_lt_of_leads (h : Sorted next order) (hnodup : order.Nodup) (ha : a ∈ order)
    (hab : Leads next a b) : b ∈ order ∧ order.idxOf a < order.idxOf b := by
  obtain ⟨before, later, rfl⟩ := List.append_of_mem ha
  have hb : b ∈ a :: later := List.mem_cons_of_mem a ((sorted_right_of_append h).1 b hab)
  obtain ⟨_, hlater, hapart⟩ := List.nodup_append.1 hnodup
  have ha_before : a ∉ before := fun hmem => hapart a hmem a List.mem_cons_self rfl
  have hb_before : b ∉ before := fun hmem => hapart b hmem b hb rfl
  have hne : a ≠ b := by
    rintro rfl
    exact (List.nodup_cons.1 hlater).1 ((sorted_right_of_append h).1 a hab)
  refine ⟨List.mem_append_right before hb, ?_⟩
  rw [List.idxOf_append_of_notMem ha_before, List.idxOf_append_of_notMem hb_before,
    List.idxOf_cons_self, List.idxOf_cons_ne later hne]
  omega

/-! ## Loops -/

/-- A closed path along edges; only its end repeats a name, and that is its beginning. -/
structure Loop (next : String → List String) (path : List String) : Prop where
  chain : path.IsChain (Leads next)
  closed : ∃ name between, path = name :: (between ++ [name]) ∧ (name :: between).Nodup

theorem transGen_of_isChain {r : String → String → Prop} {between : List String}
    (h : (a :: (between ++ [b])).IsChain r) : TransGen r a b := by
  induction between generalizing a with
  | nil => exact .single (List.isChain_pair.1 h)
  | cons c between ih =>
    rw [List.cons_append, List.isChain_cons_cons] at h
    exact .head h.1 (ih h.2)

/-- A loop begins with a name that reaches itself. -/
theorem Loop.reaches_self (h : Loop next path) :
    ∃ a ∈ path, TransGen (Leads next) a a := by
  obtain ⟨name, between, rfl, _⟩ := h.closed
  exact ⟨name, List.mem_cons_self, transGen_of_isChain h.chain⟩

/-! ## Forced orders -/

/-- Where each name leads to the next, the first reaches all the others. -/
theorem transGen_of_mem_of_isChain {later : List String} (h : (a :: later).IsChain (Leads next))
    (hb : b ∈ later) : TransGen (Leads next) a b := by
  obtain ⟨between, after, rfl⟩ := List.append_of_mem hb
  have hpath : ((a :: (between ++ [b])) ++ after).IsChain (Leads next) := by simpa using h
  exact transGen_of_isChain hpath.left_of_append

/-- Names of which each leads to the next are sorted in no other order. -/
theorem eq_of_isChain_of_sorted {other : List String} (hchain : order.IsChain (Leads next))
    (hperm : order.Perm other) (hnodup : other.Nodup) (hsorted : Sorted next other) :
    order = other := by
  induction order generalizing other with
  | nil => exact (List.nil_perm.1 hperm).symm
  | cons a later ih =>
    cases other with
    | nil => exact List.perm_nil.1 hperm
    | cons first others =>
      have hfirst : a = first := by
        by_contra hne
        have hreached : first ∈ later :=
          (List.mem_cons.1 (hperm.mem_iff.2 List.mem_cons_self)).resolve_left (Ne.symm hne)
        have ha : a ∈ others :=
          (List.mem_cons.1 (hperm.mem_iff.1 List.mem_cons_self)).resolve_left hne
        obtain ⟨before, after, rfl⟩ := List.append_of_mem ha
        -- `a` reaches `first`, which would then come a second time
        have hagain : first ∈ after :=
          mem_of_sorted_cons (sorted_right_of_append hsorted.2)
            (transGen_of_mem_of_isChain hchain hreached)
        exact (List.nodup_cons.1 hnodup).1
          (List.mem_append_right before (List.mem_cons_of_mem a hagain))
      subst hfirst
      rw [ih hchain.tail hperm.cons_inv (List.nodup_cons.1 hnodup).2 hsorted.2]

end Worksheet.Walk
