import Mathlib
import Worksheet.Proofs.Graph.Pairs

/-!
A graph under any calls is a plain set of pairs under the same calls.

`Graph.Refines g E` says that every question about `g` has the answer that the set `E` gives: the
names at either end of an edge, their counts, whether there are any, and the number of edges. It
follows from `Graph.Represents` (`refines_of_represents`), which every call keeps
(`represents_perform`), and so it holds after any calls on an empty graph (`refines_afterCalls`).

A replacement is a row of changes of single edges, in an order that nothing depends on
(`Carries`, `foldl_of_carries`). The graphs in between stand for sets of pairs as well, so that the
counter is never counted down from zero (`size_pos_of_mem`).
-/

namespace Worksheet.Graph

variable {g : Graph} {E : Finset (String × String)}

/-! ## Questions -/

/-- The names to which a pair leads from `s`. -/
def dependentsIn (E : Finset (String × String)) (s : String) : Finset String :=
  (E.filter fun e => e.1 = s).image Prod.snd

/-- The names from which a pair leads to `t`. -/
def dependeesIn (E : Finset (String × String)) (t : String) : Finset String :=
  (E.filter fun e => e.2 = t).image Prod.fst

theorem mem_dependentsIn {s t : String} : t ∈ dependentsIn E s ↔ (s, t) ∈ E := by
  simp [dependentsIn]

theorem mem_dependeesIn {s t : String} : s ∈ dependeesIn E t ↔ (s, t) ∈ E := by
  simp [dependeesIn]

/-- Every question about the graph has the answer that the set of pairs gives, and no name is kept
with an empty set. -/
structure Refines (g : Graph) (E : Finset (String × String)) : Prop where
  mem_dependents : ∀ s t, t ∈ g.dependents s ↔ t ∈ dependentsIn E s
  mem_dependees : ∀ t s, s ∈ g.dependees t ↔ s ∈ dependeesIn E t
  dependentCount_eq : ∀ s, g.dependentCount s = (dependentsIn E s).card
  dependeeCount_eq : ∀ t, g.dependeeCount t = (dependeesIn E t).card
  hasDependents_iff : ∀ s, g.hasDependents s ↔ (dependentsIn E s).Nonempty
  hasDependees_iff : ∀ t, g.hasDependees t ↔ (dependeesIn E t).Nonempty
  size_eq : g.size = E.card
  isEmpty_iff : g.isEmpty ↔ E = ∅
  trimmed_dependents : g.dependentsOf.Trimmed
  trimmed_dependees : g.dependeesOf.Trimmed

/-- Sets of names with the same members have the same size. -/
theorem size_eq_card {names : Names} {F : Finset String} (h : ∀ a, a ∈ names ↔ a ∈ F) :
    names.size = F.card := by
  have hnodup : names.toList.Nodup := by
    refine (Std.ExtTreeSet.distinct_toList (t := names)).imp fun hab heq => hab ?_
    rw [heq]
    exact Std.ReflCmp.compare_self
  have hset : names.toList.toFinset = F := by
    ext a
    rw [List.mem_toFinset, Std.ExtTreeSet.mem_toList, h]
  rw [← hset, List.toFinset_card_of_nodup hnodup, Std.ExtTreeSet.length_toList]

theorem refines_of_represents (h : g.Represents E) : g.Refines E where
  mem_dependents s t := (h.mem_dependents s t).trans mem_dependentsIn.symm
  mem_dependees t s := (h.mem_dependees s t).trans mem_dependeesIn.symm
  dependentCount_eq s := size_eq_card fun t => (h.mem_dependents s t).trans mem_dependentsIn.symm
  dependeeCount_eq t := size_eq_card fun s => (h.mem_dependees s t).trans mem_dependeesIn.symm
  hasDependents_iff s := by
    have hkept : s ∈ g.dependentsOf ↔ ∃ t, t ∈ g.dependents s :=
      Links.mem_iff_of_trimmed h.trimmed_dependents
    rw [hasDependents, Std.ExtTreeMap.contains_iff_mem, hkept]
    exact exists_congr fun t => (h.mem_dependents s t).trans mem_dependentsIn.symm
  hasDependees_iff t := by
    have hkept : t ∈ g.dependeesOf ↔ ∃ s, s ∈ g.dependees t :=
      Links.mem_iff_of_trimmed h.trimmed_dependees
    rw [hasDependees, Std.ExtTreeMap.contains_iff_mem, hkept]
    exact exists_congr fun s => (h.mem_dependees s t).trans mem_dependeesIn.symm
  size_eq := h.size_eq
  isEmpty_iff := by rw [isEmpty, beq_iff_eq, h.size_eq, Finset.card_eq_zero]
  trimmed_dependents := h.trimmed_dependents
  trimmed_dependees := h.trimmed_dependees

/-- Where there is an edge, the counter is not zero. -/
theorem size_pos_of_mem (h : g.Represents E) {u v : String} (huv : v ∈ g.dependents u) :
    0 < g.size := by
  rw [h.size_eq]
  exact Finset.card_pos.2 ⟨(u, v), (h.mem_dependents u v).1 huv⟩

/-! ## Calls -/

/-- A call that changes a graph. -/
inductive Action where
  | add (dependee dependent : String)
  | remove (dependee dependent : String)
  | replaceDependents (name : String) (names : List String)
  | replaceDependees (name : String) (names : List String)
  | clear

/-- The graph after the call. -/
def perform (g : Graph) : Action → Graph
  | .add u v => g.add u v
  | .remove u v => g.remove u v
  | .replaceDependents name names => g.replaceDependents name names
  | .replaceDependees name names => g.replaceDependees name names
  | .clear => g.clear

/-- The set of pairs after the same call. -/
def performOn (E : Finset (String × String)) : Action → Finset (String × String)
  | .add u v => insert (u, v) E
  | .remove u v => E.erase (u, v)
  | .replaceDependents name names => withDependents E name names
  | .replaceDependees name names => withDependees E name names
  | .clear => ∅

/-- The graph after the calls on an empty graph. -/
def afterCalls (actions : List Action) : Graph :=
  actions.foldl perform empty

/-- The set of pairs after the calls on the empty set. -/
def pairsAfter (actions : List Action) : Finset (String × String) :=
  actions.foldl performOn ∅

theorem represents_perform (h : g.Represents E) (a : Action) :
    (g.perform a).Represents (performOn E a) := by
  cases a with
  | add u v => exact represents_add h u v
  | remove u v => exact represents_remove h u v
  | replaceDependents name names => exact represents_replaceDependents h name names
  | replaceDependees name names => exact represents_replaceDependees h name names
  | clear => exact represents_empty

theorem represents_foldl (h : g.Represents E) (actions : List Action) :
    (actions.foldl perform g).Represents (actions.foldl performOn E) := by
  induction actions generalizing g E with
  | nil => exact h
  | cons a actions ih => exact ih (represents_perform h a)

theorem represents_afterCalls (actions : List Action) :
    (afterCalls actions).Represents (pairsAfter actions) :=
  represents_foldl represents_empty actions

/-! ## Changes of single edges -/

/-- The changes of single edges that carry out a call on `g`. A replacement removes what is outdated
and then adds what is wanted, each in any order. -/
inductive Carries (g : Graph) : Action → List Action → Prop
  | add (u v : String) : Carries g (.add u v) [.add u v]
  | remove (u v : String) : Carries g (.remove u v) [.remove u v]
  | replaceDependents {name : String} {names old new : List String}
      (hold : old.Perm (outdated (g.dependents name) (Std.ExtTreeSet.ofList names)))
      (hnew : new.Perm (Std.ExtTreeSet.ofList names).toList) :
      Carries g (.replaceDependents name names)
        (old.map (fun a => .remove name a) ++ new.map fun a => .add name a)
  | replaceDependees {name : String} {names old new : List String}
      (hold : old.Perm (outdated (g.dependees name) (Std.ExtTreeSet.ofList names)))
      (hnew : new.Perm (Std.ExtTreeSet.ofList names).toList) :
      Carries g (.replaceDependees name names)
        (old.map (fun a => .remove a name) ++ new.map fun a => .add a name)
  | clear : Carries g .clear [.clear]

/-- Removing and then adding pairs comes to the same graph in any order. -/
theorem foldl_add_foldl_remove_of_perm (h : g.Represents E) (f : String → String × String)
    {old old' new new' : List String} (hold : old.Perm old') (hnew : new.Perm new') :
    new.foldl (fun g a => g.add (f a).1 (f a).2)
        (old.foldl (fun g a => g.remove (f a).1 (f a).2) g) =
      new'.foldl (fun g a => g.add (f a).1 (f a).2)
        (old'.foldl (fun g a => g.remove (f a).1 (f a).2) g) := by
  have hleft := represents_foldl_add f new (represents_foldl_remove f old h)
  have hright := represents_foldl_add f new' (represents_foldl_remove f old' h)
  rw [List.toFinset_eq_of_perm _ _ (hold.map f), List.toFinset_eq_of_perm _ _ (hnew.map f)] at hleft
  exact represents_unique hleft hright

theorem foldl_of_carries (h : g.Represents E) {a : Action} {changes : List Action}
    (ha : g.Carries a changes) : changes.foldl perform g = g.perform a := by
  cases ha with
  | add u v => rfl
  | remove u v => rfl
  | @replaceDependents name names old new hold hnew =>
    rw [List.foldl_append, List.foldl_map, List.foldl_map]
    exact foldl_add_foldl_remove_of_perm h (fun a => (name, a)) hold hnew
  | @replaceDependees name names old new hold hnew =>
    rw [List.foldl_append, List.foldl_map, List.foldl_map]
    exact foldl_add_foldl_remove_of_perm h (fun a => (a, name)) hold hnew
  | clear => rfl

/-- After any calls on an empty graph every question about it has the answer that the set of pairs
gives after the same calls. In whatever order a further call changes single edges, it comes to the
same graph, and wherever it takes an edge away on the way the counter is not zero. -/
theorem refines_afterCalls (actions : List Action) :
    (afterCalls actions).Refines (pairsAfter actions) ∧
    ∀ a changes, (afterCalls actions).Carries a changes →
      changes.foldl perform (afterCalls actions) = (afterCalls actions).perform a ∧
      ∀ before u v after, changes = before ++ .remove u v :: after →
        v ∈ (before.foldl perform (afterCalls actions)).dependents u →
          0 < (before.foldl perform (afterCalls actions)).size := by
  have hpairs := represents_afterCalls actions
  refine ⟨refines_of_represents hpairs, fun a changes ha => ⟨foldl_of_carries hpairs ha, ?_⟩⟩
  intro before u v after _ huv
  have hbefore := represents_foldl hpairs before
  exact size_pos_of_mem hbefore huv

/-- `a` on a loop of its own and with `c` wanted twice; `b` is left with the dependee `x`. -/
def replaced : List Action :=
  [.add "a" "a", .add "a" "b", .add "x" "b", .replaceDependents "a" ["c", "a", "c"]]

theorem refines_afterCalls_replaced :
    (afterCalls replaced).size = 3 ∧ (pairsAfter replaced).card = 3 ∧
      (afterCalls replaced).Carries (.replaceDependees "b" ["y", "a"])
        [.remove "x" "b", .add "y" "b", .add "a" "b"] ∧
      [.remove "x" "b", .add "y" "b", .add "a" "b"].foldl perform (afterCalls replaced) =
        (afterCalls replaced).replaceDependees "b" ["y", "a"] ∧
      "b" ∈ (afterCalls replaced).dependents "x" ∧ 0 < (afterCalls replaced).size := by
  obtain ⟨hrefines, hcarries⟩ := refines_afterCalls replaced
  have hsize : (afterCalls replaced).size = 3 := by cbv
  have hold : outdated ((afterCalls replaced).dependees "b") (Std.ExtTreeSet.ofList ["y", "a"]) =
      ["x"] := by cbv
  have hnew : (Std.ExtTreeSet.ofList ["y", "a"]).toList = ["a", "y"] := by cbv
  have hchanges : (afterCalls replaced).Carries (.replaceDependees "b" ["y", "a"])
      [.remove "x" "b", .add "y" "b", .add "a" "b"] :=
    @Carries.replaceDependees _ "b" ["y", "a"] ["x"] ["y", "a"] (hold ▸ .refl _)
      (hnew ▸ .swap "a" "y" [])
  have hcontains : ((afterCalls replaced).dependents "x").contains "b" = true := by cbv
  have hmem : "b" ∈ (afterCalls replaced).dependents "x" :=
    Std.ExtTreeSet.contains_iff_mem.1 hcontains
  obtain ⟨hsame, hpositive⟩ := hcarries _ _ hchanges
  exact ⟨hsize, hrefines.size_eq ▸ hsize, hchanges, hsame, hmem,
    hpositive [] "x" "b" _ rfl hmem⟩

end Worksheet.Graph
