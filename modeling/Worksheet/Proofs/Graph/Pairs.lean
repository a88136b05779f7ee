import Mathlib.Data.Finset.Card
import Mathlib.Data.Finset.Image
import Worksheet.Graph

/-!
A dependency graph stands for a finite set of pairs `(dependee, dependent)`.

`Graph.Represents g E` says that both views of `g` and its counter agree with `E` and that no name
is kept with an empty set. Each operation on the graph is the same operation on the set of pairs
(`represents_add`, `represents_remove`, `represents_replaceDependees`,
`represents_replaceDependents`), and the set determines the graph (`represents_unique`). So a graph
is back where it was as soon as its set of pairs is.
-/

namespace Worksheet

/-! ## Sets of names by name -/

namespace Links

/-- No name is kept with an empty set. -/
def Trimmed (links : Links) : Prop :=
  ∀ (name : String) (set : Names), links[name]? = some set → set ≠ ∅

theorem linked_eq (links : Links) (name : String) : links.linked name = links[name]?.getD ∅ :=
  Std.ExtTreeMap.getD_eq_getD_getElem?

theorem linked_link (links : Links) (name other a : String) :
    (links.link name other).linked a =
      if name = a then (links.linked name).insert other else links.linked a := by
  simp only [linked, link, Std.ExtTreeMap.getD_insert, Std.LawfulEqOrd.compare_eq_iff_eq]

theorem mem_linked_link {links : Links} {name other a b : String} :
    b ∈ (links.link name other).linked a ↔ (a = name ∧ b = other) ∨ b ∈ links.linked a := by
  rw [linked_link]
  split
  · next h =>
    subst h
    rw [Std.ExtTreeSet.mem_insert, Std.LawfulEqOrd.compare_eq_iff_eq]
    simp only [true_and, eq_comm]
  · next h => simp [Ne.symm h]

theorem linked_unlink (links : Links) (name other a : String) :
    (links.unlink name other).linked a =
      if name = a then (links.linked name).erase other else links.linked a := by
  rw [linked_eq _ a, linked_eq links a, unlink]
  split
  · next hempty =>
    rw [Std.ExtTreeSet.isEmpty_iff] at hempty
    simp only [Std.ExtTreeMap.getElem?_erase, Std.LawfulEqOrd.compare_eq_iff_eq]
    split
    · exact hempty.symm
    · rfl
  · simp only [Std.ExtTreeMap.getElem?_insert, Std.LawfulEqOrd.compare_eq_iff_eq]
    split <;> rfl

theorem mem_linked_unlink {links : Links} {name other a b : String} :
    b ∈ (links.unlink name other).linked a ↔ b ∈ links.linked a ∧ ¬(a = name ∧ b = other) := by
  rw [linked_unlink]
  split
  · next h =>
    subst h
    rw [Std.ExtTreeSet.mem_erase, ne_eq, Std.LawfulEqOrd.compare_eq_iff_eq]
    simp [and_comm, eq_comm (a := b)]
  · next h => simp [Ne.symm h]

theorem trimmed_empty : Trimmed ∅ := by
  intro name set h
  simp at h

theorem trimmed_link {links : Links} (h : links.Trimmed) (name other : String) :
    (links.link name other).Trimmed := by
  intro a set hset
  rw [link, Std.ExtTreeMap.getElem?_insert] at hset
  split at hset
  · cases hset
    intro hempty
    have : other ∈ (links.linked name).insert other := Std.ExtTreeSet.mem_insert_self
    rw [hempty] at this
    exact Std.ExtTreeSet.not_mem_empty this
  · exact h a set hset

theorem trimmed_unlink {links : Links} (h : links.Trimmed) (name other : String) :
    (links.unlink name other).Trimmed := by
  intro a set hset
  simp only [unlink] at hset
  split at hset
  · rw [Std.ExtTreeMap.getElem?_erase] at hset
    split at hset
    · cases hset
    · exact h a set hset
  · next hrest =>
    rw [Std.ExtTreeMap.getElem?_insert] at hset
    split at hset
    · cases hset
      exact fun hempty => hrest (Std.ExtTreeSet.isEmpty_iff.2 hempty)
    · exact h a set hset

/-- Without empty sets, the members of the sets determine the map. -/
theorem eq_of_trimmed {links links' : Links} (h : links.Trimmed) (h' : links'.Trimmed)
    (hmem : ∀ a b, b ∈ links.linked a ↔ b ∈ links'.linked a) : links = links' := by
  have hsets : ∀ a, links.linked a = links'.linked a := fun a =>
    Std.ExtTreeSet.ext_mem fun b => hmem a b
  refine Std.ExtTreeMap.ext_getElem? fun a => ?_
  have ha := hsets a
  rw [linked_eq, linked_eq] at ha
  cases hl : links[a]? with
  | none =>
    cases hl' : links'[a]? with
    | none => rfl
    | some set' =>
      rw [hl, hl'] at ha
      exact absurd ha.symm (h' a set' hl')
  | some set =>
    cases hl' : links'[a]? with
    | none =>
      rw [hl, hl'] at ha
      exact absurd ha (h a set hl)
    | some set' =>
      rw [hl, hl'] at ha
      exact congrArg some ha

/-- A name is kept just if its set has members. -/
theorem mem_iff_of_trimmed {links : Links} (h : links.Trimmed) {a : String} :
    a ∈ links ↔ ∃ b, b ∈ links.linked a := by
  rw [Std.ExtTreeMap.mem_iff_isSome_getElem?, linked_eq]
  cases hl : links[a]? with
  | none => simp
  | some set =>
    simp only [Option.isSome_some, Option.getD_some, true_iff]
    refine Classical.byContradiction fun hnone => h a set hl ?_
    exact Std.ExtTreeSet.ext_mem fun b => by simpa using fun hb => hnone ⟨b, hb⟩

end Links

/-! ## The set of pairs -/

namespace Graph

/-- `E` is the set of pairs that the graph stands for. -/
structure Represents (g : Graph) (E : Finset (String × String)) : Prop where
  mem_dependents : ∀ u v, v ∈ g.dependents u ↔ (u, v) ∈ E
  mem_dependees : ∀ u v, u ∈ g.dependees v ↔ (u, v) ∈ E
  size_eq : g.size = E.card
  trimmed_dependents : g.dependentsOf.Trimmed
  trimmed_dependees : g.dependeesOf.Trimmed

variable {g g' : Graph} {E E' : Finset (String × String)}

theorem represents_empty : Graph.empty.Represents ∅ where
  mem_dependents u v := by simp [empty, dependents, Links.linked_eq]
  mem_dependees u v := by simp [empty, dependees, Links.linked_eq]
  size_eq := rfl
  trimmed_dependents := Links.trimmed_empty
  trimmed_dependees := Links.trimmed_empty

theorem represents_add (h : g.Represents E) (u v : String) :
    (g.add u v).Represents (insert (u, v) E) := by
  unfold add
  split
  · next hmem =>
    rw [Finset.insert_eq_of_mem ((h.mem_dependents u v).1 hmem)]
    exact h
  · next hmem =>
    have hnew : (u, v) ∉ E := fun he => hmem ((h.mem_dependents u v).2 he)
    constructor
    · intro a b
      simp only [dependents, Links.mem_linked_link, Finset.mem_insert, Prod.mk.injEq]
      exact or_congr Iff.rfl (h.mem_dependents a b)
    · intro a b
      simp only [dependees, Links.mem_linked_link, Finset.mem_insert, Prod.mk.injEq]
      exact or_congr and_comm (h.mem_dependees a b)
    · rw [Finset.card_insert_of_notMem hnew, h.size_eq]
    · exact Links.trimmed_link h.trimmed_dependents u v
    · exact Links.trimmed_link h.trimmed_dependees v u

theorem represents_remove (h : g.Represents E) (u v : String) :
    (g.remove u v).Represents (E.erase (u, v)) := by
  unfold remove
  split
  · next hmem =>
    have hold : (u, v) ∈ E := (h.mem_dependents u v).1 hmem
    constructor
    · intro a b
      simp only [dependents, Links.mem_linked_unlink, Finset.mem_erase, ne_eq, Prod.mk.injEq]
      exact and_comm.trans (and_congr Iff.rfl (h.mem_dependents a b))
    · intro a b
      simp only [dependees, Links.mem_linked_unlink, Finset.mem_erase, ne_eq, Prod.mk.injEq]
      rw [and_comm (a := b = v)]
      exact and_comm.trans (and_congr Iff.rfl (h.mem_dependees a b))
    · rw [Finset.card_erase_of_mem hold, h.size_eq]
    · exact Links.trimmed_unlink h.trimmed_dependents u v
    · exact Links.trimmed_unlink h.trimmed_dependees v u
  · next hmem =>
    rw [Finset.erase_eq_of_notMem fun he => hmem ((h.mem_dependents u v).2 he)]
    exact h

/-- The set of pairs determines the graph. -/
theorem represents_unique (h : g.Represents E) (h' : g'.Represents E) : g = g' := by
  have hdependents : g.dependentsOf = g'.dependentsOf :=
    Links.eq_of_trimmed h.trimmed_dependents h'.trimmed_dependents fun u v =>
      (h.mem_dependents u v).trans (h'.mem_dependents u v).symm
  have hdependees : g.dependeesOf = g'.dependeesOf :=
    Links.eq_of_trimmed h.trimmed_dependees h'.trimmed_dependees fun v u =>
      (h.mem_dependees u v).trans (h'.mem_dependees u v).symm
  have hsize : g.size = g'.size := h.size_eq.trans h'.size_eq.symm
  cases g
  cases g'
  simp_all

/-! ## Replacing all edges at one end -/

/-- Removing pairs one after the other. -/
theorem represents_foldl_remove (f : String → String × String) (l : List String)
    (h : g.Represents E) :
    (l.foldl (fun g a => g.remove (f a).1 (f a).2) g).Represents (E \ (l.map f).toFinset) := by
  induction l generalizing g E with
  | nil => simpa using h
  | cons a l ih =>
    have hset : E \ ((a :: l).map f).toFinset = E.erase (f a) \ (l.map f).toFinset := by
      ext e
      simp only [List.map_cons, List.toFinset_cons, Finset.mem_sdiff, Finset.mem_insert,
        Finset.mem_erase]
      tauto
    rw [List.foldl_cons, hset]
    exact ih (represents_remove h (f a).1 (f a).2)

/-- Adding pairs one after the other. -/
theorem represents_foldl_add {α : Type} (f : α → String × String) (l : List α)
    (h : g.Represents E) :
    (l.foldl (fun g a => g.add (f a).1 (f a).2) g).Represents (E ∪ (l.map f).toFinset) := by
  induction l generalizing g E with
  | nil => simpa using h
  | cons a l ih =>
    have hset : E ∪ ((a :: l).map f).toFinset = insert (f a) E ∪ (l.map f).toFinset := by
      ext e
      simp only [List.map_cons, List.toFinset_cons, Finset.mem_union, Finset.mem_insert]
      tauto
    rw [List.foldl_cons, hset]
    exact ih (represents_add h (f a).1 (f a).2)

theorem mem_ofList {names : List String} {name : String} :
    name ∈ Std.ExtTreeSet.ofList names ↔ name ∈ names := by
  rw [Std.ExtTreeSet.mem_ofList, List.contains_iff_mem]

theorem mem_outdated {old new : Names} {name : String} :
    name ∈ outdated old new ↔ name ∈ old ∧ name ∉ new := by
  simp [outdated, List.mem_filter, Std.ExtTreeSet.mem_toList, ← Std.ExtTreeSet.contains_iff_mem]

/-- The pairs with `names` as the only dependees of `name`. -/
def withDependees (E : Finset (String × String)) (name : String) (names : List String) :
    Finset (String × String) :=
  E.filter (fun e => e.2 ≠ name) ∪ (names.map fun a => (a, name)).toFinset

/-- The pairs with `names` as the only dependents of `name`. -/
def withDependents (E : Finset (String × String)) (name : String) (names : List String) :
    Finset (String × String) :=
  E.filter (fun e => e.1 ≠ name) ∪ (names.map fun a => (name, a)).toFinset

theorem mem_withDependees {name : String} {names : List String} {u v : String} :
    (u, v) ∈ withDependees E name names ↔ if v = name then u ∈ names else (u, v) ∈ E := by
  simp only [withDependees, Finset.mem_union, Finset.mem_filter, List.mem_toFinset, List.mem_map,
    Prod.mk.injEq]
  split
  · next h => subst h; simp
  · next h => simp [h, Ne.symm h]

/-- Of the pairs `f a`, those with `a` in `names` take the place of those with `a` in `old`; the pairs
that satisfy `q`, which are all others, stay. -/
theorem represents_replace (h : g.Represents E) {f : String → String × String}
    (hf : Function.Injective f) {q : String × String → Prop} [DecidablePred q]
    (hq : ∀ e, q e ↔ ∀ a, e ≠ f a) {old : Names} (hold : ∀ a, a ∈ old ↔ f a ∈ E)
    (names : List String) :
    ((Std.ExtTreeSet.ofList names).toList.foldl (fun g a => g.add (f a).1 (f a).2)
      ((outdated old (Std.ExtTreeSet.ofList names)).foldl
        (fun g a => g.remove (f a).1 (f a).2) g)).Represents
      (E.filter q ∪ (names.map f).toFinset) := by
  have hadded := represents_foldl_add f (Std.ExtTreeSet.ofList names).toList
    (represents_foldl_remove f (outdated old (Std.ExtTreeSet.ofList names)) h)
  convert hadded using 1
  ext e
  simp only [Finset.mem_union, Finset.mem_filter, Finset.mem_sdiff, List.mem_toFinset,
    List.mem_map, mem_outdated, Std.ExtTreeSet.mem_toList, mem_ofList, hq]
  by_cases he : ∃ a, e = f a
  · obtain ⟨a, rfl⟩ := he
    simp only [hf.eq_iff, exists_eq_right, hold]
    have : ¬ ∀ b, f a ≠ f b := fun hall => hall a rfl
    tauto
  · have hall : ∀ a, f a ≠ e := fun a ha => he ⟨a, ha.symm⟩
    simp [hall, fun a => (hall a).symm]

theorem represents_replaceDependees (h : g.Represents E) (name : String) (names : List String) :
    (g.replaceDependees name names).Represents (withDependees E name names) := by
  have hinjective : Function.Injective fun a : String => (a, name) :=
    fun _ _ hab => congrArg Prod.fst hab
  have hother : ∀ e : String × String, e.2 ≠ name ↔ ∀ a, e ≠ (a, name) := by
    rintro ⟨u, v⟩
    simp
  exact represents_replace h hinjective hother (fun a => h.mem_dependees a name) names

theorem represents_replaceDependents (h : g.Represents E) (name : String) (names : List String) :
    (g.replaceDependents name names).Represents (withDependents E name names) := by
  have hinjective : Function.Injective fun a : String => (name, a) :=
    fun _ _ hab => congrArg Prod.snd hab
  have hother : ∀ e : String × String, e.1 ≠ name ↔ ∀ a, e ≠ (name, a) := by
    rintro ⟨u, v⟩
    simp
  exact represents_replace h hinjective hother (fun a => h.mem_dependents name a) names

end Graph

end Worksheet
