import Worksheet.Graph

/-!
The order in which names are recomputed after one of them has changed: a depth-first walk along
the dependents, with its own stack. A name is finished when all its dependents are, and the names
in the opposite order of finishing are dependees before dependents. A name that is met again while
it is still on the path closes a loop.
-/

namespace Worksheet

/-- A walk is on a name until all its dependents are finished. -/
inductive Mark where
  | onPath
  | done
  deriving DecidableEq, Repr

/-- A name on the path, and its dependents that have not been looked at. -/
structure Frame where
  name : String
  rest : List String
  deriving DecidableEq, Repr

/-- A walk under way: the path with its top first, and the finished names with the latest first. -/
structure Walk where
  marks : Std.ExtTreeMap String Mark
  stack : List Frame
  finished : List String

/-- What one step of a walk leads to. -/
inductive Walk.Progress where
  | going (w : Walk)
  | loop (path : List String)
  | over (order : List String)

namespace Walk

def start (next : String → List String) (name : String) : Walk :=
  { marks := (∅ : Std.ExtTreeMap String Mark).insert name .onPath
    stack := [{ name, rest := next name }]
    finished := [] }

/-- The names on the path, from where the walk began. -/
def path (stack : List Frame) : List String :=
  (stack.map Frame.name).reverse

/-- Where `name` is on the path, counted from where the walk began. -/
def position? (stack : List Frame) (name : String) : Option Nat :=
  (path stack).idxOf? name

/-- The path from `name` on, or from its beginning if `name` is not on it, and `name` once more. -/
def loopAt (stack : List Frame) (name : String) : List String :=
  (path stack).drop ((position? stack name).getD 0) ++ [name]

/-- Looks at the next dependent of the topmost name, or finishes that name. -/
def step (next : String → List String) (w : Walk) : Progress :=
  match w.stack with
  | [] => .over w.finished
  | { name, rest := [] } :: below =>
    .going { marks := w.marks.insert name .done, stack := below, finished := name :: w.finished }
  | { name, rest := dependent :: rest } :: below =>
    let stack := { name, rest } :: below
    match w.marks[dependent]? with
    | some .done => .going { w with stack }
    | some .onPath => .loop (loopAt stack dependent)
    | none =>
      .going
        { w with
          marks := w.marks.insert dependent .onPath
          stack := { name := dependent, rest := next dependent } :: stack }

/-! ### A walk ends -/

/-- What looking at all dependents of a name may take. -/
def cost (rest : List String) : Nat :=
  2 * rest.length + 1

/-- The cost of those names of a list that are not marked. -/
def unmarkedCost (next : String → List String) (marks : Std.ExtTreeMap String Mark)
    (names : List String) : Nat :=
  match names with
  | [] => 0
  | name :: names =>
    (if marks.contains name then 0 else cost (next name)) + unmarkedCost next marks names

def stackCost : List Frame → Nat
  | [] => 0
  | f :: stack => cost f.rest + stackCost stack

/-- What is left to do, if only `names` have dependents. -/
def remaining (next : String → List String) (names : List String) (w : Walk) : Nat :=
  unmarkedCost next w.marks names + stackCost w.stack

theorem unmarkedCost_insert_le (next : String → List String) (marks : Std.ExtTreeMap String Mark)
    (name : String) (mark : Mark) (names : List String) :
    unmarkedCost next (marks.insert name mark) names ≤ unmarkedCost next marks names := by
  induction names with
  | nil => exact Nat.le_refl _
  | cons a names ih =>
    rw [unmarkedCost, unmarkedCost, Std.ExtTreeMap.contains_insert]
    cases marks.contains a <;> by_cases h : (compare name a == .eq) <;> simp [h] <;> omega

/-- Marking a name saves its cost. -/
theorem unmarkedCost_insert_of_mem {next : String → List String}
    {marks : Std.ExtTreeMap String Mark} {name : String} (mark : Mark)
    (hname : marks.contains name = false) {names : List String} (hmem : name ∈ names) :
    unmarkedCost next (marks.insert name mark) names + cost (next name) ≤
      unmarkedCost next marks names := by
  induction names with
  | nil => cases hmem
  | cons a names ih =>
    rw [unmarkedCost, unmarkedCost]
    rcases List.mem_cons.1 hmem with rfl | hmem
    · have := unmarkedCost_insert_le next marks name mark names
      simp only [Std.ExtTreeMap.contains_insert_self, hname, if_true, Bool.false_eq_true, if_false]
      omega
    · have := ih hmem
      have : (if (marks.insert name mark).contains a then 0 else cost (next a)) ≤
          if marks.contains a then 0 else cost (next a) := by
        rw [Std.ExtTreeMap.contains_insert]
        cases marks.contains a <;> by_cases h : (compare name a == .eq) <;> simp [h]
      omega

theorem remaining_step_lt {next : String → List String} {names : List String}
    (hnames : ∀ name, next name ≠ [] → name ∈ names) {w w' : Walk}
    (h : step next w = .going w') : remaining next names w' < remaining next names w := by
  unfold step at h
  split at h
  · cases h
  · next name below hstack =>
    cases h
    have := unmarkedCost_insert_le next w.marks name .done names
    simp only [remaining, hstack, stackCost, cost]
    omega
  · next name dependent rest below hstack =>
    dsimp only at h
    split at h
    · cases h
      simp only [remaining, hstack, stackCost, cost, List.length_cons]
      omega
    · cases h
    · next hmark =>
      cases h
      have hfree : w.marks.contains dependent = false := by
        rw [Std.ExtTreeMap.contains_eq_isSome_getElem?, hmark]; rfl
      simp only [remaining, hstack, stackCost, cost, List.length_cons]
      by_cases hnext : next dependent = []
      · have := unmarkedCost_insert_le next w.marks dependent .onPath names
        simp only [hnext, List.length_nil]
        omega
      · have : unmarkedCost next (w.marks.insert dependent .onPath) names + cost (next dependent) ≤
            unmarkedCost next w.marks names :=
          unmarkedCost_insert_of_mem .onPath hfree (hnames dependent hnext)
        simp only [cost] at this
        omega

/-- Only finitely many names have dependents. -/
def Finite (next : String → List String) : Prop :=
  ∃ names : List String, ∀ name, next name ≠ [] → name ∈ names

/-- Walks on to the end: the names in the order to recompute them, or a loop. -/
def run (next : String → List String) (hfinite : Finite next) (w : Walk) :
    Except (List String) (List String) :=
  match _ : step next w with
  | .going w' => run next hfinite w'
  | .loop path => .error path
  | .over order => .ok order
termination_by remaining next hfinite.choose w
decreasing_by exact remaining_step_lt hfinite.choose_spec ‹_›

end Walk

/-- An order in which the dependents of each name are looked at. -/
structure Listing where
  list : Graph → String → List String
  nodup_list : ∀ g name, (list g name).Nodup
  mem_list : ∀ g name other, other ∈ list g name ↔ other ∈ g.dependents name

namespace Listing

/-- The dependents in the order of their names. -/
def sorted : Listing where
  list g name := (g.dependents name).toList
  nodup_list g name := by
    refine (Std.ExtTreeSet.distinct_toList (t := g.dependents name)).imp ?_
    intro a b h hab
    exact h (by rw [hab]; exact Std.ReflCmp.compare_self)
  mem_list _ _ _ := Std.ExtTreeSet.mem_toList

theorem finite_list (listing : Listing) (g : Graph) : Walk.Finite (listing.list g) := by
  refine ⟨g.dependentsOf.keys, fun name h => ?_⟩
  obtain ⟨other, rest, hlist⟩ := List.exists_cons_of_ne_nil h
  have : other ∈ listing.list g name := by rw [hlist]; exact List.mem_cons_self
  exact Graph.mem_keys_of_mem_dependents ((listing.mem_list g name other).1 this)

end Listing

/-- A loop found after a change of `cell`: each name of the path depends on the one before it, and
the last is the first again. -/
structure Cycle where
  cell : String
  path : List String
  deriving DecidableEq, Repr

def Cycle.message (c : Cycle) : String :=
  "Circular dependency detected at " ++ c.cell ++ ": " ++ " -> ".intercalate c.path

/-- The names to recompute after a change of `start`, dependees before dependents and `start`
first, or a loop that can be reached from `start`. -/
def Graph.recalculation (listing : Listing) (g : Graph) (start : String) :
    Except Cycle (List String) :=
  let next := listing.list g
  (Walk.run next (listing.finite_list g) (Walk.start next start)).mapError fun path =>
    { cell := start, path }

end Worksheet
