import Std.Data.ExtTreeMap
import Std.Data.ExtTreeSet

/-!
Which names depend on which: a finite set of edges from a dependee to its dependents, kept from
both ends and counted. No name is kept with an empty set.
-/

namespace Worksheet

/-- A finite set of names. -/
abbrev Names := Std.ExtTreeSet String

/-- Sets of names by name; a name that is missing has the empty set. -/
abbrev Links := Std.ExtTreeMap String Names

namespace Links

def linked (links : Links) (name : String) : Names :=
  links.getD name ∅

/-- Adds `other` to the set of `name`. -/
def link (links : Links) (name other : String) : Links :=
  links.insert name ((links.linked name).insert other)

/-- Takes `other` out of the set of `name`, and `name` itself with the last of its set. -/
def unlink (links : Links) (name other : String) : Links :=
  let rest := (links.linked name).erase other
  if rest.isEmpty then links.erase name else links.insert name rest

end Links

/-- A dependency graph: an edge leads from a dependee to a name that depends on it. -/
structure Graph where
  dependentsOf : Links
  dependeesOf : Links
  size : Nat

namespace Graph

def empty : Graph :=
  { dependentsOf := ∅, dependeesOf := ∅, size := 0 }

def isEmpty (g : Graph) : Bool :=
  g.size == 0

/-- The names that directly depend on `name`. -/
def dependents (g : Graph) (name : String) : Names :=
  g.dependentsOf.linked name

/-- The names that `name` directly depends on. -/
def dependees (g : Graph) (name : String) : Names :=
  g.dependeesOf.linked name

def dependentCount (g : Graph) (name : String) : Nat :=
  (g.dependents name).size

def dependeeCount (g : Graph) (name : String) : Nat :=
  (g.dependees name).size

def hasDependents (g : Graph) (name : String) : Bool :=
  g.dependentsOf.contains name

def hasDependees (g : Graph) (name : String) : Bool :=
  g.dependeesOf.contains name

/-- Adds the edge, unless it is there. -/
def add (g : Graph) (dependee dependent : String) : Graph :=
  if (g.dependents dependee).contains dependent then
    g
  else
    { dependentsOf := g.dependentsOf.link dependee dependent
      dependeesOf := g.dependeesOf.link dependent dependee
      size := g.size + 1 }

/-- Removes the edge, if it is there. -/
def remove (g : Graph) (dependee dependent : String) : Graph :=
  if (g.dependents dependee).contains dependent then
    { dependentsOf := g.dependentsOf.unlink dependee dependent
      dependeesOf := g.dependeesOf.unlink dependent dependee
      size := g.size - 1 }
  else
    g

/-- The members of `old` that are not in `new`. -/
def outdated (old new : Names) : List String :=
  old.toList.filter fun name => !new.contains name

/-- Makes `names` exactly the names that depend on `name`. -/
def replaceDependents (g : Graph) (name : String) (names : List String) : Graph :=
  let new := Std.ExtTreeSet.ofList names
  let g := (outdated (g.dependents name) new).foldl (fun g old => g.remove name old) g
  new.toList.foldl (fun g dependent => g.add name dependent) g

/-- Makes `names` exactly the names that `name` depends on. -/
def replaceDependees (g : Graph) (name : String) (names : List String) : Graph :=
  let new := Std.ExtTreeSet.ofList names
  let g := (outdated (g.dependees name) new).foldl (fun g old => g.remove old name) g
  new.toList.foldl (fun g dependee => g.add dependee name) g

/-- The graph without its edges. -/
def clear (_g : Graph) : Graph :=
  empty

/-- Only a name that is kept has dependents. -/
theorem mem_keys_of_mem_dependents {g : Graph} {name other : String}
    (h : other ∈ g.dependents name) : name ∈ g.dependentsOf.keys := by
  rw [Std.ExtTreeMap.mem_keys]
  refine Classical.byContradiction fun hname => ?_
  rw [dependents, Links.linked, Std.ExtTreeMap.getD_eq_fallback hname] at h
  exact Std.ExtTreeSet.not_mem_empty h

end Graph

end Worksheet
