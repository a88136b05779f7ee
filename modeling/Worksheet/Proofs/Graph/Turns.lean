import Mathlib
import Worksheet.Proofs.Graph.Walk

/-!
A walk along the dependents, turn by turn.

`Walk.Turns next w states answer` follows a walk from `w` to its answer and keeps the states in
which its turns begin. The relation does not know why a walk ends; `exists_turns` says that it
does, and with the answer of `Walk.run`.

Three facts about one turn are carried through all of them. The invariant `Coherent` holds in every
state (`Turns.coherent`). A turn puts a name on the path only if the walk has not met it before, so
no name comes onto the path twice (`Turns.nodup_pushes`). And a turn looks at one dependent of the
topmost name or finishes that name, so there are at most as many turns as the names on the path
and their dependents (`Turns.length_le`). `recalculation_turns` puts this together for a graph.
-/

namespace Worksheet.Walk

variable {next : String → List String} {start : String} {w w' : Walk} {states : List Walk}
  {answer : Except (List String) (List String)}

/-- A walk from `w` on: the states in which its turns begin, and what the last of them answers. -/
inductive Turns (next : String → List String) :
    Walk → List Walk → Except (List String) (List String) → Prop where
  | finish {w : Walk} {order : List String} (h : step next w = .over order) :
      Turns next w [w] (.ok order)
  | loop {w : Walk} {found : List String} (h : step next w = .loop found) :
      Turns next w [w] (.error found)
  | going {w w' : Walk} {states : List Walk} {answer : Except (List String) (List String)}
      (h : step next w = .going w') (later : Turns next w' states answer) :
      Turns next w (w :: states) answer

/-- A walk takes finitely many turns. -/
theorem exists_turns (hfinite : Finite next) (w : Walk) :
    ∃ states, Turns next w states (run next hfinite w) := by
  fun_induction run next hfinite w with
  | case1 w w' hstep ih =>
    obtain ⟨states, later⟩ := ih
    exact ⟨w :: states, .going hstep later⟩
  | case2 w found hstep => exact ⟨[w], .loop hstep⟩
  | case3 w order hstep => exact ⟨[w], .finish hstep⟩

theorem Turns.eq_cons (h : Turns next w states answer) : ∃ later, states = w :: later := by
  cases h with
  | finish => exact ⟨[], rfl⟩
  | loop => exact ⟨[], rfl⟩
  | going => exact ⟨_, rfl⟩

theorem Turns.coherent (h : Turns next w states answer) (hcoherent : Coherent next start w) :
    ∀ v ∈ states, Coherent next start v := by
  induction h with
  | finish => simpa using hcoherent
  | loop => simpa using hcoherent
  | going hstep _ ih => exact List.forall_mem_cons.2 ⟨hcoherent, ih (coherent_step hcoherent hstep)⟩

/-! ## Names put on the path -/

/-- The name that a turn from `w` to `w'` puts on the path: the new top, if there is one more. -/
def pushed? (w w' : Walk) : Option String :=
  if w.stack.length < w'.stack.length then w'.stack.head?.map Frame.name else none

/-- All names that are put on the path from one of the states to the next. -/
def pushes (states : List Walk) : List String :=
  (states.zip states.tail).filterMap fun pair => pushed? pair.1 pair.2

theorem pushes_singleton (w : Walk) : pushes [w] = [] := rfl

theorem Turns.pushes_cons (h : Turns next w' states answer) (w : Walk) :
    pushes (w :: states) = (pushed? w w').toList ++ pushes states := by
  obtain ⟨later, rfl⟩ := h.eq_cons
  cases hpushed : pushed? w w' <;> simp [pushes, hpushed]

/-- The turns that a name takes by itself: to look at each of its dependents, and to finish it. -/
def turnsOf (next : String → List String) (name : String) : Nat :=
  (next name).length + 1

/-- What is left of these turns for the names on the path. -/
def pending (stack : List Frame) : Nat :=
  (stack.map fun f => f.rest.length + 1).sum

/-- A turn that goes on takes one off what is pending. It keeps to the names that are met, or puts
one more on the path with all its turns before it. -/
theorem step_going_pushed (h : step next w = .going w') :
    (pushed? w w' = none ∧ met w' = met w ∧ pending w'.stack + 1 = pending w.stack) ∨
    (∃ name, pushed? w w' = some name ∧ (met w').Perm (name :: met w) ∧
      pending w'.stack + 1 = pending w.stack + turnsOf next name) := by
  rcases step_going_cases h with ⟨name, below, hstack, rfl⟩ |
    ⟨name, dependent, rest, below, hstack, _, rfl⟩ |
    ⟨name, dependent, rest, below, hstack, _, rfl⟩
  · exact .inl ⟨by simp [pushed?, hstack], by simp [met, hstack],
      by simp [pending, hstack, Nat.add_comm]⟩
  · refine .inl ⟨by simp [pushed?, hstack], by simp [met, hstack], ?_⟩
    simp only [pending, hstack, List.map_cons, List.sum_cons, List.length_cons]
    omega
  · refine .inr ⟨dependent, by simp [pushed?, hstack], ?_, ?_⟩
    · have hpath : path w.stack = path ({ name, rest } :: below) := by simp [hstack]
      rw [met, met, hpath, path_cons, List.append_assoc, List.singleton_append]
      exact List.perm_middle
    · simp only [pending, turnsOf, hstack, List.map_cons, List.sum_cons, List.length_cons]
      omega

/-- No name is put on the path that has been met before, so none is put there twice. -/
theorem Turns.nodup_pushes (h : Turns next w states answer) (hcoherent : Coherent next start w) :
    (met w ++ pushes states).Nodup := by
  induction h with
  | finish => simpa [pushes_singleton] using hcoherent.nodup
  | loop => simpa [pushes_singleton] using hcoherent.nodup
  | going hstep later ih =>
    have hlater := ih (coherent_step hcoherent hstep)
    rw [later.pushes_cons]
    rcases step_going_pushed hstep with ⟨hpushed, hmet, _⟩ | ⟨name, hpushed, hmet, _⟩
    · simpa [hpushed, hmet] using hlater
    · -- the name passes from those to come to those that are met
      rw [hpushed, Option.toList_some, List.singleton_append, List.perm_middle.nodup_iff]
      exact (hmet.append_right _).nodup_iff.1 hlater

/-- There are no more turns than those pending, those of the names still to come, and the last. -/
theorem Turns.length_le (h : Turns next w states answer) :
    states.length ≤ pending w.stack + ((pushes states).map (turnsOf next)).sum + 1 := by
  induction h with
  | finish => simp
  | loop => simp
  | going hstep later ih =>
    rw [later.pushes_cons]
    rcases step_going_pushed hstep with ⟨hpushed, _, hpending⟩ | ⟨name, hpushed, _, hpending⟩
    · simp only [hpushed, Option.toList_none, List.nil_append, List.length_cons]
      omega
    · simp only [hpushed, Option.toList_some, List.singleton_append, List.map_cons, List.sum_cons,
        List.length_cons]
      omega

/-! ## Finished names and repeated ones -/

/-- What is finished after a turn has all its dependents finished before it. -/
theorem Coherent.done_of_leads (h : Coherent next start w) (hstep : step next w = .going w')
    {a b : String} (hafter : w'.marks[a]? = some .done) (hab : Leads next a b) :
    w.marks[b]? = some .done := by
  have hclosed (hbefore : w.marks[a]? = some .done) : w.marks[b]? = some .done :=
    (h.done_iff b).2 (mem_of_reaches h.sorted ((h.done_iff a).1 hbefore) (.single hab))
  rcases step_going_cases hstep with ⟨name, below, hstack, rfl⟩ |
    ⟨name, dependent, rest, below, hstack, _, rfl⟩ |
    ⟨name, dependent, rest, below, hstack, _, rfl⟩
  · rw [getElem?_insert_mark] at hafter
    split at hafter
    · next hname =>
      -- nothing of the topmost name is left to look at
      obtain ⟨⟨looked, hnext, hlooked⟩, _⟩ := h.settled_top hstack
      subst hname
      have hb : b ∈ looked := by simpa [Leads, hnext] using hab
      exact (h.done_iff b).2 (hlooked b hb)
    · exact hclosed hafter
  · exact hclosed hafter
  · rw [getElem?_insert_mark] at hafter
    split at hafter
    · simp at hafter
    · exact hclosed hafter

/-- A dependent that is on the path is found there, and the walk stops at the loop from it on. -/
theorem Coherent.step_repeated (h : Coherent next start w) {name dependent : String}
    {rest : List String} {below : List Frame}
    (hstack : w.stack = { name, rest := dependent :: rest } :: below)
    (hmark : w.marks[dependent]? = some .onPath) :
    ∃ i, position? ({ name, rest } :: below) dependent = some i ∧
      step next w = .loop ((path w.stack).drop i ++ [dependent]) := by
  have hpath : path w.stack = path ({ name, rest } :: below) := by simp [hstack]
  have hmem : dependent ∈ path ({ name, rest } :: below) :=
    hpath ▸ (h.onPath_iff dependent).1 hmark
  obtain ⟨i, hi⟩ := Option.isSome_iff_exists.1 (isSome_position?.2 hmem)
  refine ⟨i, hi, ?_⟩
  simp only [step, hstack, hmark, loopAt, hi, Option.getD_some, path_cons]

end Worksheet.Walk

namespace Worksheet

/-- Every name has as many dependents in a listing as in the graph. -/
theorem Listing.length_list (listing : Listing) (g : Graph) (name : String) :
    (listing.list g name).length = g.dependentCount name := by
  have hperm : (listing.list g name).Perm (Listing.sorted.list g name) := by
    refine (List.perm_ext_iff_of_nodup (listing.nodup_list g name)
      (Listing.sorted.nodup_list g name)).2 fun other => ?_
    rw [listing.mem_list, Listing.sorted.mem_list]
  exact hperm.length_eq.trans Std.ExtTreeSet.length_toList

namespace Graph

open Walk

/-- A recalculation ends on every graph, whichever way its sets are listed. It takes no more turns
than there are names put on the path, dependents of these, and one; no name is put there twice.
In every turn:

* the names marked as on the path are those on the stack, where none stands twice and each directly
  depends on the one before it;
* a name is marked as finished only if all that directly depends on it was so before the turn;
* a dependent that is on the path is found there, and what is reported is the path from it on. -/
theorem recalculation_turns (listing : Listing) (g : Graph) (start : String) :
    ∃ states answer,
      Turns (listing.list g) (Walk.start (listing.list g) start) states answer ∧
      g.recalculation listing start = answer.mapError (fun path => { cell := start, path }) ∧
      states.length ≤ ((start :: pushes states).map fun a => g.dependentCount a + 1).sum + 1 ∧
      (start :: pushes states).Nodup ∧
      ∀ w ∈ states,
        (∀ a : String, w.marks[a]? = some .onPath ↔ a ∈ path w.stack) ∧
        (path w.stack).Nodup ∧
        (path w.stack).IsChain g.Edge ∧
        (∀ w', step (listing.list g) w = .going w' → ∀ a b : String,
          w'.marks[a]? = some .done → g.Edge a b → w.marks[b]? = some .done) ∧
        ∀ (name dependent : String) (rest : List String) (below : List Frame),
          w.stack = { name, rest := dependent :: rest } :: below →
          w.marks[dependent]? = some .onPath →
          ∃ i, position? ({ name, rest } :: below) dependent = some i ∧
            step (listing.list g) w = .loop ((path w.stack).drop i ++ [dependent]) := by
  have hfinite := listing.finite_list g
  have hstart := coherent_start (listing.list g) start
  obtain ⟨states, hturns⟩ := exists_turns hfinite (Walk.start (listing.list g) start)
  refine ⟨states, _, hturns, rfl, ?_, ?_, fun w hw => ?_⟩
  · have hturnsOf : turnsOf (listing.list g) = fun a => g.dependentCount a + 1 := by
      funext a
      rw [turnsOf, listing.length_list]
    rw [← hturnsOf, List.map_cons, List.sum_cons]
    simpa [pending, turnsOf, Walk.start] using hturns.length_le
  · simpa [met, Walk.start] using hturns.nodup_pushes hstart
  · have hcoherent := hturns.coherent hstart w hw
    refine ⟨hcoherent.onPath_iff, (List.nodup_append.1 hcoherent.nodup).1, ?_, ?_, ?_⟩
    · exact leads_list listing g ▸ hcoherent.chain
    · intro w' hstep a b hafter hab
      rw [← leads_list listing g] at hab
      exact hcoherent.done_of_leads hstep hafter hab
    · intro name dependent rest below hstack hmark
      exact hcoherent.step_repeated hstack hmark

end Graph

end Worksheet
