import Mathlib.Data.List.Nodup
import Worksheet.Proofs.Graph.Order

/-!
What a walk along the dependents keeps true, and what it finds.

`Walk.Coherent next start w` is the invariant of the walk. It ties the marks to the stack and to the
finished names, makes the stack a path along edges, and says that all that has been looked at of a
name on the path is finished, except for the next name of the path. `coherent_start` and
`coherent_step` carry it through the whole walk, and `run_ok` and `run_error` read off it:

* a walk that ends has listed exactly the names that it can reach, the first name first, without
  repetition and sorted (`Complete`);
* a walk that stops early has found a loop that it can reach, which begins with the first name if
  it meets it (`Found`).

`recalculation_ok`, `recalculation_error`, `recalculation_isOk_iff` and `recalculation_isError_iff`
say the same of a graph, in whatever order its sets are listed.
-/

namespace Worksheet.Walk

open Relation

variable {next : String → List String} {start : String} {w w' : Walk}

/-! ## One step -/

/-- What a step that goes on can do: finish the topmost name, skip a finished dependent, or put an
unmarked dependent on the path. -/
theorem step_going_cases (h : step next w = .going w') :
    (∃ name below, w.stack = { name, rest := [] } :: below ∧
      w' = { marks := w.marks.insert name .done, stack := below,
             finished := name :: w.finished }) ∨
    (∃ name dependent rest below, w.stack = { name, rest := dependent :: rest } :: below ∧
      w.marks[dependent]? = some .done ∧ w' = { w with stack := { name, rest } :: below }) ∨
    (∃ name dependent rest below, w.stack = { name, rest := dependent :: rest } :: below ∧
      w.marks[dependent]? = none ∧
      w' = { w with
             marks := w.marks.insert dependent .onPath
             stack := { name := dependent, rest := next dependent } :: { name, rest } :: below }) := by
  unfold step at h
  split at h
  · cases h
  · next name below hstack =>
    cases h
    exact .inl ⟨name, below, hstack, rfl⟩
  · next name dependent rest below hstack =>
    dsimp only at h
    split at h
    · next hmark =>
      cases h
      exact .inr (.inl ⟨name, dependent, rest, below, hstack, hmark, rfl⟩)
    · cases h
    · next hmark =>
      cases h
      exact .inr (.inr ⟨name, dependent, rest, below, hstack, hmark, rfl⟩)

/-- A step stops at a loop only on a dependent that is on the path. -/
theorem step_loop_cases {found : List String} (h : step next w = .loop found) :
    ∃ name dependent rest below, w.stack = { name, rest := dependent :: rest } :: below ∧
      w.marks[dependent]? = some .onPath ∧ found = loopAt w.stack dependent := by
  unfold step at h
  split at h
  · cases h
  · cases h
  · next name dependent rest below hstack =>
    dsimp only at h
    split at h
    · cases h
    · next hmark =>
      cases h
      exact ⟨name, dependent, rest, below, hstack, hmark, by rw [hstack]; rfl⟩
    · cases h

/-- A walk is over when nothing is left on its path. -/
theorem step_over_cases {order : List String} (h : step next w = .over order) :
    w.stack = [] ∧ order = w.finished := by
  unfold step at h
  split at h
  · next hstack =>
    cases h
    exact ⟨hstack, rfl⟩
  · cases h
  · dsimp only at h
    split at h <;> cases h

/-! ## The invariant -/

@[simp] theorem path_nil : path [] = [] := rfl

@[simp] theorem path_cons (f : Frame) (below : List Frame) :
    path (f :: below) = path below ++ [f.name] := by
  simp [path]

/-- The names that the walk has met: those on the path and the finished ones. -/
def met (w : Walk) : List String :=
  path w.stack ++ w.finished

/-- All that has been looked at of each name on the path is settled or is the next name of the
path. -/
def Settled (next : String → List String) : (String → Prop) → List Frame → Prop
  | _, [] => True
  | settled, f :: below =>
    (∃ looked, next f.name = looked ++ f.rest ∧ ∀ n ∈ looked, settled n) ∧
      Settled next (fun n => settled n ∨ n = f.name) below

theorem settled_mono {p q : String → Prop} (hpq : ∀ n, p n → q n) {stack : List Frame}
    (h : Settled next p stack) : Settled next q stack := by
  induction stack generalizing p q with
  | nil => trivial
  | cons f below ih =>
    obtain ⟨⟨looked, hnext, hlooked⟩, hbelow⟩ := h
    exact ⟨⟨looked, hnext, fun n hn => hpq n (hlooked n hn)⟩,
      ih (fun n hn => hn.imp_left (hpq n)) hbelow⟩

/-- The invariant of a walk that began at `start`. -/
structure Coherent (next : String → List String) (start : String) (w : Walk) : Prop where
  onPath_iff : ∀ n : String, w.marks[n]? = some .onPath ↔ n ∈ path w.stack
  done_iff : ∀ n : String, w.marks[n]? = some .done ↔ n ∈ w.finished
  nodup : (met w).Nodup
  chain : (path w.stack).IsChain (Leads next)
  settled : Settled next (· ∈ w.finished) w.stack
  sorted : Sorted next w.finished
  reached : ∀ n ∈ met w, ReflTransGen (Leads next) start n
  begins : (met w).head? = some start

theorem getElem?_insert_mark (marks : Std.ExtTreeMap String Mark) (name : String) (mark : Mark)
    (n : String) : (marks.insert name mark)[n]? = if name = n then some mark else marks[n]? := by
  simp only [Std.ExtTreeMap.getElem?_insert, Std.LawfulEqOrd.compare_eq_iff_eq]

theorem coherent_start (next : String → List String) (start : String) :
    Coherent next start (Walk.start next start) where
  onPath_iff n := by
    by_cases h : start = n <;> simp [Walk.start, getElem?_insert_mark, h, eq_comm]
  done_iff n := by
    by_cases h : start = n <;> simp [Walk.start, h]
  nodup := by simp [met, Walk.start]
  chain := by simp [Walk.start]
  settled := ⟨⟨[], rfl, by simp⟩, trivial⟩
  sorted := trivial
  reached n hn := by
    have : n = start := by simpa [met, Walk.start] using hn
    exact this ▸ .refl
  begins := by simp [met, Walk.start]

/-- A name has been met just if it is marked. -/
theorem Coherent.mem_met_iff (h : Coherent next start w) (n : String) :
    n ∈ met w ↔ w.marks[n]? ≠ none := by
  rw [met, List.mem_append, ← h.onPath_iff, ← h.done_iff]
  cases w.marks[n]? with
  | none => simp
  | some mark => cases mark <;> simp

/-- What has been looked at of the topmost name is finished. -/
theorem Coherent.settled_top (h : Coherent next start w) {name : String} {rest : List String}
    {below : List Frame} (hstack : w.stack = { name, rest } :: below) :
    (∃ looked, next name = looked ++ rest ∧ ∀ n ∈ looked, n ∈ w.finished) ∧
      Settled next (fun n => n ∈ w.finished ∨ n = name) below := by
  have hsettled := h.settled
  rw [hstack] at hsettled
  exact hsettled

theorem coherent_finish (h : Coherent next start w) {name : String} {below : List Frame}
    (hstack : w.stack = { name, rest := [] } :: below) :
    Coherent next start
      { marks := w.marks.insert name .done, stack := below, finished := name :: w.finished } := by
  have hmet : path below ++ name :: w.finished = met w := by
    simp [met, hstack]
  have hnodup := h.nodup
  have hchain := h.chain
  have honPath := h.onPath_iff
  rw [met, hstack, path_cons] at hnodup
  rw [hstack, path_cons] at hchain
  rw [hstack] at honPath
  have hname : name ∉ path below := fun hmem =>
    (List.nodup_append.1 (List.nodup_append.1 hnodup).1).2.2 name hmem name (by simp) rfl
  obtain ⟨⟨looked, hnext, hlooked⟩, hbelow⟩ := h.settled_top hstack
  constructor
  · intro n
    rw [getElem?_insert_mark]
    split
    · next hn => subst hn; simpa using hname
    · next hn => simpa [Ne.symm hn] using honPath n
  · intro n
    rw [getElem?_insert_mark]
    split
    · next hn => simp [hn]
    · next hn => simpa [Ne.symm hn] using h.done_iff n
  · rw [met, hmet]; exact h.nodup
  · exact hchain.left_of_append
  · refine settled_mono (fun n hn => ?_) hbelow
    rcases hn with hn | rfl
    · exact List.mem_cons_of_mem _ hn
    · exact List.mem_cons_self
  · refine ⟨fun other hother => hlooked other ?_, h.sorted⟩
    simpa [hnext] using hother
  · rw [met, hmet]; exact h.reached
  · rw [met, hmet]; exact h.begins

theorem coherent_skip (h : Coherent next start w) {name dependent : String} {rest : List String}
    {below : List Frame} (hstack : w.stack = { name, rest := dependent :: rest } :: below)
    (hmark : w.marks[dependent]? = some .done) :
    Coherent next start { w with stack := { name, rest } :: below } := by
  have hpath : path ({ name, rest } :: below) = path w.stack := by simp [hstack]
  have hmet : path ({ name, rest } :: below) ++ w.finished = met w := by
    rw [hpath, met]
  obtain ⟨⟨looked, hnext, hlooked⟩, hbelow⟩ := h.settled_top hstack
  constructor
  · intro n; rw [hpath]; exact h.onPath_iff n
  · exact h.done_iff
  · rw [met, hmet]; exact h.nodup
  · rw [hpath]; exact h.chain
  · refine ⟨⟨looked ++ [dependent], by simp [hnext], fun n hn => ?_⟩, hbelow⟩
    rcases List.mem_append.1 hn with hn | hn
    · exact hlooked n hn
    · rw [List.mem_singleton.1 hn]
      exact (h.done_iff dependent).1 hmark
  · exact h.sorted
  · rw [met, hmet]; exact h.reached
  · rw [met, hmet]; exact h.begins

theorem coherent_push (h : Coherent next start w) {name dependent : String} {rest : List String}
    {below : List Frame} (hstack : w.stack = { name, rest := dependent :: rest } :: below)
    (hmark : w.marks[dependent]? = none) :
    Coherent next start
      { w with
        marks := w.marks.insert dependent .onPath
        stack := { name := dependent, rest := next dependent } :: { name, rest } :: below } := by
  have hpath : path ({ name := dependent, rest := next dependent } :: { name, rest } :: below) =
      path w.stack ++ [dependent] := by simp [hstack]
  have hfresh : dependent ∉ met w := fun hmem => (h.mem_met_iff dependent).1 hmem hmark
  have hfreshPath : dependent ∉ path w.stack := fun hmem =>
    hfresh (List.mem_append_left _ hmem)
  have hfreshFinished : dependent ∉ w.finished := fun hmem =>
    hfresh (List.mem_append_right _ hmem)
  have hmet : (path w.stack ++ [dependent] ++ w.finished).Perm (dependent :: met w) := by
    rw [met, List.append_assoc, List.singleton_append]
    exact List.perm_middle
  obtain ⟨⟨looked, hnext, hlooked⟩, hbelow⟩ := h.settled_top hstack
  have hleads : Leads next name dependent := by simp [Leads, hnext]
  have hname : name ∈ met w := by simp [met, hstack]
  constructor
  · intro n
    rw [getElem?_insert_mark, hpath]
    split
    · next hn => simp [hn]
    · next hn => simpa [Ne.symm hn] using h.onPath_iff n
  · intro n
    rw [getElem?_insert_mark]
    split
    · next hn => subst hn; simpa using hfreshFinished
    · exact h.done_iff n
  · rw [met, hpath]
    exact hmet.nodup_iff.2 (List.nodup_cons.2 ⟨hfresh, h.nodup⟩)
  · rw [hpath]
    refine h.chain.append (List.isChain_singleton _) ?_
    simpa [hstack] using hleads
  · refine ⟨⟨[], rfl, by simp⟩, ⟨looked ++ [dependent], by simp [hnext], fun n hn => ?_⟩, ?_⟩
    · rcases List.mem_append.1 hn with hn | hn
      · exact .inl (hlooked n hn)
      · exact .inr (List.mem_singleton.1 hn)
    · exact settled_mono (fun n hn => hn.imp_left .inl) hbelow
  · exact h.sorted
  · intro n hn
    rw [met, hpath] at hn
    rcases List.mem_cons.1 (hmet.mem_iff.1 hn) with rfl | hn
    · exact (h.reached name hname).tail hleads
    · exact h.reached n hn
  · have hbegins := h.begins
    simp only [met, hpath]
    rw [met] at hbegins
    cases hp : path w.stack with
    | nil => simp [hstack] at hp
    | cons first more => simpa [hp] using hbegins

/-- Every step keeps the invariant. -/
theorem coherent_step (h : Coherent next start w) (hstep : step next w = .going w') :
    Coherent next start w' := by
  rcases step_going_cases hstep with ⟨name, below, hstack, rfl⟩ |
    ⟨name, dependent, rest, below, hstack, hmark, rfl⟩ |
    ⟨name, dependent, rest, below, hstack, hmark, rfl⟩
  · exact coherent_finish h hstack
  · exact coherent_skip h hstack hmark
  · exact coherent_push h hstack hmark

/-! ## The whole walk -/

/-- A walk ends in a coherent state that is over or has met a loop. -/
theorem run_cases (hfinite : Finite next) (h : Coherent next start w) :
    ∃ last, Coherent next start last ∧
      ((∃ order, step next last = .over order ∧ run next hfinite w = .ok order) ∨
        (∃ found, step next last = .loop found ∧ run next hfinite w = .error found)) := by
  fun_induction run next hfinite w with
  | case1 w w' hstep ih => exact ih (coherent_step h hstep)
  | case2 w found hstep => exact ⟨w, h, .inr ⟨found, hstep, rfl⟩⟩
  | case3 w order hstep => exact ⟨w, h, .inl ⟨order, hstep, rfl⟩⟩

/-- The order lists what `start` reaches, `start` first, and nothing before what it depends on. -/
structure Complete (next : String → List String) (start : String) (order : List String) :
    Prop where
  begins : order.head? = some start
  nodup : order.Nodup
  sorted : Sorted next order
  mem_iff : ∀ n, n ∈ order ↔ ReflTransGen (Leads next) start n

theorem Complete.start_mem {order : List String} (h : Complete next start order) :
    start ∈ order :=
  List.mem_of_mem_head? h.begins

theorem run_ok {hfinite : Finite next} {order : List String}
    (hrun : run next hfinite (Walk.start next start) = .ok order) : Complete next start order := by
  obtain ⟨last, hlast, ⟨order', hstep, hok⟩ | ⟨found, _, herror⟩⟩ :=
    run_cases hfinite (coherent_start next start)
  · obtain ⟨hstack, rfl⟩ := step_over_cases hstep
    rw [hok] at hrun
    cases hrun
    have hmet : met last = last.finished := by simp [met, hstack]
    have hbegins : last.finished.head? = some start := hmet ▸ hlast.begins
    exact
      { begins := hbegins
        nodup := hmet ▸ hlast.nodup
        sorted := hlast.sorted
        mem_iff := fun n =>
          ⟨fun hn => hlast.reached n (hmet ▸ hn),
            fun hn => mem_of_reaches hlast.sorted (List.mem_of_mem_head? hbegins) hn⟩ }
  · rw [herror] at hrun
    cases hrun

/-- A name is found on the path just if it is there. -/
theorem isSome_position? {stack : List Frame} {name : String} :
    (position? stack name).isSome ↔ name ∈ path stack :=
  List.isSome_idxOf?

/-- The part of the path from a name on. -/
theorem loopAt_eq {stack : List Frame} {name : String} (hname : name ∈ path stack) :
    ∃ before between, path stack = before ++ name :: between ∧
      loopAt stack name = name :: (between ++ [name]) := by
  obtain ⟨i, hi⟩ := Option.isSome_iff_exists.1 (isSome_position?.2 hname)
  obtain ⟨hlt, hget, _⟩ := List.idxOf?_eq_some_iff.1 hi
  have hdrop : (path stack).drop i = name :: (path stack).drop (i + 1) := by
    rw [List.drop_eq_getElem_cons hlt, hget]
  refine ⟨(path stack).take i, (path stack).drop (i + 1), ?_, ?_⟩
  · rw [← hdrop, List.take_append_drop]
  · rw [loopAt, hi, Option.getD_some, hdrop, List.cons_append]

/-- The path is a loop that `start` reaches, and it begins with `start` if it meets it. -/
structure Found (next : String → List String) (start : String) (path : List String) : Prop where
  loop : Loop next path
  reached : ∀ n ∈ path, ReflTransGen (Leads next) start n
  begins : start ∈ path → path.head? = some start

/-- A coherent walk stops at a loop: the upper part of its path, led back to where it begins. -/
theorem Coherent.loop_cases (h : Coherent next start w) {found : List String}
    (hstep : step next w = .loop found) :
    ∃ before name between, path w.stack = before ++ name :: between ∧
      found = name :: (between ++ [name]) ∧ found.IsChain (Leads next) := by
  obtain ⟨top, name, rest, below, hstack, hmark, hfound⟩ := step_loop_cases hstep
  obtain ⟨before, between, hsplit, hloop⟩ := loopAt_eq ((h.onPath_iff name).1 hmark)
  refine ⟨before, name, between, hsplit, hfound.trans hloop, ?_⟩
  -- the topmost name leads back to `name`
  have hleads : Leads next top name := by
    obtain ⟨looked, hnext, _⟩ := (h.settled_top hstack).1
    simp [Leads, hnext]
  have htop : (name :: between).getLast? = some top := by
    have hlast : (path w.stack).getLast? = some top := by simp [hstack]
    simpa [hsplit] using hlast
  have hchain := h.chain
  rw [hsplit] at hchain
  rw [hfound, hloop]
  refine hchain.right_of_append.append (List.isChain_singleton name) ?_
  intro x hx y hy
  rw [htop, Option.mem_some] at hx
  rw [List.head?_cons, Option.mem_some] at hy
  exact hx ▸ hy ▸ hleads

theorem Coherent.found_of_loop (h : Coherent next start w) {found : List String}
    (hstep : step next w = .loop found) : Found next start found := by
  obtain ⟨before, name, between, hsplit, rfl, hchain⟩ := h.loop_cases hstep
  have hnodup : (before ++ name :: between).Nodup := hsplit ▸ (List.nodup_append.1 h.nodup).1
  have hmem : ∀ n ∈ name :: (between ++ [name]), n ∈ name :: between := by
    simp only [List.mem_cons, List.mem_append, List.not_mem_nil, or_false]
    tauto
  constructor
  · exact ⟨hchain, name, between, rfl, (List.nodup_append.1 hnodup).2.1⟩
  · intro n hn
    refine h.reached n (List.mem_append_left _ ?_)
    rw [hsplit]
    exact List.mem_append_right _ (hmem n hn)
  · intro hstart
    have hbegins := h.begins
    rw [met, hsplit] at hbegins
    cases before with
    | nil => simpa using hbegins
    | cons first before =>
      -- `start` lies below the loop, so it is not met again
      have hfirst : first = start := by simpa using hbegins
      subst hfirst
      exact absurd rfl ((List.nodup_append.1 hnodup).2.2 _ List.mem_cons_self _ (hmem _ hstart))

theorem run_error {hfinite : Finite next} {found : List String}
    (hrun : run next hfinite (Walk.start next start) = .error found) : Found next start found := by
  obtain ⟨last, hlast, ⟨order, _, hok⟩ | ⟨found', hstep, herror⟩⟩ :=
    run_cases hfinite (coherent_start next start)
  · rw [hok] at hrun
    cases hrun
  · rw [herror] at hrun
    cases hrun
    exact hlast.found_of_loop hstep

end Worksheet.Walk

/-! ## Recalculation -/

namespace Worksheet

/-- The dependents in the opposite order of their names. -/
def Listing.reversed : Listing where
  list g name := (Listing.sorted.list g name).reverse
  nodup_list g name := List.nodup_reverse.2 (Listing.sorted.nodup_list g name)
  mem_list g name other := List.mem_reverse.trans (Listing.sorted.mem_list g name other)

namespace Graph

open Relation Walk

variable {g : Graph} {listing : Listing} {start : String}

/-- The dependent `b` directly depends on `a`. -/
def Edge (g : Graph) (a b : String) : Prop :=
  b ∈ g.dependents a

theorem leads_list (listing : Listing) (g : Graph) : Leads (listing.list g) = g.Edge := by
  funext a b
  exact propext (listing.mem_list g a b)

/-- No name reaches itself. -/
def Acyclic (g : Graph) : Prop :=
  ∀ a, ¬ TransGen g.Edge a a

theorem recalculation_ok {order : List String} (h : g.recalculation listing start = .ok order) :
    Complete (listing.list g) start order := by
  unfold recalculation at h
  cases hrun : run (listing.list g) (listing.finite_list g) (Walk.start (listing.list g) start) with
  | ok order' =>
    simp only [hrun, Except.mapError, Except.ok.injEq] at h
    exact h ▸ run_ok hrun
  | error path => simp [hrun, Except.mapError] at h

theorem recalculation_error {cycle : Cycle} (h : g.recalculation listing start = .error cycle) :
    cycle.cell = start ∧ Found (listing.list g) start cycle.path := by
  unfold recalculation at h
  cases hrun : run (listing.list g) (listing.finite_list g) (Walk.start (listing.list g) start) with
  | ok order' => simp [hrun, Except.mapError] at h
  | error path =>
    simp only [hrun, Except.mapError, Except.error.injEq] at h
    subst h
    exact ⟨rfl, run_error hrun⟩

/-- An order is found just if no loop can be reached. -/
theorem recalculation_isOk_iff (listing : Listing) (g : Graph) (start : String) :
    (∃ order, g.recalculation listing start = .ok order) ↔
      ∀ a, ReflTransGen g.Edge start a → ¬ TransGen g.Edge a a := by
  constructor
  · rintro ⟨order, h⟩ a hreach
    have hcomplete := recalculation_ok h
    have hmem : a ∈ order := (hcomplete.mem_iff a).2 (leads_list listing g ▸ hreach)
    have hnot := not_reaches_self hcomplete.sorted hcomplete.nodup hmem
    rwa [leads_list] at hnot
  · intro h
    cases hrun : g.recalculation listing start with
    | ok order => exact ⟨order, rfl⟩
    | error cycle =>
      have hfound := (recalculation_error hrun).2
      obtain ⟨a, ha, hself⟩ := hfound.loop.reaches_self
      have hreach := hfound.reached a ha
      rw [leads_list] at hself hreach
      exact absurd hself (h a hreach)

/-- A loop is reported just if one can be reached. -/
theorem recalculation_isError_iff (listing : Listing) (g : Graph) (start : String) :
    (∃ cycle, g.recalculation listing start = .error cycle) ↔
      ∃ a, ReflTransGen g.Edge start a ∧ TransGen g.Edge a a := by
  have hok := recalculation_isOk_iff listing g start
  cases hrun : g.recalculation listing start with
  | ok order =>
    have hnone := hok.1 ⟨order, hrun⟩
    simp only [reduceCtorEq, exists_false, false_iff]
    rintro ⟨a, hreach, hself⟩
    exact hnone a hreach hself
  | error cycle =>
    refine iff_of_true ⟨cycle, rfl⟩ ?_
    by_contra hnone
    push Not at hnone
    obtain ⟨order, horder⟩ := hok.2 hnone
    rw [hrun] at horder
    cases horder

end Graph

end Worksheet
