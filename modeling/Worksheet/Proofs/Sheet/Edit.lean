import Worksheet.Proofs.Formula.Case
import Worksheet.Proofs.Graph.Pairs
import Worksheet.Proofs.Graph.Walk
import Worksheet.Sheet

/-!
What one edit does to a sheet whose graph says what its formulas refer to.

`Sheet.Consistent s` ties the graph of `s` to its contents: an edge from `u` to `v` for every
reference to `u` in the content of `v` and no other, no loop, and only canonical names and contents.
`setAt_ok` and `setAt_error` say what an edit is on such a sheet. An accepted one changes the
content of one cell and is consistent again (`consistent_setAt`); a rejected one gives back the very
same sheet (`setAt_error`), since putting the old references back puts the old pairs back.

That an accepted edit closes no loop anywhere needs a search from the edited cell only: every new
edge ends in that cell, so every new loop passes through it (`acyclic_replaceDependees`).
-/

namespace Worksheet

open Relation

/-! ## Loops through one name -/

namespace Graph

variable {g : Graph} {E : Finset (String × String)} {cell : String} {names : List String}

theorem edge_replaceDependees (h : g.Represents E) {a b : String} :
    (g.replaceDependees cell names).Edge a b ↔ if b = cell then a ∈ names else g.Edge a b := by
  rw [Edge, (represents_replaceDependees h cell names).mem_dependents, mem_withDependees, Edge,
    h.mem_dependents]

/-- With other dependees of `cell`, a path is an old one or passes through `cell`. -/
theorem transGen_replaceDependees (h : g.Represents E) {a b : String}
    (hab : TransGen (g.replaceDependees cell names).Edge a b) :
    TransGen g.Edge a b ∨
      (ReflTransGen (g.replaceDependees cell names).Edge a cell ∧
        ReflTransGen (g.replaceDependees cell names).Edge cell b) := by
  induction hab with
  | @single b hab =>
    by_cases hb : b = cell
    · subst hb
      exact .inr ⟨.single hab, .refl⟩
    · rw [edge_replaceDependees h, if_neg hb] at hab
      exact .inl (.single hab)
  | @tail b c hab hbc ih =>
    by_cases hc : c = cell
    · subst hc
      exact .inr ⟨hab.to_reflTransGen.tail hbc, .refl⟩
    · rcases ih with hold | ⟨hto, hfrom⟩
      · rw [edge_replaceDependees h, if_neg hc] at hbc
        exact .inl (hold.tail hbc)
      · exact .inr ⟨hto, hfrom.tail hbc⟩

/-- If no loop can be reached from `cell`, then the new dependees of `cell` close none. -/
theorem acyclic_replaceDependees (h : g.Represents E) (hg : g.Acyclic)
    (hcell : ∀ a, ReflTransGen (g.replaceDependees cell names).Edge cell a →
      ¬ TransGen (g.replaceDependees cell names).Edge a a) :
    (g.replaceDependees cell names).Acyclic := by
  intro a haa
  rcases transGen_replaceDependees h haa with hold | ⟨_, hfrom⟩
  · exact hg a hold
  · exact hcell a hfrom haa

/-- A cell without dependees is on no loop. -/
theorem acyclic_replaceDependees_nil (h : g.Represents E) (hg : g.Acyclic) :
    (g.replaceDependees cell []).Acyclic := by
  intro a haa
  refine hg a (TransGen.mono (fun u v huv => ?_) a a haa)
  rw [edge_replaceDependees h] at huv
  split at huv
  · cases huv
  · exact huv

theorem acyclic_empty : Graph.empty.Acyclic := by
  intro a haa
  obtain ⟨b, hab, _⟩ := TransGen.head'_iff.1 haa
  exact absurd ((represents_empty.mem_dependents a b).1 hab) (Finset.notMem_empty _)

end Graph

namespace Sheet

/-! ## Consistent sheets -/

/-- The content of `b` refers to `a`. -/
def RefersTo (s : Sheet) (a b : String) : Prop :=
  a ∈ (s.contentAt b).references

/-- What a sheet may keep under a name: something, in the sheet's case, and under a name in it. -/
structure Keeps (casing : Casing) (name : String) (c : Content) : Prop where
  canonical : Name.Canonical casing name
  nonempty : c.isEmpty = false
  recased : c.recase casing = c

/-- The graph of the sheet says what its contents refer to, and there is no loop in it. -/
structure Consistent (s : Sheet) : Prop where
  represents : ∃ E, s.graph.Represents E ∧ ∀ u v, (u, v) ∈ E ↔ s.RefersTo u v
  acyclic : s.graph.Acyclic
  keeps : ∀ name c, s.cells[name]? = some c → Keeps s.casing name c

variable {s : Sheet} {cell : String} {c : Content} {listing : Listing} {order : List String}

theorem contentAt_eq (s : Sheet) (cell : String) : s.contentAt cell = s.cells[cell]?.getD .empty :=
  Std.ExtTreeMap.getD_eq_getD_getElem?

theorem getElem?_store (s : Sheet) (cell : String) (c : Content) (a : String) :
    (s.store cell c).cells[a]? =
      if cell = a then (if c.isEmpty then none else some c) else s.cells[a]? := by
  rw [store]
  by_cases hc : c.isEmpty = true
  · simp only [hc, if_true, Std.ExtTreeMap.getElem?_erase, Std.LawfulEqOrd.compare_eq_iff_eq]
  · simp only [hc, Bool.false_eq_true, if_false, Std.ExtTreeMap.getElem?_insert,
      Std.LawfulEqOrd.compare_eq_iff_eq]

/-- An erased cell reads as the empty content, so storing is storing. -/
@[simp] theorem contentAt_store (s : Sheet) (cell : String) (c : Content) (a : String) :
    (s.store cell c).contentAt a = if cell = a then c else s.contentAt a := by
  rw [contentAt_eq, contentAt_eq, getElem?_store]
  split
  · split
    · next hc => exact (Content.isEmpty_iff.1 hc).symm
    · rfl
  · rfl

theorem edge_iff_refersTo (h : s.Consistent) {u v : String} :
    s.graph.Edge u v ↔ s.RefersTo u v := by
  obtain ⟨E, hE, href⟩ := h.represents
  rw [Graph.Edge, hE.mem_dependents, href]

theorem edge_eq_refersTo (h : s.Consistent) : s.graph.Edge = s.RefersTo := by
  funext u v
  exact propext (edge_iff_refersTo h)

theorem mem_dependees_iff_refersTo (h : s.Consistent) {u v : String} :
    u ∈ s.graph.dependees v ↔ s.RefersTo u v := by
  obtain ⟨E, hE, href⟩ := h.represents
  rw [hE.mem_dependees, href]

theorem refersTo_iff {u v : String} :
    s.RefersTo u v ↔ ∃ f, s.cells[v]? = some (.formula f) ∧ u ∈ f.references := by
  rw [RefersTo, contentAt_eq, Content.mem_references]
  cases s.cells[v]? with
  | none => simp [Content.empty]
  | some c => simp

theorem consistent_empty (casing : Casing) : (Sheet.empty casing).Consistent where
  represents := ⟨∅, Graph.represents_empty, fun u v => by simp [refersTo_iff, Sheet.empty]⟩
  acyclic := Graph.acyclic_empty
  keeps name c h := by simp [Sheet.empty] at h

/-- What a name in a consistent sheet refers to is in the sheet's case. -/
theorem canonical_of_refersTo (h : s.Consistent) {u v : String} (huv : s.RefersTo u v) :
    Name.Canonical s.casing u ∧ Name.Canonical s.casing v := by
  obtain ⟨f, hf, hu⟩ := refersTo_iff.1 huv
  have hkeeps := h.keeps v _ hf
  exact ⟨Formula.canonical_of_mem_references (Content.formula.inj hkeeps.recased) hu,
    hkeeps.canonical⟩

/-! ## One edit -/

/-- The answer to an edit is that of the recalculation with the new references. -/
theorem answer_setAt (listing : Listing) (s : Sheet) (cell : String) (c : Content) :
    (s.setAt listing cell c).2 =
      ((s.graph.replaceDependees cell c.references).recalculation listing cell).mapError
        .circular := by
  simp only [setAt]
  split
  · next hrun => rw [hrun]; rfl
  · next hrun => rw [hrun]; rfl

/-- What an accepted edit leaves. -/
theorem setAt_ok (h : (s.setAt listing cell c).2 = .ok order) :
    (s.setAt listing cell c).1 =
        { s with graph := s.graph.replaceDependees cell c.references }.store cell c ∧
      (s.graph.replaceDependees cell c.references).recalculation listing cell = .ok order := by
  simp only [setAt] at h ⊢
  split at h
  · next order' hrun =>
    cases h
    exact ⟨rfl, hrun⟩
  · cases h

/-- A rejected edit leaves the sheet as it was, and with the new references there would have been
a loop. -/
theorem setAt_error (hs : s.Consistent) {e : CellError}
    (h : (s.setAt listing cell c).2 = .error e) :
    (s.setAt listing cell c).1 = s ∧ ∃ cycle, e = .circular cycle ∧
      (s.graph.replaceDependees cell c.references).recalculation listing cell = .error cycle := by
  simp only [setAt] at h ⊢
  split at h
  · cases h
  · next cycle hrun =>
    cases h
    obtain ⟨E, hE, _⟩ := hs.represents
    have hlinked := Graph.represents_replaceDependees hE cell c.references
    have hback := Graph.represents_replaceDependees hlinked cell (s.graph.dependees cell).toList
    -- the old dependees of the cell make the set of pairs the old one
    have hpairs : Graph.withDependees (Graph.withDependees E cell c.references) cell
        (s.graph.dependees cell).toList = E := by
      ext ⟨u, v⟩
      rw [Graph.mem_withDependees, Graph.mem_withDependees, Std.ExtTreeSet.mem_toList,
        hE.mem_dependees]
      split
      · next hv => rw [hv]
      · rfl
    rw [hpairs] at hback
    rw [hrun]
    dsimp only
    rw [Graph.represents_unique hback hE]
    exact ⟨rfl, cycle, rfl, rfl⟩

/-- An accepted edit keeps the sheet consistent. -/
theorem consistent_setAt (hs : s.Consistent) (hcell : Name.Canonical s.casing cell)
    (hc : c.recase s.casing = c) (h : (s.setAt listing cell c).2 = .ok order) :
    (s.setAt listing cell c).1.Consistent := by
  obtain ⟨hsheet, hrun⟩ := setAt_ok h
  obtain ⟨E, hE, href⟩ := hs.represents
  rw [hsheet]
  constructor
  · refine ⟨_, Graph.represents_replaceDependees hE cell c.references, fun u v => ?_⟩
    rw [Graph.mem_withDependees, RefersTo, contentAt_store]
    by_cases hv : v = cell
    · rw [if_pos hv, if_pos hv.symm]
    · rw [if_neg hv, if_neg (Ne.symm hv), href]
      rfl
  · exact Graph.acyclic_replaceDependees hE hs.acyclic
      ((Graph.recalculation_isOk_iff listing _ cell).1 ⟨order, hrun⟩)
  · intro name d hd
    rw [getElem?_store] at hd
    split at hd
    · next hname =>
      subst hname
      split at hd
      · cases hd
      · next hnonempty =>
        cases hd
        exact ⟨hcell, by simpa using hnonempty, hc⟩
    · exact hs.keeps name d hd

/-- A content without references is always accepted. -/
theorem setAt_of_no_references (hs : s.Consistent) (listing : Listing) (cell : String)
    (hc : c.references = []) : ∃ order, (s.setAt listing cell c).2 = .ok order := by
  obtain ⟨E, hE, _⟩ := hs.represents
  have hacyclic : (s.graph.replaceDependees cell c.references).Acyclic := by
    rw [hc]
    exact Graph.acyclic_replaceDependees_nil hE hs.acyclic
  obtain ⟨order, hrun⟩ := (Graph.recalculation_isOk_iff listing _ cell).2 fun a _ => hacyclic a
  exact ⟨order, by simp only [setAt, hrun]⟩

/-! ## Names as they come -/

theorem cellName_of_isValid (s : Sheet) {name : String} (h : Name.isValid name) :
    s.cellName name = .ok (s.casing.apply name) := by
  simp [cellName, Name.canonical?, h]

theorem cellName_of_canonical {name : String} (h : Name.Canonical s.casing name) :
    s.cellName name = .ok name := by
  rw [cellName_of_isValid s h.1, h.2]

theorem set_of_isValid (listing : Listing) (s : Sheet) {name : String} (c : Content)
    (h : Name.isValid name) :
    s.set listing name c = s.setAt listing (s.casing.apply name) (c.recase s.casing) := by
  rw [set, cellName_of_isValid s h]

theorem set_of_not_isValid (listing : Listing) (s : Sheet) {name : String} (c : Content)
    (h : ¬ Name.isValid name) : s.set listing name c = (s, .error (.invalidName name)) := by
  simp [set, cellName, Name.canonical?, h]

/-- An accepted edit changes the content of its cell, and no other. -/
theorem set_ok {name : String} (h : (s.set listing name c).2 = .ok order) :
    Name.isValid name ∧
    (∀ a, (s.set listing name c).1.contentAt a =
      if s.casing.apply name = a then c.recase s.casing else s.contentAt a) ∧
    (s.set listing name c).1.graph.recalculation listing (s.casing.apply name) = .ok order := by
  by_cases hname : Name.isValid name = true
  · rw [set_of_isValid listing s c hname] at h ⊢
    obtain ⟨hsheet, hrun⟩ := setAt_ok h
    rw [hsheet]
    exact ⟨hname, fun a => contentAt_store _ _ _ a, hrun⟩
  · rw [set_of_not_isValid listing s c hname] at h
    cases h

/-- Every rejected edit leaves a consistent sheet as it was. -/
theorem set_error (hs : s.Consistent) {name : String} {e : CellError}
    (h : (s.set listing name c).2 = .error e) : (s.set listing name c).1 = s := by
  by_cases hname : Name.isValid name = true
  · rw [set_of_isValid listing s c hname] at h ⊢
    exact (setAt_error hs h).1
  · rw [set_of_not_isValid listing s c hname]

theorem consistent_set (hs : s.Consistent) (listing : Listing) (name : String) (c : Content) :
    (s.set listing name c).1.Consistent := by
  cases hanswer : (s.set listing name c).2 with
  | error e =>
    rw [set_error hs hanswer]
    exact hs
  | ok order =>
    by_cases hname : Name.isValid name = true
    · rw [set_of_isValid listing s c hname] at hanswer ⊢
      exact consistent_setAt hs (Name.canonical_apply s.casing hname)
        (c.recase_recase s.casing) hanswer
    · rw [set_of_not_isValid listing s c hname] at hanswer
      cases hanswer

theorem casing_setAt (listing : Listing) (s : Sheet) (cell : String) (c : Content) :
    (s.setAt listing cell c).1.casing = s.casing := by
  simp only [setAt]
  split <;> rfl

@[simp] theorem casing_set (listing : Listing) (s : Sheet) (name : String) (c : Content) :
    (s.set listing name c).1.casing = s.casing := by
  by_cases hname : Name.isValid name = true
  · rw [set_of_isValid listing s c hname, casing_setAt]
  · rw [set_of_not_isValid listing s c hname]

end Sheet

end Worksheet
