import Worksheet.Proofs.Sheet.Run

/-!
A consistent sheet is known when its contents are.

The references are those in the contents, so that sheets with the same contents have the same graph
(`eq_of_contentAt`), and so is every cell that can be asked for (`contentAt_eq_of_content`). Nothing
of this depends on the order in which an edit lists sets of names: in another order it gives the
same sheet (`set_eq_set`) and the same answer (`sameAnswer_set`), except that another loop may be
reported. A cell that is given its own content stays as it is (`set_contentAt`).
-/

namespace Worksheet

/-! ## Answers -/

/-- The answers accept with the same cells to recompute, or reject for the same reason. -/
inductive SameAnswer {ε : Type} (same : ε → ε → Prop) :
    Except ε (List String) → Except ε (List String) → Prop
  | accepted {order order' : List String} (h : order.Perm order') :
      SameAnswer same (.ok order) (.ok order')
  | rejected {e e' : ε} (h : same e e') : SameAnswer same (.error e) (.error e')

/-- The reasons are the same, except for the path of a loop. -/
inductive CellError.SameKind : CellError → CellError → Prop
  | invalidName (name : String) : SameKind (.invalidName name) (.invalidName name)
  | circular {cycle cycle' : Cycle} (h : cycle.cell = cycle'.cell) :
      SameKind (.circular cycle) (.circular cycle')

/-- Any two orders of listing find the same names, or a loop each. -/
theorem Graph.sameAnswer_recalculation (g : Graph) (start : String) (listing listing' : Listing) :
    SameAnswer CellError.SameKind ((g.recalculation listing start).mapError .circular)
      ((g.recalculation listing' start).mapError .circular) := by
  have hok := recalculation_isOk_iff listing g start
  have hok' := recalculation_isOk_iff listing' g start
  cases hrun : g.recalculation listing start with
  | ok order =>
    obtain ⟨order', hrun'⟩ := hok'.2 (hok.1 ⟨order, hrun⟩)
    have hcomplete := recalculation_ok hrun
    have hcomplete' := recalculation_ok hrun'
    rw [hrun']
    refine .accepted ((List.perm_ext_iff_of_nodup hcomplete.nodup hcomplete'.nodup).2 fun a => ?_)
    rw [hcomplete.mem_iff, hcomplete'.mem_iff, leads_list, leads_list]
  | error cycle =>
    cases hrun' : g.recalculation listing' start with
    | ok order' =>
      obtain ⟨order, hrun''⟩ := hok.2 (hok'.1 ⟨order', hrun'⟩)
      rw [hrun] at hrun''
      cases hrun''
    | error cycle' =>
      have hcell := (recalculation_error hrun).1
      have hcell' := (recalculation_error hrun').1
      exact .rejected (.circular (hcell.trans hcell'.symm))

namespace Sheet

variable {s s' : Sheet} {cell : String}

/-! ## Sheets with the same contents -/

/-- Nothing is kept for an empty cell, and every other cell is kept with its content. -/
theorem getElem?_of_consistent (hs : s.Consistent) (a : String) :
    s.cells[a]? = if (s.contentAt a).isEmpty then none else some (s.contentAt a) := by
  rw [contentAt_eq]
  cases hc : s.cells[a]? with
  | none => rfl
  | some c =>
    have hnonempty := (hs.keeps a c hc).nonempty
    simp [hnonempty]

/-- The contents determine the sheet. -/
theorem eq_of_contentAt (hs : s.Consistent) (hs' : s'.Consistent) (hcasing : s.casing = s'.casing)
    (h : ∀ a, s.contentAt a = s'.contentAt a) : s = s' := by
  have hcells : s.cells = s'.cells := by
    refine Std.ExtTreeMap.ext_getElem? fun a => ?_
    rw [getElem?_of_consistent hs, getElem?_of_consistent hs', h]
  obtain ⟨E, hE, href⟩ := hs.represents
  obtain ⟨E', hE', href'⟩ := hs'.represents
  have hpairs : E = E' := by
    ext ⟨u, v⟩
    rw [href, href', RefersTo, RefersTo, h]
  have hgraph : s.graph = s'.graph := Graph.represents_unique (hpairs ▸ hE) hE'
  cases s
  cases s'
  simp_all

theorem content_of_canonical {a : String} (ha : Name.Canonical s.casing a) :
    s.content a = .ok (s.contentAt a) := by
  rw [content, cellName_of_canonical ha]
  rfl

/-- Under a name that no cell has, nothing is kept. -/
theorem contentAt_of_not_canonical (hs : s.Consistent) {a : String}
    (ha : ¬ Name.Canonical s.casing a) : s.contentAt a = .empty := by
  rw [contentAt_eq]
  cases hc : s.cells[a]? with
  | none => rfl
  | some c => exact absurd (hs.keeps a c hc).canonical ha

/-- The contents that can be asked for are all that there are. -/
theorem contentAt_eq_of_content (hs : s.Consistent) (hs' : s'.Consistent)
    (hcasing : s.casing = s'.casing) (h : ∀ name, s.content name = s'.content name) (a : String) :
    s.contentAt a = s'.contentAt a := by
  by_cases ha : Name.Canonical s.casing a
  · have ha' : Name.Canonical s'.casing a := hcasing ▸ ha
    have hsame := h a
    rw [content_of_canonical ha, content_of_canonical ha'] at hsame
    exact Except.ok.inj hsame
  · have ha' : ¬ Name.Canonical s'.casing a := hcasing ▸ ha
    rw [contentAt_of_not_canonical hs ha, contentAt_of_not_canonical hs' ha']

/-! ## Edits in another order of listing -/

theorem sameAnswer_set (s : Sheet) (listing listing' : Listing) (name : String) (c : Content) :
    SameAnswer CellError.SameKind (s.set listing name c).2 (s.set listing' name c).2 := by
  by_cases hname : Name.isValid name = true
  · rw [set_of_isValid listing s c hname, set_of_isValid listing' s c hname, answer_setAt,
      answer_setAt]
    exact Graph.sameAnswer_recalculation _ _ listing listing'
  · rw [set_of_not_isValid listing s c hname, set_of_not_isValid listing' s c hname]
    exact .rejected (.invalidName name)

theorem set_eq_set (hs : s.Consistent) (listing listing' : Listing) (name : String) (c : Content) :
    (s.set listing name c).1 = (s.set listing' name c).1 := by
  have hanswer := sameAnswer_set s listing listing' name c
  generalize h : (s.set listing name c).2 = answer at hanswer
  generalize h' : (s.set listing' name c).2 = answer' at hanswer
  cases hanswer with
  | rejected _ => rw [set_error hs h, set_error hs h']
  | accepted _ =>
    refine eq_of_contentAt (consistent_set hs listing name c) (consistent_set hs listing' name c)
      (by simp) fun a => ?_
    rw [(set_ok h).2.1, (set_ok h').2.1]

/-! ## A cell set to its own content -/

/-- The references of a cell are the dependees that it has. -/
theorem replaceDependees_references (hs : s.Consistent) (cell : String) :
    s.graph.replaceDependees cell (s.contentAt cell).references = s.graph := by
  obtain ⟨E, hE, href⟩ := hs.represents
  have hpairs : Graph.withDependees E cell (s.contentAt cell).references = E := by
    ext ⟨u, v⟩
    rw [Graph.mem_withDependees]
    split
    · next hv =>
      rw [hv, href]
      rfl
    · rfl
  have hreplaced := Graph.represents_replaceDependees hE cell (s.contentAt cell).references
  rw [hpairs] at hreplaced
  exact Graph.represents_unique hreplaced hE

theorem recase_contentAt (hs : s.Consistent) (cell : String) :
    (s.contentAt cell).recase s.casing = s.contentAt cell := by
  rw [contentAt_eq]
  cases hc : s.cells[cell]? with
  | none => rfl
  | some c => exact (hs.keeps cell c hc).recased

/-- A cell that is set to its own content is accepted, and the sheet stays as it is. -/
theorem set_contentAt (hs : s.Consistent) (listing : Listing) {name : String}
    (hname : Name.isValid name) :
    ∃ order, s.set listing name (s.contentAt (s.casing.apply name)) = (s, .ok order) := by
  obtain ⟨order, hrun⟩ := (Graph.recalculation_isOk_iff listing s.graph (s.casing.apply name)).2
    fun a _ => hs.acyclic a
  have hanswer :
      (s.set listing name (s.contentAt (s.casing.apply name))).2 = .ok order := by
    rw [set_of_isValid listing s _ hname, answer_setAt, recase_contentAt hs,
      replaceDependees_references hs, hrun]
    rfl
  have hsheet : (s.set listing name (s.contentAt (s.casing.apply name))).1 = s := by
    refine eq_of_contentAt (consistent_set hs listing name _) hs (casing_set listing s name _) ?_
    intro a
    rw [(set_ok hanswer).2.1, recase_contentAt hs]
    split
    · next ha => rw [ha]
    · rfl
  exact ⟨order, Prod.ext hsheet hanswer⟩

end Sheet

end Worksheet
