import Mathlib.Data.List.Nodup
import Worksheet.Proofs.Toml.Row

/-!
Documents that consist of sections.

A section is a header with entries below it. The lines of sections with distinct names, of which
each has distinct keys, are built up into one table with the sections in it (`parse?_sections`): a
header begins an empty table at the end of the draft (`add_header`), and an entry goes to the end of
the last table (`add_entry`).
-/

namespace Worksheet.Toml

/-- A header and the entries below it. -/
structure Section where
  name : String
  entries : List (String × Scalar)

namespace Section

def clauses (t : Section) : List Clause :=
  .header t.name :: t.entries.map fun e => .entry e.1 e.2

/-- The table that the section is read as. -/
def table (t : Section) : String × Item :=
  (t.name, .table false false (t.entries.map fun e => (e.1, e.2.item)))

def WellFormed (t : Section) : Prop :=
  (t.entries.map Prod.fst).Nodup

end Section

/-! ## Tables by key -/

namespace Entries

variable {entries : Entries} {key : String} {item : Item}

theorem lookup_eq_none (h : key ∉ entries.map Prod.fst) : entries.lookup key = none := by
  refine List.lookup_eq_none_iff.2 fun e he => bne_iff_ne.2 ?_
  rintro rfl
  exact h (List.mem_map_of_mem he)

theorem lookup_concat (h : key ∉ entries.map Prod.fst) :
    (entries ++ [(key, item)]).lookup key = some item := by
  rw [List.lookup_append, lookup_eq_none h, Option.none_or, List.lookup_cons_self]

theorem replace_concat (h : key ∉ entries.map Prod.fst) (old : Item) :
    replace (entries ++ [(key, old)]) key item = entries ++ [(key, item)] := by
  have hkeep : entries.map (fun e => if e.1 == key then (key, item) else e) = entries := by
    refine (List.map_congr_left fun e he => if_neg ?_).trans (List.map_id _)
    rw [beq_iff_eq]
    rintro rfl
    exact h (List.mem_map_of_mem he)
  unfold replace
  rw [List.map_append, hkeep]
  simp

/-- With distinct keys, what is found is what is there. -/
theorem lookup_eq_some_iff_mem (h : (entries.map Prod.fst).Nodup) :
    entries.lookup key = some item ↔ (key, item) ∈ entries := by
  rw [List.lookup_eq_some_iff]
  constructor
  · rintro ⟨before, after, rfl, -⟩
    exact List.mem_append_right before List.mem_cons_self
  · intro hmem
    obtain ⟨before, after, rfl⟩ := List.append_of_mem hmem
    rw [List.map_append, List.map_cons, List.nodup_middle, List.nodup_cons] at h
    refine ⟨before, after, rfl, fun e he => bne_iff_ne.2 fun hkey => h.1 ?_⟩
    rw [hkey]
    exact List.mem_append_left _ (List.mem_map.2 ⟨e, he, rfl⟩)

end Entries

/-! ## Building up -/

variable {root : Entries} {current : List String} {name : String}

theorem add_header (h : name ∉ root.map Prod.fst) :
    Draft.add { root, current } (Clause.header name).line =
      some { root := root ++ [(name, .table false false [])], current := [name] } := by
  show (Entries.beginTable name root).map _ = _
  unfold Entries.beginTable
  rw [Entries.lookup_eq_none h]
  rfl

theorem add_entry {sub : Entries} {key : String} (hname : name ∉ root.map Prod.fst)
    (hkey : key ∉ sub.map Prod.fst) (v : Scalar) :
    Draft.add { root := root ++ [(name, .table false false sub)], current := [name] }
        (Clause.entry key v).line =
      some { root := root ++ [(name, .table false false (sub ++ [(key, v.item)]))],
             current := [name] } := by
  have hadd : Entries.addDotted v.item key [] sub = some (sub ++ [(key, v.item)]) := by
    unfold Entries.addDotted Entries.add
    rw [Entries.lookup_eq_none hkey]
  show (Entries.inside (root ++ [(name, .table false false sub)]) name
    (Entries.addDotted v.item key [])).map _ = _
  unfold Entries.inside
  rw [Entries.lookup_concat hname]
  show ((Entries.addDotted v.item key [] sub).map _).map _ = _
  rw [hadd, Option.map_some, Entries.replace_concat hname]
  rfl

/-- The entries below a header, with `sub` above them. -/
theorem foldlM_entries (sub : Entries) {entries : List (String × Scalar)}
    (hname : name ∉ root.map Prod.fst)
    (hkeys : (sub.map Prod.fst ++ entries.map Prod.fst).Nodup) :
    (entries.map fun e => (Clause.entry e.1 e.2).line).foldlM Draft.add
        { root := root ++ [(name, .table false false sub)], current := [name] } =
      some { root := root ++
               [(name, .table false false (sub ++ entries.map fun e => (e.1, e.2.item)))],
             current := [name] } := by
  induction entries generalizing sub with
  | nil => simp
  | cons e entries ih =>
    have hkey : e.1 ∉ sub.map Prod.fst := fun hmem =>
      List.disjoint_of_nodup_append hkeys hmem List.mem_cons_self
    have hkeys' : ((sub ++ [(e.1, e.2.item)]).map Prod.fst ++ entries.map Prod.fst).Nodup := by
      simpa using hkeys
    rw [List.map_cons, List.foldlM_cons, add_entry hname hkey]
    show List.foldlM Draft.add _ _ = _
    rw [ih _ hkeys', List.append_assoc]
    rfl

theorem foldlM_section {t : Section} (ht : t.WellFormed) (hname : t.name ∉ root.map Prod.fst) :
    (t.clauses.map Clause.line).foldlM Draft.add { root, current } =
      some { root := root ++ [t.table], current := [t.name] } := by
  have hentries := foldlM_entries [] hname ht
  rw [Section.clauses, List.map_cons, List.map_map, List.foldlM_cons, add_header hname]
  exact hentries

theorem foldlM_sections (root : Entries) (current : List String) {sections : List Section}
    (hsections : ∀ t ∈ sections, t.WellFormed)
    (hnames : (root.map Prod.fst ++ sections.map Section.name).Nodup) :
    ∃ last,
      ((sections.flatMap Section.clauses).map Clause.line).foldlM Draft.add { root, current } =
        some { root := root ++ sections.map Section.table, current := last } := by
  induction sections generalizing root current with
  | nil => exact ⟨current, by simp⟩
  | cons t sections ih =>
    have hname : t.name ∉ root.map Prod.fst := fun hmem =>
      List.disjoint_of_nodup_append hnames hmem List.mem_cons_self
    have hnames' : ((root ++ [t.table]).map Prod.fst ++ sections.map Section.name).Nodup := by
      simpa [Section.table] using hnames
    obtain ⟨last, hlast⟩ := ih (root ++ [t.table]) [t.name]
      (fun u hu => hsections u (List.mem_cons_of_mem t hu)) hnames'
    refine ⟨last, ?_⟩
    rw [List.flatMap_cons, List.map_append, List.foldlM_append,
      foldlM_section (hsections t List.mem_cons_self) hname]
    show List.foldlM Draft.add _ _ = _
    rw [hlast, List.append_assoc]
    rfl

/-! ## Reading -/

/-- A document that consists of sections is read as the tables of the sections. -/
theorem parse?_sections {rows : List Row} (hrows : ∀ r ∈ rows, r.WellFormed)
    {sections : List Section}
    (hclauses : rows.filterMap Row.clause = sections.flatMap Section.clauses)
    (hsections : ∀ t ∈ sections, t.WellFormed) (hnames : (sections.map Section.name).Nodup) :
    parse? (String.ofList (rows.flatMap Row.spell)) = some (sections.map Section.table) := by
  obtain ⟨last, hlast⟩ := foldlM_sections [] [] hsections hnames
  have hlines := lines_rows hrows
  have hmark := head?_rows_ne hrows
  rw [hclauses] at hlines
  unfold parse?
  rw [String.toList_ofList]
  generalize rows.flatMap Row.spell = text at hlines hmark ⊢
  split
  · exact absurd rfl hmark
  · show (lines text).bind _ = _
    rw [hlines]
    show (List.foldlM Draft.add _ _).bind _ = _
    rw [hlast]
    rfl

end Worksheet.Toml
