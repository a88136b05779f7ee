import Mathlib
import Worksheet.Proofs.Document.Reentry

/-!
A document comes back from the inputs of its cells, in whatever order they are entered.

`enterInputs?` enters the inputs of the named cells one after the other. Each one is accepted: the
references of a part of the contents are among those of all of them, and so close no loop
(`Sheet.setAt_isOk_of_refersTo`). After each one, the cells that have been entered have the contents
that they have in the first document, and all others are empty (`Restored`, `restored_enter`). In
the end the contents are the same, and with them all that the documents show (`agree_rebuilt_run`).
-/

namespace Worksheet

open Relation

/-- A content is accepted if with it the sheet refers to nothing but what another sheet refers to. -/
theorem Sheet.setAt_isOk_of_refersTo {s t : Sheet} (hs : s.Consistent) (ht : t.Consistent)
    (listing : Listing) {cell : String} {c : Content}
    (hrefers : ∀ a b, (if b = cell then a ∈ c.references else s.RefersTo a b) → t.RefersTo a b) :
    ∃ order, (s.setAt listing cell c).2 = .ok order := by
  obtain ⟨E, hE, _⟩ := hs.represents
  have hedge : ∀ a b, (s.graph.replaceDependees cell c.references).Edge a b → t.graph.Edge a b := by
    intro a b hab
    rw [Graph.edge_replaceDependees hE, edge_iff_refersTo hs] at hab
    exact (edge_iff_refersTo ht).2 (hrefers a b hab)
  have hacyclic : (s.graph.replaceDependees cell c.references).Acyclic := fun a haa =>
    ht.acyclic a (TransGen.mono hedge a a haa)
  obtain ⟨order, hrun⟩ := (Graph.recalculation_isOk_iff listing _ cell).2 fun a _ => hacyclic a
  exact ⟨order, by rw [answer_setAt, hrun]; rfl⟩

namespace Document

variable {d built : Document} {name : String}

/-- `built` with the inputs of the named cells of `d` entered one after the other, if every one is
accepted. -/
def enterInputs? (d : Document) (listing : String → Listing) :
    List String → Document → Option Document
  | [], built => some built
  | name :: names, built =>
    match d.cellInput name with
    | .error _ => none
    | .ok input =>
      match built.enter (listing name) name input with
      | (next, .ok _) => d.enterInputs? listing names next
      | (_, .error _) => none

/-! ## One input after the other -/

/-- The cells that have been entered have their contents from `d`, and all others are empty. -/
structure Restored (d : Document) (entered : List String) (built : Document) : Prop where
  current : built.Current
  settings_eq : built.settings = d.settings
  casing_eq : built.sheet.casing = d.sheet.casing
  contentAt_eq : ∀ a,
    built.sheet.contentAt a = if a ∈ entered then d.sheet.contentAt a else .empty

theorem restored_empty {settings : Settings} (hsettings : d.settings = settings)
    (hcasing : d.sheet.casing = settings.casing) : d.Restored [] (empty settings) where
  current := current_of_empty settings.casing false settings
  settings_eq := hsettings.symm
  casing_eq := hcasing.symm
  contentAt_eq a := by
    rw [if_neg List.not_mem_nil, Sheet.contentAt_eq]
    simp [empty, Sheet.empty]

/-- A part of the contents refers to nothing but what all of them refer to. -/
theorem Restored.refersTo {entered : List String} (h : d.Restored entered built) {a b : String}
    (hab : built.sheet.RefersTo a b) : d.sheet.RefersTo a b := by
  rw [Sheet.RefersTo, h.contentAt_eq] at hab
  split at hab
  · exact hab
  · simp [Content.empty, Content.references] at hab

/-- The input of a cell of `d` is entered into `built` as the content that the cell has in `d`. -/
theorem Restored.enter_eq (hd : d.Current) {entered : List String} (h : d.Restored entered built)
    (listing : Listing) (hname : Name.Canonical d.sheet.casing name)
    (hnumber : ∀ x, d.content name = .ok (.number x) → x.isNaN = false) :
    ∃ input, d.cellInput name = .ok input ∧
      built.enter listing name input = built.set listing name (d.sheet.contentAt name) := by
  have hkept : d.sheet.casing.apply name = name := hname.2
  have hparse : built.parseInput (Input.ofContent (d.sheet.contentAt name)) =
      .ok (d.sheet.contentAt name) := by
    refine parseInput_ofContent built (h.casing_eq ▸ Sheet.recase_contentAt hd.consistent name)
      fun x hx => hnumber x ?_
    rw [content_of_isValid d hname.1, hkept, hx]
  refine ⟨_, by rw [cellInput_of_isValid d hname.1, hkept], ?_⟩
  rw [enter, hparse]

/-- One more of the contents of `d` closes no loop. -/
theorem Restored.set_isOk (hd : d.Current) {entered : List String} (h : d.Restored entered built)
    (listing : Listing) (hname : Name.Canonical d.sheet.casing name) :
    ∃ order, (built.sheet.set listing name (d.sheet.contentAt name)).2 = .ok order := by
  have hkept : d.sheet.casing.apply name = name := hname.2
  rw [Sheet.set_of_isValid listing _ _ hname.1, h.casing_eq, hkept,
    Sheet.recase_contentAt hd.consistent]
  refine Sheet.setAt_isOk_of_refersTo h.current.consistent hd.consistent listing fun a b hab => ?_
  split at hab
  · next hb =>
    rw [hb]
    exact hab
  · exact h.refersTo hab

/-- The next input is accepted, and one more cell has its content. -/
theorem restored_enter (hd : d.Current) {entered : List String} (h : d.Restored entered built)
    (listing : Listing) (hname : Name.Canonical d.sheet.casing name)
    (hnumber : ∀ x, d.content name = .ok (.number x) → x.isNaN = false) :
    ∃ input order, d.cellInput name = .ok input ∧
      (built.enter listing name input).2 = .ok order ∧
      d.Restored (name :: entered) (built.enter listing name input).1 := by
  obtain ⟨input, hinput, henter⟩ := h.enter_eq hd listing hname hnumber
  obtain ⟨order, horder⟩ := h.set_isOk hd listing hname
  refine ⟨input, order, hinput, ?_, ?_⟩
  · rw [henter, set_of_ok horder]
  rw [henter]
  refine ⟨current_set h.current listing name _, ?_, ?_, fun a => ?_⟩
  · rw [settings_set, h.settings_eq]
  · rw [sheet_set, Sheet.casing_set, h.casing_eq]
  · have hkept : d.sheet.casing.apply name = name := hname.2
    rw [sheet_set, (Sheet.set_ok horder).2.1, h.casing_eq, hkept,
      Sheet.recase_contentAt hd.consistent, h.contentAt_eq]
    by_cases ha : name = a
    · rw [if_pos ha, if_pos (ha ▸ List.mem_cons_self), ha]
    · have hmem : a ∈ name :: entered ↔ a ∈ entered := by
        rw [List.mem_cons]
        exact or_iff_right (Ne.symm ha)
      rw [if_neg ha, if_congr hmem rfl rfl]

/-- All inputs are accepted, and all the cells have their contents. -/
theorem restored_enterInputs? (hd : d.Current) (listing : String → Listing) {names : List String}
    (hnames : ∀ name ∈ names, Name.Canonical d.sheet.casing name)
    (hnumber : ∀ name ∈ names, ∀ x, d.content name = .ok (.number x) → x.isNaN = false)
    {entered : List String} (h : d.Restored entered built) :
    ∃ last, d.enterInputs? listing names built = some last ∧
      d.Restored (names.reverse ++ entered) last := by
  induction names generalizing built entered with
  | nil => exact ⟨built, rfl, h⟩
  | cons name names ih =>
    obtain ⟨input, order, hinput, horder, hnext⟩ :=
      restored_enter hd h (listing name) (hnames name List.mem_cons_self)
        (hnumber name List.mem_cons_self)
    obtain ⟨last, hlast, hrestored⟩ := ih (fun a ha => hnames a (List.mem_cons_of_mem name ha))
      (fun a ha => hnumber a (List.mem_cons_of_mem name ha)) hnext
    refine ⟨last, ?_, by simpa using hrestored⟩
    have hstep : built.enter (listing name) name input =
        ((built.enter (listing name) name input).1, .ok order) := Prod.ext rfl horder
    rw [enterInputs?, hinput]
    dsimp only
    rw [hstep]
    exact hlast

/-! ## All inputs -/

theorem mem_names_iff (d : Document) (a : String) : a ∈ d.names ↔ a ∈ d.sheet.cells :=
  Std.ExtTreeMap.mem_keys

/-- With all cells entered, in any order, the documents show the same. -/
theorem agree_of_restored (hd : d.Current) {entered : List String}
    (hentered : ∀ a, a ∈ entered ↔ a ∈ d.names) (h : d.Restored entered built) :
    built.Agree d := by
  have hcontents : ∀ a, built.sheet.contentAt a = d.sheet.contentAt a := by
    intro a
    rw [h.contentAt_eq]
    split
    · rfl
    · next ha =>
      rw [hentered, mem_names_iff] at ha
      rw [Sheet.contentAt_eq, Std.ExtTreeMap.getElem?_eq_none ha]
      rfl
  have halike : built.Alike d :=
    ⟨h.current, hd, h.settings_eq,
      Sheet.eq_of_contentAt h.current.consistent hd.consistent h.casing_eq hcontents⟩
  exact halike.agree

/-- However a document without NaN has come to be: the inputs of its cells, entered into a new
document in any order, are all accepted, and in the end both documents show the same. -/
theorem agree_rebuilt_run (settings : Settings) (actions : List Action)
    (listing : String → Listing) {order : List String}
    (horder : order.Perm (run settings actions).names)
    (hnumber : ∀ name ∈ order, ∀ x,
      (run settings actions).content name = .ok (.number x) → x.isNaN = false) :
    ∃ built, (run settings actions).enterInputs? listing order (empty settings) = some built ∧
      built.Agree (run settings actions) := by
  have hd : (run settings actions).Current := current_run settings actions
  have hnames : ∀ name ∈ order, Name.Canonical (run settings actions).sheet.casing name := by
    intro name hname
    have hkept := (mem_names_iff _ name).1 (horder.mem_iff.1 hname)
    exact (Sheet.faithful_of_consistent hd.consistent).canonical_of_mem name hkept
  have hempty : (run settings actions).Restored [] (empty settings) :=
    restored_empty (settings_run settings actions) (casing_run settings actions)
  obtain ⟨built, hbuilt, hrestored⟩ := restored_enterInputs? hd listing hnames hnumber hempty
  refine ⟨built, hbuilt, agree_of_restored hd (fun a => ?_) hrestored⟩
  rw [List.append_nil, List.mem_reverse, horder.mem_iff]

/-- A number, a text that is in quotes itself, and formulas that refer to it. -/
def mixed : List Action :=
  [.content .sorted "T1" (.text "\"12\""), .content .sorted "A1" (.number ⟨0x4004000000000000⟩),
    .content .sorted "B1" (.formula (.ofVariable "C1" (Eq.refl true))),
    .content .sorted "C1" (.formula (.ofVariable "T1" (Eq.refl true)))]

theorem agree_rebuilt_run_mixed :
    ["B1", "T1", "C1", "A1"].Perm (run {} mixed).names ∧
      (run {} mixed).content "A1" = .ok (.number ⟨0x4004000000000000⟩) ∧
      ∃ built, (run {} mixed).enterInputs? (fun _ => .reversed) ["B1", "T1", "C1", "A1"] (empty {}) =
          some built ∧
        built.Agree (run {} mixed) := by
  have hnames : (run {} mixed).names = ["A1", "B1", "C1", "T1"] := by cbv
  have hperm : ["B1", "T1", "C1", "A1"].Perm (run {} mixed).names := by
    rw [hnames]
    decide
  have hA : (run {} mixed).content "A1" = .ok (.number ⟨0x4004000000000000⟩) := by cbv
  have hB : (run {} mixed).content "B1" = .ok (.formula (.ofVariable "C1" (by decide))) := by cbv
  have hC : (run {} mixed).content "C1" = .ok (.formula (.ofVariable "T1" (by decide))) := by cbv
  have hT : (run {} mixed).content "T1" = .ok (.text "\"12\"") := by cbv
  have hnumber : ∀ name ∈ ["B1", "T1", "C1", "A1"], ∀ x,
      (run {} mixed).content name = .ok (.number x) → x.isNaN = false := by
    intro name hname x hx
    simp only [List.mem_cons, List.not_mem_nil, or_false] at hname
    rcases hname with rfl | rfl | rfl | rfl
    · rw [hB] at hx
      cases hx
    · rw [hT] at hx
      cases hx
    · rw [hC] at hx
      cases hx
    · rw [hA] at hx
      cases hx
      decide
  exact ⟨hperm, hA, agree_rebuilt_run {} mixed (fun _ => .reversed) hperm hnumber⟩

end Document

end Worksheet
