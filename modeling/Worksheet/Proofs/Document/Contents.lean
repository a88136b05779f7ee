import Mathlib
import Worksheet.Proofs.Document.Run
import Worksheet.Proofs.Sheet.Circular
import Worksheet.Proofs.Sheet.Contents

/-!
A document is known, but for the mark of changes, when its contents and its settings are.

Two current documents with the same contents have the same sheet, and then the same values, as these
are what recursion along the references gives (`Alike.values_eq`). The same call leads from two such
documents to two such documents (`alike_perform`), with the same answer but for the path of a loop
(`sameAnswer_set`, `sameAnswer_enter`), in whatever orders the two list sets of names. So what has
been done to a document before cannot be seen in what it does afterwards (`agree_run`).
-/

namespace Worksheet

/-- The reasons are the same, except for the path of a loop. -/
inductive EditError.SameKind : EditError → EditError → Prop
  | formula (cause : SyntaxError) : SameKind (.formula cause) (.formula cause)
  | cell {cause cause' : CellError} (h : cause.SameKind cause') :
      SameKind (.cell cause) (.cell cause')

theorem SameAnswer.mapError {ε ε' : Type} {same : ε → ε → Prop} {same' : ε' → ε' → Prop}
    {f : ε → ε'} (hf : ∀ e e', same e e' → same' (f e) (f e'))
    {answer answer' : Except ε (List String)} (h : SameAnswer same answer answer') :
    SameAnswer same' (answer.mapError f) (answer'.mapError f) := by
  cases h with
  | accepted hperm => exact .accepted hperm
  | rejected he => exact .rejected (hf _ _ he)

namespace Document

variable {d d' : Document}

/-! ## What recomputing leaves alone -/

theorem foldl_recompute_eq (d : Document) (order : List String) :
    order.foldl recompute d = { d with values := (order.foldl recompute d).values } := by
  induction order generalizing d with
  | nil => rfl
  | cons cell order ih =>
    rw [List.foldl_cons, ih]
    rfl

theorem settings_set (listing : Listing) (d : Document) (name : String) (c : Content) :
    (d.set listing name c).1.settings = d.settings := by
  cases hanswer : (d.sheet.set listing name c).2 with
  | error e => simp only [set, hanswer]
  | ok order => rw [set_of_ok hanswer, foldl_recompute_eq]

theorem settings_perform (d : Document) (a : Action) : (d.perform a).settings = d.settings := by
  cases a with
  | enter listing name input =>
    rw [perform, enter]
    split
    · next c _ => exact settings_set listing d name c
    · rfl
  | content listing name c => exact settings_set listing d name c
  | clearCell listing name => exact settings_set listing d name .empty
  | clear => rfl
  | markSaved => rfl

theorem settings_foldl (d : Document) (actions : List Action) :
    (actions.foldl perform d).settings = d.settings := by
  induction actions generalizing d with
  | nil => rfl
  | cons a actions ih => rw [List.foldl_cons, ih, settings_perform]

theorem settings_run (settings : Settings) (actions : List Action) :
    (run settings actions).settings = settings :=
  settings_foldl (empty settings) actions

/-! ## Documents with the same contents -/

/-- Nothing is kept for an empty value, and every other value is kept. -/
theorem Current.getElem?_values (hd : d.Current) (a : String) :
    d.values[a]? = if (d.valueAt a).isEmpty then none else some (d.valueAt a) := by
  rw [Document.valueAt_eq]
  cases hv : d.values[a]? with
  | none => rfl
  | some v =>
    have hnonempty := hd.nonempty a v hv
    simp [hnonempty]

/-- All that the two documents show is the same. -/
structure Agree (d d' : Document) : Prop where
  content : ∀ name, d.content name = d'.content name
  graph : d.sheet.graph = d'.sheet.graph
  values : d.values = d'.values
  value : ∀ name, d.value name = d'.value name
  display : ∀ name, d.display name = d'.display name

/-- Current documents with the same settings and the same sheet. -/
structure Alike (d d' : Document) : Prop where
  current : d.Current
  current' : d'.Current
  settings_eq : d.settings = d'.settings
  sheet_eq : d.sheet = d'.sheet

/-- The values are those that recursion along the references gives. -/
theorem Alike.values_eq (h : d.Alike d') : d.values = d'.values := by
  have hwf : WellFounded d.sheet.RefersTo := Sheet.wellFounded_refersTo h.current.consistent
  have hup : ∀ cell, d'.valueAt cell = Value.ofContent d'.valueAt (d.sheet.contentAt cell) := by
    intro cell
    rw [h.sheet_eq]
    exact h.current'.upToDate cell
  refine Std.ExtTreeMap.ext_getElem? fun a => ?_
  have hvalue : d.valueAt a = d'.valueAt a := by
    rw [h.current.valueAt_eq hwf, Sheet.eq_valueOf hwf hup]
  rw [h.current.getElem?_values, h.current'.getElem?_values, hvalue]

theorem Alike.agree (h : d.Alike d') : d.Agree d' := by
  have hvalueAt : d.valueAt = d'.valueAt := by
    funext a
    rw [valueAt, valueAt, h.values_eq]
  have hvalue : ∀ name, d.value name = d'.value name := fun name => by
    rw [value, value, h.sheet_eq, hvalueAt]
  refine ⟨fun name => ?_, ?_, h.values_eq, hvalue, fun name => ?_⟩
  · rw [content, content, h.sheet_eq]
  · rw [h.sheet_eq]
  · rw [display, display, hvalue, h.settings_eq]

/-- Contents that cannot be told apart by asking make current documents alike. -/
theorem alike_of_content (hd : d.Current) (hd' : d'.Current) (hsettings : d.settings = d'.settings)
    (hcasing : d.sheet.casing = d'.sheet.casing)
    (h : ∀ name, d.content name = d'.content name) : d.Alike d' where
  current := hd
  current' := hd'
  settings_eq := hsettings
  sheet_eq := Sheet.eq_of_contentAt hd.consistent hd'.consistent hcasing
    (Sheet.contentAt_eq_of_content hd.consistent hd'.consistent hcasing h)

/-! ## The same call on both -/

/-- The answers are the same but for the path of a loop, and so is all that is shown afterwards. -/
structure SameStep (outcome outcome' : Document × Except EditError (List String)) : Prop where
  answer : SameAnswer EditError.SameKind outcome.2 outcome'.2
  agree : outcome.1.Agree outcome'.1

theorem answer_set (listing : Listing) (d : Document) (name : String) (c : Content) :
    (d.set listing name c).2 = (d.sheet.set listing name c).2.mapError .cell := by
  cases hanswer : (d.sheet.set listing name c).2 with
  | error e => simp only [set, hanswer, Except.mapError]
  | ok order =>
    rw [set_of_ok hanswer]
    rfl

theorem sameAnswer_set (h : d.Alike d') (listing listing' : Listing) (name : String) (c : Content) :
    SameAnswer EditError.SameKind (d.set listing name c).2 (d'.set listing' name c).2 := by
  rw [answer_set, answer_set, ← h.sheet_eq]
  exact (Sheet.sameAnswer_set d.sheet listing listing' name c).mapError fun _ _ he => .cell he

theorem alike_set (h : d.Alike d') (listing listing' : Listing) (name : String) (c : Content) :
    (d.set listing name c).1.Alike (d'.set listing' name c).1 where
  current := current_set h.current listing name c
  current' := current_set h.current' listing' name c
  settings_eq := by rw [settings_set, settings_set, h.settings_eq]
  sheet_eq := by
    rw [sheet_set, sheet_set, ← h.sheet_eq]
    exact Sheet.set_eq_set h.current.consistent listing listing' name c

theorem parseInput_eq (h : d.Alike d') (input : String) :
    d.parseInput input = d'.parseInput input := by
  rw [parseInput, parseInput, h.sheet_eq]

theorem sameAnswer_enter (h : d.Alike d') (listing listing' : Listing) (name input : String) :
    SameAnswer EditError.SameKind (d.enter listing name input).2
      (d'.enter listing' name input).2 := by
  rw [enter, enter, ← parseInput_eq h]
  cases d.parseInput input with
  | ok c => exact sameAnswer_set h listing listing' name c
  | error e => exact .rejected (.formula e)

theorem alike_enter (h : d.Alike d') (listing listing' : Listing) (name input : String) :
    (d.enter listing name input).1.Alike (d'.enter listing' name input).1 := by
  rw [enter, enter, ← parseInput_eq h]
  cases d.parseInput input with
  | ok c => exact alike_set h listing listing' name c
  | error e => exact h

/-- The same call, with sets of names listed in any two orders. -/
inductive Action.SameCall : Action → Action → Prop
  | enter (listing listing' : Listing) (name input : String) :
      SameCall (.enter listing name input) (.enter listing' name input)
  | content (listing listing' : Listing) (name : String) (c : Content) :
      SameCall (.content listing name c) (.content listing' name c)
  | clearCell (listing listing' : Listing) (name : String) :
      SameCall (.clearCell listing name) (.clearCell listing' name)
  | clear : SameCall .clear .clear
  | markSaved : SameCall .markSaved .markSaved

theorem alike_perform (h : d.Alike d') {a a' : Action} (ha : a.SameCall a') :
    (d.perform a).Alike (d'.perform a') := by
  cases ha with
  | enter listing listing' name input => exact alike_enter h listing listing' name input
  | content listing listing' name c => exact alike_set h listing listing' name c
  | clearCell listing listing' name => exact alike_set h listing listing' name .empty
  | clear =>
    refine ⟨current_perform h.current .clear, current_perform h.current' .clear, h.settings_eq, ?_⟩
    rw [perform, perform, clear, clear, h.sheet_eq]
  | markSaved =>
    exact ⟨current_perform h.current .markSaved, current_perform h.current' .markSaved,
      h.settings_eq, h.sheet_eq⟩

theorem alike_foldl (h : d.Alike d') {actions actions' : List Action}
    (hactions : List.Forall₂ Action.SameCall actions actions') :
    (actions.foldl perform d).Alike (actions'.foldl perform d') := by
  induction hactions generalizing d d' with
  | nil => exact h
  | cons ha _ ih => exact ih (alike_perform h ha)

/-- Two documents with the same settings, however they have come to be, show the same if their
contents are the same. Then every further edit is accepted by both, with the same cells to
recompute, or rejected by both for the same reason, and they show the same again; and so it is after
any further calls. -/
theorem agree_run (settings : Settings) (actions actions' : List Action)
    (h : ∀ name, (run settings actions).content name = (run settings actions').content name) :
    (run settings actions).Agree (run settings actions') ∧
    (∀ listing listing' name,
      (∀ input, SameStep ((run settings actions).enter listing name input)
        ((run settings actions').enter listing' name input)) ∧
      (∀ c, SameStep ((run settings actions).set listing name c)
        ((run settings actions').set listing' name c)) ∧
      SameStep ((run settings actions).clearCell listing name)
        ((run settings actions').clearCell listing' name)) ∧
    ∀ more more', List.Forall₂ Action.SameCall more more' →
      (more.foldl perform (run settings actions)).Agree
        (more'.foldl perform (run settings actions')) := by
  have halike : (run settings actions).Alike (run settings actions') := by
    refine alike_of_content (current_run settings actions) (current_run settings actions') ?_ ?_ h
    · rw [settings_run, settings_run]
    · rw [casing_run, casing_run]
  refine ⟨halike.agree, fun listing listing' name => ?_, fun more more' hmore => ?_⟩
  · have hset : ∀ c, SameStep ((run settings actions).set listing name c)
        ((run settings actions').set listing' name c) := fun c =>
      ⟨sameAnswer_set halike listing listing' name c, (alike_set halike listing listing' name c).agree⟩
    exact ⟨fun input => ⟨sameAnswer_enter halike listing listing' name input,
      (alike_enter halike listing listing' name input).agree⟩, hset, hset .empty⟩
  · exact (alike_foldl halike hmore).agree

/-- `B1` and `C1` refer to `A1`, which is set last. -/
def straight : List Action :=
  [.content .sorted "B1" (.formula (.ofVariable "A1" (Eq.refl true))),
    .content .sorted "C1" (.formula (.ofVariable "A1" (Eq.refl true))),
    .content .sorted "A1" (.text "ten")]

/-- The same contents after other ones, after a loop that is rejected, and with a cell cleared. -/
def roundabout : List Action :=
  [.content .sorted "D1" (.text "gone"),
    .content .reversed "A1" (.formula (.ofVariable "D1" (Eq.refl true))),
    .content .reversed "c1" (.formula (.ofVariable "a1" (Eq.refl true))),
    .content .reversed "A1" (.formula (.ofVariable "C1" (Eq.refl true))),
    .content .reversed "B1" (.formula (.ofVariable "a1" (Eq.refl true))),
    .content .reversed "A1" (.text "ten"), .clearCell .reversed "D1", .markSaved]

theorem agree_run_roundabout :
    (∀ name, (run {} straight).content name = (run {} roundabout).content name) ∧
      (run {} straight).Agree (run {} roundabout) ∧
      ((run {} straight).set .sorted "A1" (.text "nine")).2 = .ok ["A1", "C1", "B1"] ∧
      ((run {} roundabout).set .reversed "A1" (.text "nine")).2 = .ok ["A1", "B1", "C1"] ∧
      SameStep ((run {} straight).set .sorted "A1" (.text "nine"))
        ((run {} roundabout).set .reversed "A1" (.text "nine")) := by
  have hlist : (run {} straight).sheet.cells.toList = (run {} roundabout).sheet.cells.toList := by
    cbv
  have hcells : (run {} straight).sheet.cells = (run {} roundabout).sheet.cells :=
    Std.ExtTreeMap.toList_inj.1 hlist
  have hcontents : ∀ name, (run {} straight).content name = (run {} roundabout).content name := by
    intro name
    have hat : (run {} straight).sheet.contentAt = (run {} roundabout).sheet.contentAt := by
      funext a
      rw [Sheet.contentAt, Sheet.contentAt, hcells]
    rw [content, content, Sheet.content, Sheet.content, Sheet.cellName, Sheet.cellName, casing_run,
      casing_run, hat]
  have hstraight : ((run {} straight).set .sorted "A1" (.text "nine")).2 =
      .ok ["A1", "C1", "B1"] := by cbv
  have hroundabout : ((run {} roundabout).set .reversed "A1" (.text "nine")).2 =
      .ok ["A1", "B1", "C1"] := by cbv
  obtain ⟨hagree, hedit, _⟩ := agree_run {} straight roundabout hcontents
  exact ⟨hcontents, hagree, hstraight, hroundabout, (hedit .sorted .reversed "A1").2.1 _⟩

end Document

end Worksheet
