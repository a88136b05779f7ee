import Worksheet.Proofs.Formula.Evaluation

/-!
The value of a formula depends on the names that it refers to, and on nothing else.

A run over tokens asks for the names of their variables from left to right, repeats included, up to
the one at which it fails, and for all of them if it does not fail (`asked_run`). So an evaluation
asks for names that the formula refers to and no others, and one that yields a value has asked for
each of them (`asked_evaluate`). Where two lookups agree on these names, they give the same outcome.

`restsOn_references` says all this of a formula, and of a text and a set of names that were built
side by side and never compared.
-/

namespace Worksheet

variable {lookup lookup' : Lookup}

/-! ## The names asked for -/

namespace Evaluation

theorem Machine.asked_step {m : Machine} {s : Stacks} (hm : m.state = .ok s) (t : Token) :
    (m.step lookup t).asked = t.name?.toList ++ m.asked := by
  rw [step, hm]
  cases t <;> rfl

/-- A run asks for the names of a first part of the variables, the latest first, and for all of them
if it does not fail. -/
theorem Machine.asked_run (lookup : Lookup) (m : Machine) (ts : List Token) :
    ∃ names, names <+: ts.filterMap Token.name? ∧
      (m.run lookup ts).asked = names.reverse ++ m.asked ∧
      ∀ s, (m.run lookup ts).state = .ok s → names = ts.filterMap Token.name? := by
  induction ts generalizing m with
  | nil => exact ⟨[], List.nil_prefix, rfl, fun _ _ => rfl⟩
  | cons t ts ih =>
    cases hm : m.state with
    | error e =>
      -- a machine that has failed asks for no more
      rw [run_of_failed hm, hm]
      exact ⟨[], List.nil_prefix, rfl, fun s hs => by cases hs⟩
    | ok s =>
      obtain ⟨names, hprefix, hasked, hall⟩ := ih (m.step lookup t)
      rw [asked_step hm] at hasked
      cases hname : t.name? with
      | none =>
        rw [hname] at hasked
        rw [List.filterMap_cons_none hname]
        exact ⟨names, hprefix, hasked, hall⟩
      | some name =>
        rw [hname] at hasked
        rw [List.filterMap_cons_some hname]
        refine ⟨name :: names, (List.prefix_cons_inj name).2 hprefix, ?_, fun u hu => ?_⟩
        · rw [List.reverse_cons, List.append_assoc]
          exact hasked
        · rw [hall u hu]

end Evaluation

namespace Formula

/-- The names asked for are variables of the text, in order, and all of them if there is a value. -/
theorem asked_evaluate (lookup : Lookup) (f : Formula) :
    (f.evaluate lookup).asked <+: f.tokens.filterMap Token.name? ∧
      ∀ k, (f.evaluate lookup).result = .ok k →
        (f.evaluate lookup).asked = f.tokens.filterMap Token.name? := by
  obtain ⟨names, hprefix, hasked, hall⟩ :=
    Evaluation.Machine.asked_run lookup .start f.tokens
  have hnames : (f.evaluate lookup).asked = names := by
    rw [evaluate_eq_ofTokens, Evaluation.ofTokens_of_check f.wellFormed, Evaluation.Machine.finish,
      hasked]
    simp [Evaluation.Machine.start]
  refine ⟨hnames ▸ hprefix, fun k hk => ?_⟩
  rw [evaluate_eq_ofTokens, Evaluation.ofTokens_of_check f.wellFormed] at hk
  obtain ⟨s, hs, -⟩ := Expression.exists_of_bind hk
  rw [hnames, hall s hs]

theorem mem_references_iff_mem_filterMap {f : Formula} {name : String} :
    name ∈ f.references ↔ name ∈ f.tokens.filterMap Token.name? := by
  rw [references, Std.ExtTreeSet.mem_ofList, List.contains_iff_mem]

/-! ## What the value rests on -/

/-- The outcome is a matter of the values of the names: it is the same for two lookups that agree
on them, none but them are asked for, and each of them is where there is a value. -/
structure RestsOn (names : Std.ExtTreeSet String) (evaluation : Lookup → Evaluation) : Prop where
  congr : ∀ lookup lookup', (∀ name ∈ names, lookup name = lookup' name) →
    evaluation lookup = evaluation lookup'
  mem_of_asked : ∀ lookup, ∀ name ∈ (evaluation lookup).asked, name ∈ names
  asked_of_mem : ∀ lookup k, (evaluation lookup).result = .ok k →
    ∀ name ∈ names, name ∈ (evaluation lookup).asked

theorem restsOn_of_formula (f : Formula) :
    RestsOn f.references fun lookup => f.evaluate lookup where
  congr _ _ h := f.evaluate_congr h
  mem_of_asked lookup name hname :=
    mem_references_iff_mem_filterMap.2 ((asked_evaluate lookup f).1.subset hname)
  asked_of_mem lookup k hk name hname := by
    rw [(asked_evaluate lookup f).2 k hk]
    exact mem_references_iff_mem_filterMap.1 hname

/-- The outcome of a formula, and of the text that is kept apart from its references, rests on these
references. -/
theorem restsOn_references :
    (∀ f : Formula, RestsOn f.references fun lookup => f.evaluate lookup) ∧
    ∀ (o : Origin) (p : Parts), o.parts = .ok p →
      RestsOn p.references fun lookup => Evaluation.ofText lookup p.text := by
  refine ⟨restsOn_of_formula, fun o p h => ?_⟩
  obtain ⟨f, -, rfl⟩ := exists_formula_of_parts h
  exact restsOn_of_formula f

/-- Both spellings of the name are asked for in the lower case, and a value that is given to another
spelling is of no account. -/
theorem restsOn_references_lowered :
    ∃ p, lowered.parts = .ok p ∧ p.text = "(ab1+7)*ab1" ∧
      (∀ name, name ∈ p.references ↔ name = "ab1") ∧
      Evaluation.ofText (only "ab1") p.text =
        { result := .ok 30, asked := ["ab1", "ab1"] } ∧
      Evaluation.ofText (fun _ => .ok 3) p.text =
        { result := .ok 30, asked := ["ab1", "ab1"] } := by
  obtain ⟨p, hp, htext⟩ : ∃ p, lowered.parts = .ok p ∧ p.text = "(ab1+7)*ab1" :=
    ⟨_, rfl, by decide +kernel⟩
  obtain ⟨hcongr, hmem, hall⟩ := restsOn_references.2 lowered p hp
  have hvalue : Evaluation.ofText (fun _ => .ok 3) p.text =
      { result := .ok 30, asked := ["ab1", "ab1"] } := by
    rw [htext]
    rfl
  have hasked : (Evaluation.ofText (fun _ => .ok 3) p.text).asked = ["ab1", "ab1"] := by
    rw [hvalue]
  have hresult : (Evaluation.ofText (fun _ => .ok 3) p.text).result = .ok 30 := by
    rw [hvalue]
  have hrefs : ∀ name, name ∈ p.references ↔ name = "ab1" := by
    intro name
    constructor
    · intro hname
      simpa [hasked] using hall _ 30 hresult name hname
    · rintro rfl
      exact hmem _ _ (hasked ▸ List.mem_cons_self)
  refine ⟨p, hp, htext, hrefs, ?_, hvalue⟩
  rw [← hvalue]
  refine hcongr _ _ fun name hname => ?_
  rw [(hrefs name).1 hname]
  rfl

end Formula

end Worksheet
