import Worksheet.Proofs.Expression.Machine
import Worksheet.Proofs.Formula.Letters
import Worksheet.Proofs.Formula.Text

/-!
What can come of the evaluation of a formula, and what a change of case does to it.

A formula has a parse tree, so that its evaluation never finds it malformed
(`evaluate_ne_malformed`). It yields a value only if each variable has one (`resolved_of_evaluate`).

A change of case renames the variables and nothing else. The stacks know no names
(`unnamed_reduce`), so a step of the machine on a renamed token is the step on the token itself,
with the name renamed on its way to the lookup (`step_recase`). So it is with a whole run
(`run_recase`), with the tokens of a formula (`ofTokens_recase`), and with the texts that stand for
them (`evaluate_recase`).
-/

namespace Worksheet

variable {lookup : Lookup} {casing : Casing}

/-! ## Failures -/

namespace Evaluation

theorem precheck_of_check {ts : List Token} (h : Formula.check ts = .ok ()) :
    precheck ts = .ok () := by
  obtain ⟨t, rfl⟩ := Expression.check_eq_ok_iff_tree.1 h
  exact Expression.precheck_tokens t

theorem ofTokens_of_check {ts : List Token} (h : Formula.check ts = .ok ()) :
    ofTokens lookup ts = (Machine.start.run lookup ts).finish := by
  rw [ofTokens, precheck_of_check h]

namespace Machine

variable {m : Machine} {ts : List Token} {name : String}

/-- Where a variable has no value, the machine has failed before or fails now. -/
theorem failed_of_step_var {reason : String} (h : lookup name = .error reason) (m : Machine) :
    ∃ e, (m.step lookup (.var name)).state = .error e := by
  rw [step]
  split
  · next e he => exact ⟨e, he⟩
  · refine ⟨.unresolved name reason, ?_⟩
    simp only [ask, h]

/-- A run that does not fail has found a value for every variable that it has read. -/
theorem resolved_of_run {s : Stacks} (h : (m.run lookup ts).state = .ok s)
    (hname : Token.var name ∈ ts) : ∃ v, lookup name = .ok v := by
  induction ts generalizing m with
  | nil => cases hname
  | cons t ts ih =>
    have h : ((m.step lookup t).run lookup ts).state = .ok s := h
    rcases List.mem_cons.1 hname with rfl | hname
    · cases hlookup : lookup name with
      | ok v => exact ⟨v, rfl⟩
      | error reason =>
        obtain ⟨e, he⟩ := failed_of_step_var hlookup m
        rw [run_of_failed he, he] at h
        cases h
    · exact ih h hname

end Machine

end Evaluation

namespace Formula

/-- The evaluation of a formula yields a value, or arithmetic fails, or a variable has no value. -/
theorem evaluate_ne_malformed (lookup : Lookup) (f : Formula) (cause : SyntaxError) :
    (f.evaluate lookup).result ≠ .error (.malformed cause) := by
  obtain ⟨t, ht⟩ := Expression.check_eq_ok_iff_tree.1 f.wellFormed
  rw [evaluate_eq_ofTokens, ← ht]
  exact Expression.ofTokens_ne_malformed lookup t cause

/-- Whatever the origin of a formula, the evaluation of the text that is kept apart from its
references never finds it malformed. -/
theorem ofText_ne_malformed_of_origin (lookup : Lookup) {o : Origin} {p : Parts}
    (h : o.parts = .ok p) (cause : SyntaxError) :
    (Evaluation.ofText lookup p.text).result ≠ .error (.malformed cause) := by
  obtain ⟨f, -, rfl⟩ := exists_formula_of_parts h
  exact f.evaluate_ne_malformed lookup cause

/-- A formula has a value only if each of its variables has one. -/
theorem resolved_of_evaluate {f : Formula} {k : Int64} (h : (f.evaluate lookup).result = .ok k)
    {name : String} (hname : name ∈ f.references) : ∃ v, lookup name = .ok v := by
  rw [evaluate_eq_ofTokens, Evaluation.ofTokens_of_check f.wellFormed] at h
  obtain ⟨s, hrun, -⟩ := Expression.exists_of_bind h
  exact Evaluation.Machine.resolved_of_run hrun (mem_references.1 hname)

end Formula

/-! ## Renamed variables -/

/-- The failure with the name of a variable in the given case. -/
def EvalError.recase (casing : Casing) : EvalError → EvalError
  | .unresolved name reason => .unresolved (casing.apply name) reason
  | e => e

namespace Evaluation

/-- The outcome with all names in the given case. -/
def recase (casing : Casing) (e : Evaluation) : Evaluation where
  result := e.result.mapError (EvalError.recase casing)
  asked := e.asked.map casing.apply

/-- The machine with all names in the given case. -/
def Machine.recase (casing : Casing) (m : Machine) : Machine where
  state := m.state.mapError (EvalError.recase casing)
  asked := m.asked.map casing.apply

/-- The outcome is no failure for want of the value of a variable. -/
def Unnamed {α : Type} (r : Except EvalError α) : Prop :=
  ∀ name reason, r ≠ .error (.unresolved name reason)

namespace Unnamed

variable {α β : Type} {r : Except EvalError α}

theorem ok (a : α) : Unnamed (.ok a) := by
  intro name reason h
  cases h

theorem map (h : Unnamed r) (f : α → β) : Unnamed (r.map f) := by
  cases r with
  | ok a => exact ok (f a)
  | error e =>
    intro name reason heq
    cases heq
    exact h name reason rfl

theorem bind (h : Unnamed r) {f : α → Except EvalError β} (hf : ∀ a, Unnamed (f a)) :
    Unnamed (r.bind f) := by
  cases r with
  | ok a => exact hf a
  | error e =>
    intro name reason heq
    cases heq
    exact h name reason rfl

/-- Without a name in it a failure has no case. -/
theorem mapError (h : Unnamed r) (casing : Casing) :
    r.mapError (EvalError.recase casing) = r := by
  cases r with
  | ok a => rfl
  | error e =>
    cases e with
    | malformed cause => rfl
    | arithmetic cause => rfl
    | unresolved name reason => exact absurd rfl (h name reason)

end Unnamed

theorem unnamed_malformed {α : Type} (cause : SyntaxError) :
    Unnamed (.error (.malformed cause) : Except EvalError α) := by
  intro name reason h
  cases h

theorem unnamed_applyOperator (op : Operator) (l r : Int64) : Unnamed (applyOperator op l r) := by
  intro name reason h
  unfold applyOperator at h
  cases hop : op.apply l r with
  | ok v =>
    rw [hop] at h
    cases h
  | error e =>
    rw [hop] at h
    cases h

namespace Stacks

theorem unnamed_reduce (multiplicative : Bool) (s : Stacks) : Unnamed (s.reduce multiplicative) := by
  unfold reduce
  split
  · next op pending _ =>
    split
    · refine Unnamed.map ?_ _
      unfold combine
      split
      · exact (unnamed_applyOperator op _ _).map _
      · exact unnamed_malformed _
    · exact .ok s
  · exact .ok s

theorem unnamed_operand (v : Int64) (s : Stacks) : Unnamed (s.operand v) :=
  unnamed_reduce true _

theorem unnamed_number (digits : String) (s : Stacks) : Unnamed (s.number digits) := by
  unfold number
  split
  · next v _ => exact unnamed_operand v s
  · intro name reason h
    cases h

theorem unnamed_operator (op : Operator) (s : Stacks) : Unnamed (s.operator op) := by
  cases hop : op.isMultiplicative with
  | true =>
    rw [Expression.operator_of_multiplicative hop]
    exact .ok _
  | false =>
    rw [Expression.operator_of_additive hop]
    exact (unnamed_reduce false s).bind fun s' => .ok _

theorem unnamed_closeParen (s : Stacks) : Unnamed s.closeParen := by
  refine Unnamed.bind (unnamed_reduce false s) fun s' => ?_
  split
  · exact unnamed_reduce true _
  · exact unnamed_malformed _
  · exact unnamed_malformed _

theorem unnamed_result (s : Stacks) : Unnamed s.result := by
  unfold result
  split
  · exact .ok _
  · exact unnamed_applyOperator _ _ _
  · exact unnamed_malformed _

end Stacks

namespace Machine

theorem ask_recase (lookup : Lookup) (casing : Casing) (name : String) (s : Stacks) :
    ask lookup (casing.apply name) s =
      (ask (lookup ∘ casing.apply) name s).mapError (EvalError.recase casing) := by
  unfold ask
  rw [Function.comp_apply]
  cases lookup (casing.apply name) with
  | ok v => exact ((s.unnamed_operand v).mapError casing).symm
  | error reason => rfl

/-- A step on a renamed token is a step on the token, its name renamed on the way to the lookup. -/
theorem step_recase (lookup : Lookup) (casing : Casing) (m : Machine) (t : Token) :
    (m.recase casing).step lookup (t.recase casing) =
      (m.step (lookup ∘ casing.apply) t).recase casing := by
  obtain ⟨state, asked⟩ := m
  cases state with
  | error e => rfl
  | ok s =>
    cases t with
    | number digits =>
      exact congrArg (Machine.mk · _) ((s.unnamed_number digits).mapError casing).symm
    | var name => exact congrArg (Machine.mk · _) (ask_recase lookup casing name s)
    | operator op =>
      exact congrArg (Machine.mk · _) ((s.unnamed_operator op).mapError casing).symm
    | left => rfl
    | right => exact congrArg (Machine.mk · _) (s.unnamed_closeParen.mapError casing).symm

theorem run_recase (lookup : Lookup) (casing : Casing) (m : Machine) (ts : List Token) :
    (m.recase casing).run lookup (ts.map (Token.recase casing)) =
      (m.run (lookup ∘ casing.apply) ts).recase casing := by
  induction ts generalizing m with
  | nil => rfl
  | cons t ts ih =>
    rw [List.map_cons, run, run, List.foldl_cons, List.foldl_cons, step_recase]
    exact ih (m.step (lookup ∘ casing.apply) t)

theorem finish_recase (casing : Casing) (m : Machine) :
    (m.recase casing).finish = m.finish.recase casing := by
  obtain ⟨state, asked⟩ := m
  have hresult : (state.mapError (EvalError.recase casing)).bind Stacks.result =
      (state.bind Stacks.result).mapError (EvalError.recase casing) := by
    cases state with
    | ok s => exact (s.unnamed_result.mapError casing).symm
    | error e => rfl
  rw [finish, finish, recase, Evaluation.recase, hresult, List.map_reverse]

end Machine

/-- The tokens of an expression in another case are evaluated like the tokens themselves, their
names renamed on the way to the lookup. -/
theorem ofTokens_recase (lookup : Lookup) (casing : Casing) {ts : List Token}
    (h : Formula.check ts = .ok ()) :
    ofTokens lookup (ts.map (Token.recase casing)) =
      (ofTokens (lookup ∘ casing.apply) ts).recase casing := by
  rw [ofTokens_of_check h, ofTokens_of_check (Formula.check_map_recase h), ← Machine.finish_recase,
    ← Machine.run_recase]
  rfl

end Evaluation

namespace Formula

theorem evaluate_parse (lookup : Lookup) {s : String} {f : Formula} (h : parse casing s = .ok f) :
    f.evaluate lookup = (Evaluation.ofText (lookup ∘ casing.apply) s).recase casing := by
  obtain ⟨ts, hscan, hcheck, htokens⟩ := parse_eq_ok_iff.1 h
  rw [evaluate_eq_ofTokens, htokens, Evaluation.ofTokens_recase lookup casing hcheck,
    Evaluation.ofText, hscan]

theorem evaluate_recase (lookup : Lookup) (casing : Casing) (f : Formula) :
    (f.recase casing).evaluate lookup = (f.evaluate (lookup ∘ casing.apply)).recase casing := by
  rw [evaluate_eq_ofTokens, evaluate_eq_ofTokens]
  exact Evaluation.ofTokens_recase lookup casing f.wellFormed

/-- A formula that is read in some case, or brought into it, means what it has meant before: it has
the same outcome, after asking for the same names in the same order, all of them in that case. -/
theorem evaluate_renamed (casing : Casing) (lookup : Lookup) :
    (∀ s f, parse casing s = .ok f →
      f.evaluate lookup = (Evaluation.ofText (lookup ∘ casing.apply) s).recase casing) ∧
    ∀ f : Formula,
      (f.recase casing).evaluate lookup = (f.evaluate (lookup ∘ casing.apply)).recase casing ∧
      Evaluation.ofText lookup (casing.apply f.text) =
        (f.evaluate (lookup ∘ casing.apply)).recase casing := by
  refine ⟨fun s f h => evaluate_parse lookup h, fun f => ⟨evaluate_recase lookup casing f, ?_⟩⟩
  rw [← evaluate_recase, ← text_recase]
  rfl

/-- In this lookup the one name has a value and no other has. -/
def only (known : String) : Lookup := fun name =>
  if name = known then .ok 3 else .error "cell is empty"

theorem evaluate_renamed_only :
    ∃ f, parse .upper "a1 * (b2 - 1)" = .ok f ∧
      f.evaluate (only "A1") =
        { result := .error (.unresolved "B2" "cell is empty"), asked := ["A1", "B2"] } ∧
      Evaluation.ofText (only "A1" ∘ Casing.upper.apply) "a1 * (b2 - 1)" =
        { result := .error (.unresolved "b2" "cell is empty"), asked := ["a1", "b2"] } := by
  have ha : Casing.upper.apply "a1" = "A1" := by
    rw [← String.toList_inj, Casing.toList_apply]
    rfl
  have hb : Casing.upper.apply "b2" = "B2" := by
    rw [← String.toList_inj, Casing.toList_apply]
    rfl
  have hscan : Token.scan "a1 * (b2 - 1)" =
      .ok [.var "a1", .operator .mul, .left, .var "b2", .operator .sub, .number "1", .right] := rfl
  have htext : Evaluation.ofText (only "A1" ∘ Casing.upper.apply) "a1 * (b2 - 1)" =
      { result := .error (.unresolved "b2" "cell is empty"), asked := ["a1", "b2"] } := by
    have hnames : ∀ name, Token.var name ∈ [.var "a1", .operator .mul, .left, .var "b2",
        .operator .sub, .number "1", .right] →
        (only "A1" ∘ Casing.upper.apply) name = only "a1" name := by
      intro name hname
      obtain rfl | rfl : name = "a1" ∨ name = "b2" := by simpa using hname
      · simp [only, ha]
      · simp [only, hb]
    rw [Evaluation.ofText, hscan]
    simp only [Evaluation.ofTokens, Evaluation.Machine.run_congr .start hnames]
    rfl
  obtain ⟨f, hparse⟩ : ∃ f, parse .upper "a1 * (b2 - 1)" = .ok f := ⟨_, rfl⟩
  refine ⟨f, hparse, ?_, htext⟩
  rw [(evaluate_renamed .upper (only "A1")).1 _ f hparse, htext, ← ha, ← hb]
  rfl

end Formula

end Worksheet
