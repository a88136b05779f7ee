import Mathlib.Data.List.Forall2
import Worksheet.Proofs.Expression.Machine

/-!
Whether a text is malformed does not depend on the values of its variables.

Two passes over the same tokens, each with its own lookup, have the same operators pending and
equally many operands (`Stacks.SameForm`) as long as neither has failed for the sake of a value: by
arithmetic, or for want of a variable's value (`FailsByValue`). `Evaluation.Parallel` lifts this to
outcomes, and each operation on the stacks keeps it. So both passes stop at the same token for the
same fault, or do not stop, after asking for the same names (`inStep_step`, `inStep_run`).
-/

namespace Worksheet.Evaluation

open Expression (operator_of_multiplicative operator_of_additive)

variable {α β : Type} {r r' : Except EvalError α} {lookup lookup' : Lookup} {s s' : Stacks}

/-! ## Outcomes -/

/-- Arithmetic fails, or a variable has no value. -/
def FailsByValue (r : Except EvalError α) : Prop :=
  ∃ e, r = .error e ∧ ∀ cause, e ≠ .malformed cause

theorem not_failsByValue_ok (a : α) : ¬ FailsByValue (.ok a) := by
  rintro ⟨e, h, -⟩
  cases h

theorem not_failsByValue_malformed (cause : SyntaxError) :
    ¬ FailsByValue (.error (.malformed cause) : Except EvalError α) := by
  rintro ⟨e, h, he⟩
  cases h
  exact he cause rfl

theorem FailsByValue.bind (h : FailsByValue r) (f : α → Except EvalError β) :
    FailsByValue (r.bind f) := by
  obtain ⟨e, rfl, he⟩ := h
  exact ⟨e, rfl, he⟩

/-- Results in the given relation, or the same fault; nothing is said if one fails by a value. -/
inductive Parallel (same : α → α → Prop) : Except EvalError α → Except EvalError α → Prop
  | ok {a a' : α} (h : same a a') : Parallel same (.ok a) (.ok a')
  | malformed (cause : SyntaxError) :
      Parallel same (.error (.malformed cause)) (.error (.malformed cause))
  | left {r r' : Except EvalError α} (h : FailsByValue r) : Parallel same r r'
  | right {r r' : Except EvalError α} (h : FailsByValue r') : Parallel same r r'

theorem Parallel.bind {same : α → α → Prop} {same' : β → β → Prop} (h : Parallel same r r')
    {f f' : α → Except EvalError β} (hf : ∀ a a', same a a' → Parallel same' (f a) (f' a')) :
    Parallel same' (r.bind f) (r'.bind f') := by
  cases h with
  | ok h => exact hf _ _ h
  | malformed cause => exact .malformed cause
  | left h => exact .left (h.bind f)
  | right h => exact .right (h.bind f')

theorem Parallel.cases {same : α → α → Prop} (h : Parallel same r r') (hr : ¬ FailsByValue r)
    (hr' : ¬ FailsByValue r') :
    (∃ a a', same a a' ∧ r = .ok a ∧ r' = .ok a') ∨
      ∃ cause, r = .error (.malformed cause) ∧ r' = .error (.malformed cause) := by
  cases h with
  | ok h => exact .inl ⟨_, _, h, rfl, rfl⟩
  | malformed cause => exact .inr ⟨cause, rfl, rfl⟩
  | left h => exact absurd h hr
  | right h => exact absurd h hr'

theorem Parallel.map {same : α → α → Prop} {same' : β → β → Prop} (h : Parallel same r r')
    {f f' : α → β} (hf : ∀ a a', same a a' → same' (f a) (f' a')) :
    Parallel same' (r.map f) (r'.map f') := by
  have hmap : ∀ (f : α → β) (r : Except EvalError α), r.map f = r.bind fun a => .ok (f a) :=
    fun f r => by cases r <;> rfl
  rw [hmap, hmap]
  exact h.bind fun a a' haa' => .ok (hf a a' haa')

/-! ## The stacks -/

/-- Any two values. -/
def AnyValues (_ _ : Int64) : Prop :=
  True

/-- The stacks have equally many operands, of any values, and the same pending. -/
inductive Stacks.SameForm : Stacks → Stacks → Prop
  | mk {operands operands' : List Int64} (h : List.Forall₂ AnyValues operands operands')
      (pending : List Pending) : SameForm { operands, pending } { operands := operands', pending }

theorem parallel_applyOperator (op : Operator) (l r l' r' : Int64) :
    Parallel AnyValues (applyOperator op l r) (applyOperator op l' r') := by
  unfold applyOperator
  -- one side may overflow or divide by zero where the other does not
  cases op.apply l r with
  | error e => exact .left ⟨_, rfl, by simp⟩
  | ok v =>
    cases op.apply l' r' with
    | error e => exact .right ⟨_, rfl, by simp⟩
    | ok v' => exact .ok trivial

theorem parallel_combine (op : Operator) {operands operands' : List Int64}
    (h : List.Forall₂ AnyValues operands operands') :
    Parallel (List.Forall₂ AnyValues) (Stacks.combine op operands)
      (Stacks.combine op operands') := by
  rcases h with _ | ⟨-, _ | ⟨-, hrest⟩⟩
  · exact .malformed _
  · exact .malformed _
  · exact (parallel_applyOperator op _ _ _ _).map fun _ _ hv => .cons hv hrest

namespace Stacks

theorem SameForm.push (h : s.SameForm s') (v v' : Int64) :
    (Expression.push s v).SameForm (Expression.push s' v') := by
  obtain ⟨hoperands, pending⟩ := h
  exact .mk (.cons trivial hoperands) pending

theorem SameForm.await (h : s.SameForm s') (op : Operator) :
    (Expression.await s op).SameForm (Expression.await s' op) := by
  obtain ⟨hoperands, pending⟩ := h
  exact .mk hoperands _

theorem SameForm.openParen (h : s.SameForm s') : s.openParen.SameForm s'.openParen := by
  obtain ⟨hoperands, pending⟩ := h
  exact .mk hoperands _

theorem parallel_reduce (h : s.SameForm s') (multiplicative : Bool) :
    Parallel SameForm (s.reduce multiplicative) (s'.reduce multiplicative) := by
  obtain ⟨hoperands, pending⟩ := h
  rcases pending with _ | ⟨op | _, pending⟩
  · exact .ok (.mk hoperands _)
  · simp only [reduce]
    split
    · exact (parallel_combine op hoperands).map fun _ _ hrest => .mk hrest pending
    · exact .ok (.mk hoperands _)
  · exact .ok (.mk hoperands _)

theorem parallel_operand (h : s.SameForm s') (v v' : Int64) :
    Parallel SameForm (s.operand v) (s'.operand v') :=
  parallel_reduce (h.push v v') true

theorem parallel_number (h : s.SameForm s') (digits : String) :
    Parallel SameForm (s.number digits) (s'.number digits) := by
  unfold number
  split
  · next v _ => exact parallel_operand h v v
  · exact .left ⟨_, rfl, by simp⟩

theorem parallel_operator (h : s.SameForm s') (op : Operator) :
    Parallel SameForm (s.operator op) (s'.operator op) := by
  cases hop : op.isMultiplicative with
  | true =>
    rw [operator_of_multiplicative hop, operator_of_multiplicative hop]
    exact .ok (h.await op)
  | false =>
    rw [operator_of_additive hop, operator_of_additive hop]
    exact (parallel_reduce h false).bind fun _ _ hu => .ok (hu.await op)

theorem parallel_closeParen (h : s.SameForm s') :
    Parallel SameForm s.closeParen s'.closeParen := by
  refine (parallel_reduce h false).bind fun u u' hu => ?_
  obtain ⟨hoperands, pending⟩ := hu
  rcases pending with _ | ⟨op | _, pending⟩
  · exact .malformed _
  · exact .malformed _
  · exact parallel_reduce (.mk hoperands pending) true

theorem parallel_result (h : s.SameForm s') : Parallel AnyValues s.result s'.result := by
  obtain ⟨hoperands, pending⟩ := h
  rcases pending with _ | ⟨op | _, _ | ⟨p, pending⟩⟩
  · rcases hoperands with _ | ⟨hv, _ | ⟨-, -⟩⟩
    · exact .malformed _
    · exact .ok hv
    · exact .malformed _
  · rcases hoperands with _ | ⟨-, _ | ⟨-, _ | ⟨-, -⟩⟩⟩
    · exact .malformed _
    · exact .malformed _
    · exact parallel_applyOperator op _ _ _ _
    · exact .malformed _
  all_goals exact .malformed _

end Stacks

/-! ## The pass -/

theorem parallel_ask (h : s.SameForm s') (name : String) :
    Parallel Stacks.SameForm (Machine.ask lookup name s) (Machine.ask lookup' name s') := by
  unfold Machine.ask
  cases lookup name with
  | error reason => exact .left ⟨_, rfl, by simp⟩
  | ok v =>
    cases lookup' name with
    | error reason => exact .right ⟨_, rfl, by simp⟩
    | ok v' => exact Stacks.parallel_operand h v v'

/-- Two machines have come equally far, unless one of them has failed by a value. -/
structure Machine.InStep (m m' : Machine) : Prop where
  state : Parallel Stacks.SameForm m.state m'.state
  asked : ¬ FailsByValue m.state → ¬ FailsByValue m'.state → m.asked = m'.asked

/-- Two evaluations come out equally far, unless one of them fails by a value. -/
structure InStep (e e' : Evaluation) : Prop where
  result : Parallel AnyValues e.result e'.result
  asked : ¬ FailsByValue e.result → ¬ FailsByValue e'.result → e.asked = e'.asked

namespace Machine

variable {m m' : Machine}

theorem inStep_start : InStep start start where
  state := .ok (.mk .nil [])
  asked _ _ := rfl

/-- A token keeps two machines in step, whatever the values that their lookups give. -/
theorem inStep_step (h : InStep m m') (t : Token) :
    InStep (m.step lookup t) (m'.step lookup' t) := by
  obtain ⟨state, asked⟩ := m
  obtain ⟨state', asked'⟩ := m'
  obtain ⟨hstate, hasked⟩ := h
  cases hstate with
  | ok hs =>
    obtain rfl : asked = asked' := hasked (not_failsByValue_ok _) (not_failsByValue_ok _)
    cases t with
    | number digits => exact ⟨Stacks.parallel_number hs digits, fun _ _ => rfl⟩
    | var name => exact ⟨parallel_ask hs name, fun _ _ => rfl⟩
    | operator op => exact ⟨Stacks.parallel_operator hs op, fun _ _ => rfl⟩
    | left => exact ⟨.ok hs.openParen, fun _ _ => rfl⟩
    | right => exact ⟨Stacks.parallel_closeParen hs, fun _ _ => rfl⟩
  | malformed cause => exact ⟨.malformed cause, hasked⟩
  -- a machine that has failed by a value stays as it is
  | left hfails =>
    obtain ⟨e, rfl, he⟩ := hfails
    exact ⟨.left ⟨e, rfl, he⟩, fun hnot => absurd ⟨e, rfl, he⟩ hnot⟩
  | right hfails =>
    obtain ⟨e, rfl, he⟩ := hfails
    exact ⟨.right ⟨e, rfl, he⟩, fun _ hnot => absurd ⟨e, rfl, he⟩ hnot⟩

theorem inStep_run (h : InStep m m') (ts : List Token) :
    InStep (m.run lookup ts) (m'.run lookup' ts) := by
  induction ts generalizing m m' with
  | nil => exact h
  | cons t ts ih => exact ih (inStep_step h t)

theorem inStep_finish (h : InStep m m') : m.finish.InStep m'.finish where
  result := h.state.bind fun _ _ hs => Stacks.parallel_result hs
  asked hresult hresult' := by
    have hasked := h.asked (fun hstate => hresult (hstate.bind _))
      fun hstate => hresult' (hstate.bind _)
    rw [finish, finish, hasked]

end Machine

theorem inStep_failed (cause : SyntaxError) : (failed cause).InStep (failed cause) where
  result := .malformed cause
  asked _ _ := rfl

theorem inStep_ofText (lookup lookup' : Lookup) (text : String) :
    (ofText lookup text).InStep (ofText lookup' text) := by
  unfold ofText
  split
  · next ts _ =>
    unfold ofTokens
    split
    · exact Machine.inStep_finish (Machine.inStep_run Machine.inStep_start ts)
    · next cause _ => exact inStep_failed cause
  · next cause _ => exact inStep_failed cause

/-- Two evaluations of a text of which neither fails by a value, by arithmetic or for want of the
value of a variable, both have a value or are malformed with the same cause. They ask for the same
names in the same order. -/
theorem malformed_congr {text : String} {lookup lookup' : Lookup}
    (h : ¬ FailsByValue (ofText lookup text).result)
    (h' : ¬ FailsByValue (ofText lookup' text).result) :
    ((∃ v v', (ofText lookup text).result = .ok v ∧ (ofText lookup' text).result = .ok v') ∨
      ∃ cause, (ofText lookup text).result = .error (.malformed cause) ∧
        (ofText lookup' text).result = .error (.malformed cause)) ∧
    (ofText lookup text).asked = (ofText lookup' text).asked := by
  obtain ⟨hresult, hasked⟩ := inStep_ofText lookup lookup' text
  refine ⟨?_, hasked h h'⟩
  rcases hresult.cases h h' with ⟨v, v', -, hv, hv'⟩ | hmalformed
  · exact .inl ⟨v, v', hv, hv'⟩
  · exact .inr hmalformed

/-- No value of `A1` and `B1` gives `*` its right operand, and `C1` is never asked for. -/
theorem malformed_congr_unfinished :
    (ofText (fun _ => .ok 2) "(A1 + B1 *) - C1").result =
        .error (.malformed (.missingOperand .mul)) ∧
      (ofText (fun _ => .ok 7) "(A1 + B1 *) - C1").result =
        .error (.malformed (.missingOperand .mul)) ∧
      (ofText (fun _ => .ok 2) "(A1 + B1 *) - C1").asked = ["A1", "B1"] ∧
      (ofText (fun _ => .ok 7) "(A1 + B1 *) - C1").asked = ["A1", "B1"] := by
  have hone : (ofText (fun _ => .ok 2) "(A1 + B1 *) - C1").result =
      .error (.malformed (.missingOperand .mul)) := rfl
  have hother : (ofText (fun _ => .ok 7) "(A1 + B1 *) - C1").result =
      .error (.malformed (.missingOperand .mul)) := rfl
  have hasked : (ofText (fun _ => .ok 2) "(A1 + B1 *) - C1").asked = ["A1", "B1"] := rfl
  have hsame := malformed_congr (hone ▸ not_failsByValue_malformed _)
    (hother ▸ not_failsByValue_malformed _)
  exact ⟨hone, hother, hasked, hsame.2 ▸ hasked⟩

end Worksheet.Evaluation
