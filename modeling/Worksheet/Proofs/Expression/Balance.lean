import Worksheet.Proofs.Expression.Machine

/-!
What the pass with two stacks accepts of tokens that have not been checked, as those of `1(2)+`.

Each operation that is carried out uses up an operator and one operand more than it leaves. So the
stacks account for what has been read (`Accounts`): the operands exceed the pending operators as
those read exceed the operators read, and what is open is what has been opened and not closed. One
token keeps the account (`accounts_step`), and so does a run that does not fail (`accounts_run`).

A pass that ends with a value ends with nothing open and one operand more than operators, so
that the same holds of the tokens of the text (`balanced_of_value`).
-/

namespace Worksheet.Evaluation

open Expression (push await exists_of_bind operator_of_multiplicative operator_of_additive)

variable {lookup : Lookup} {s s' : Stacks} {read ts : List Token} {t : Token}

/-! ## What does not fail -/

/-- Nothing is carried out, or the topmost operator is, on the two topmost operands. -/
theorem reduce_cases {multiplicative : Bool} (h : s.reduce multiplicative = .ok s') :
    s' = s ∨
      ∃ op l r v operands pending, applyOperator op l r = .ok v ∧
        s = { operands := r :: l :: operands, pending := .operator op :: pending } ∧
        s' = { operands := v :: operands, pending } := by
  obtain ⟨operands, pending⟩ := s
  rcases pending with _ | ⟨op | _, pending⟩
  · exact .inl (Except.ok.inj h).symm
  · rw [Stacks.reduce] at h
    dsimp only at h
    split at h
    · rcases operands with _ | ⟨r, _ | ⟨l, operands⟩⟩
      · cases h
      · cases h
      · rw [Stacks.combine] at h
        cases hv : applyOperator op l r with
        | error e =>
          rw [hv] at h
          cases h
        | ok v =>
          rw [hv] at h
          exact .inr ⟨op, l, r, v, operands, pending, hv, rfl, (Except.ok.inj h).symm⟩
    · exact .inl (Except.ok.inj h).symm
  · exact .inl (Except.ok.inj h).symm

theorem operator_cases {op : Operator} (h : s.operator op = .ok s') :
    ∃ u, (u = s ∨ s.reduce false = .ok u) ∧ s' = await u op := by
  cases hop : op.isMultiplicative with
  | true =>
    rw [operator_of_multiplicative hop] at h
    exact ⟨s, .inl rfl, (Except.ok.inj h).symm⟩
  | false =>
    rw [operator_of_additive hop] at h
    obtain ⟨u, hu, hs⟩ := exists_of_bind h
    exact ⟨u, .inr hu, (Except.ok.inj hs).symm⟩

theorem closeParen_cases (h : s.closeParen = .ok s') :
    ∃ operands pending, s.reduce false = .ok { operands, pending := .paren :: pending } ∧
      Stacks.reduce true { operands, pending } = .ok s' := by
  obtain ⟨⟨operands, pending⟩, hu, hs⟩ := exists_of_bind h
  rcases pending with _ | ⟨op | _, pending⟩
  · cases hs
  · cases hs
  · exact ⟨operands, pending, hu, hs⟩

/-- What a token can do that does not fail. -/
theorem step_cases {m : Machine} (hm : m.state = .ok s) (h : (m.step lookup t).state = .ok s') :
    (t.isOperand ∧ ∃ v, s.operand v = .ok s') ∨
      (∃ op, t = .operator op ∧ s.operator op = .ok s') ∨
      (t = .left ∧ s' = s.openParen) ∨
      (t = .right ∧ s.closeParen = .ok s') := by
  rw [Machine.step, hm] at h
  cases t with
  | number digits =>
    have h : s.number digits = .ok s' := h
    rw [Stacks.number] at h
    split at h
    · next v _ => exact .inl ⟨rfl, v, h⟩
    · cases h
  | var name =>
    have h : Machine.ask lookup name s = .ok s' := h
    rw [Machine.ask] at h
    split at h
    · next v _ => exact .inl ⟨rfl, v, h⟩
    · cases h
  | operator op => exact .inr (.inl ⟨op, rfl, h⟩)
  | left => exact .inr (.inr (.inl ⟨rfl, (Except.ok.inj h).symm⟩))
  | right => exact .inr (.inr (.inr ⟨rfl, h⟩))

/-- A run that does not fail has not failed on the way. -/
theorem exists_of_run_append {m : Machine} {before after : List Token}
    (h : (m.run lookup (before ++ after)).state = .ok s) :
    ∃ u, (m.run lookup before).state = .ok u := by
  cases hbefore : (m.run lookup before).state with
  | ok u => exact ⟨u, rfl⟩
  | error e =>
    rw [Machine.run_append, Machine.run_of_failed hbefore, hbefore] at h
    cases h

/-! ## The account -/

def Pending.isOperator : Pending → Bool
  | operator _ => true
  | paren => false

/-- What is on the stacks is what is left of the tokens that have been read. -/
structure Accounts (read : List Token) (s : Stacks) : Prop where
  operands : s.operands.length + read.countP Token.isOperator =
    s.pending.countP Pending.isOperator + read.countP Token.isOperand
  parens : s.pending.count .paren + read.count .right = read.count .left

theorem accounts_start : Accounts [] { operands := [], pending := [] } :=
  ⟨rfl, rfl⟩

/-- An operation takes two operands and an operator and leaves one operand. -/
theorem accounts_reduce {multiplicative : Bool} (h : Accounts read s)
    (hs : s.reduce multiplicative = .ok s') : Accounts read s' := by
  rcases reduce_cases hs with rfl | ⟨op, l, r, v, operands, pending, -, rfl, rfl⟩
  · exact h
  · obtain ⟨hoperands, hparens⟩ := h
    constructor
    · simp [List.countP_cons, Pending.isOperator] at hoperands ⊢
      omega
    · simpa using hparens

theorem accounts_push (h : Accounts read s) (ht : t.isOperand = true) (v : Int64) :
    Accounts (read ++ [t]) (push s v) := by
  obtain ⟨hoperands, hparens⟩ := h
  cases t with
  | number digits | var name =>
    constructor
    · simp [push, Token.isOperator, Token.isOperand]
      omega
    · simpa [push] using hparens
  | operator op | left | right => cases ht

theorem accounts_await (h : Accounts read s) (op : Operator) :
    Accounts (read ++ [.operator op]) (await s op) := by
  obtain ⟨hoperands, hparens⟩ := h
  constructor
  · simp [await, List.countP_cons, Token.isOperator, Token.isOperand, Pending.isOperator]
    omega
  · simpa [await] using hparens

theorem accounts_openParen (h : Accounts read s) : Accounts (read ++ [.left]) s.openParen := by
  obtain ⟨hoperands, hparens⟩ := h
  constructor
  · simpa [Stacks.openParen, Token.isOperator, Token.isOperand, Pending.isOperator] using hoperands
  · simp [Stacks.openParen]
    omega

/-- A parenthesis that is closed is one that is open. -/
theorem accounts_closed {operands : List Int64} {pending : List Pending}
    (h : Accounts read { operands, pending := .paren :: pending }) :
    Accounts (read ++ [.right]) { operands, pending } := by
  obtain ⟨hoperands, hparens⟩ := h
  constructor
  · simpa [Token.isOperator, Token.isOperand, Pending.isOperator] using hoperands
  · simp at hparens ⊢
    omega

/-- A token that does not fail keeps the account. -/
theorem accounts_step {m : Machine} (hm : m.state = .ok s) (h : Accounts read s)
    (hs : (m.step lookup t).state = .ok s') : Accounts (read ++ [t]) s' := by
  rcases step_cases hm hs with ⟨ht, v, hv⟩ | ⟨op, rfl, hop⟩ | ⟨rfl, rfl⟩ | ⟨rfl, hright⟩
  · exact accounts_reduce (accounts_push h ht v) hv
  · obtain ⟨u, rfl | hu, rfl⟩ := operator_cases hop
    · exact accounts_await h op
    · exact accounts_await (accounts_reduce h hu) op
  · exact accounts_openParen h
  · obtain ⟨operands, pending, hopen, hclosed⟩ := closeParen_cases hright
    exact accounts_reduce (accounts_closed (accounts_reduce h hopen)) hclosed

theorem accounts_run {m : Machine} (hm : m.state = .ok s) (h : Accounts read s)
    (hs : (m.run lookup ts).state = .ok s') : Accounts (read ++ ts) s' := by
  induction ts generalizing m s read with
  | nil =>
    have hs : m.state = .ok s' := hs
    rw [hm] at hs
    cases hs
    simpa using h
  | cons t ts ih =>
    have hs' : (m.run lookup ([t] ++ ts)).state = .ok s' := hs
    obtain ⟨u, hu⟩ := exists_of_run_append hs'
    have hrest := ih hu (accounts_step hm h hu) hs
    rwa [List.append_assoc, List.singleton_append] at hrest

/-! ## Texts that have a value -/

theorem precheck_eq_ok_iff :
    precheck ts = .ok () ↔
      ts.count .left = ts.count .right ∧ hasImpliedMultiplication ts = false := by
  unfold precheck
  split
  · next h => simp [h]
  · next h =>
    rw [Decidable.not_not] at h
    cases hasImpliedMultiplication ts <;> simp [h]

/-- A number directly after a `)` is found wherever it stands. -/
theorem hasImpliedMultiplication_append (before after : List Token) (digits : String) :
    hasImpliedMultiplication (before ++ .right :: .number digits :: after) = true := by
  induction before with
  | nil => rfl
  | cons t before ih =>
    rw [List.cons_append, hasImpliedMultiplication.eq_def]
    split
    · rfl
    · next heq =>
      cases heq
      exact ih
    · next heq => cases heq

theorem result_cases {v : Int64} (h : s.result = .ok v) :
    s = { operands := [v], pending := [] } ∨
      ∃ op l r, applyOperator op l r = .ok v ∧
        s = { operands := [r, l], pending := [.operator op] } := by
  obtain ⟨operands, pending⟩ := s
  rw [Stacks.result] at h
  split at h
  · next hpending hoperands =>
    cases hpending
    cases hoperands
    cases h
    exact .inl rfl
  · next op r l hpending hoperands =>
    cases hpending
    cases hoperands
    exact .inr ⟨op, l, r, h, rfl⟩
  · cases h

/-- A text with a value is scanned, its tokens pass the first check, and the pass over them does not
fail. -/
theorem ofText_cases {text : String} {v : Int64} (h : (ofText lookup text).result = .ok v) :
    ∃ ts s, Token.scan text = .ok ts ∧ precheck ts = .ok () ∧
      (Machine.start.run lookup ts).state = .ok s ∧ s.result = .ok v := by
  rw [ofText] at h
  split at h
  · next ts hscan =>
    rw [ofTokens] at h
    split at h
    · next hcheck =>
      obtain ⟨s, hrun, hresult⟩ := exists_of_bind h
      exact ⟨ts, s, hscan, hcheck, hrun, hresult⟩
    · cases h
  · cases h

/-- A text that has a value, be it an expression or not, is made of tokens. Among these are one
operand more than operators and as many `(` as `)`; no `)` stands before its `(`, and no number
directly after a `)`. -/
theorem balanced_of_value {text : String} {v : Int64}
    (h : (ofText lookup text).result = .ok v) :
    ∃ ts, Token.scan text = .ok ts ∧
      ts.countP Token.isOperand = ts.countP Token.isOperator + 1 ∧
      (∀ before, before <+: ts → before.count .right ≤ before.count .left) ∧
      ts.count .left = ts.count .right ∧
      ∀ before digits after, ts ≠ before ++ .right :: .number digits :: after := by
  obtain ⟨ts, s, hscan, hcheck, hrun, hresult⟩ := ofText_cases h
  obtain ⟨hcount, himplied⟩ := precheck_eq_ok_iff.1 hcheck
  refine ⟨ts, hscan, ?_, ?_, hcount, ?_⟩
  · obtain ⟨hoperands, -⟩ := accounts_run rfl accounts_start hrun
    rcases result_cases hresult with rfl | ⟨op, l, r, -, rfl⟩
    · simpa [Nat.add_comm] using hoperands.symm
    · simp [Pending.isOperator] at hoperands
      omega
  · rintro before ⟨after, rfl⟩
    -- what is pending after `before` has been opened in it and not closed
    obtain ⟨u, hu⟩ := exists_of_run_append hrun
    have hparens := (accounts_run rfl accounts_start hu).parens
    rw [List.nil_append] at hparens
    omega
  · rintro before digits after rfl
    rw [hasImpliedMultiplication_append] at himplied
    cases himplied

/-- This is no expression, and has a value nevertheless. -/
theorem balanced_of_value_juxtaposed :
    (ofText (fun _ => .ok 2) "1(A1)+").result = .ok 3 ∧
      Formula.parse .upper "1(A1)+" = .error (.invalidEnd (.operator .add)) ∧
      ∃ ts, Token.scan "1(A1)+" = .ok ts ∧ ts.countP Token.isOperator = 1 ∧
        ts.countP Token.isOperand = ts.countP Token.isOperator + 1 ∧
        (∀ before, before <+: ts → before.count .right ≤ before.count .left) ∧
        ts.count .left = ts.count .right := by
  have hvalue : (ofText (fun _ => .ok 2) "1(A1)+").result = .ok 3 := rfl
  have hscan : Token.scan "1(A1)+" =
      .ok [.number "1", .left, .var "A1", .right, .operator .add] := rfl
  obtain ⟨ts, hts, hcount, hprefix, hparens, -⟩ := balanced_of_value hvalue
  rw [hscan, Except.ok.injEq] at hts
  subst hts
  exact ⟨hvalue, rfl, _, hscan, rfl, hcount, hprefix, hparens⟩

end Worksheet.Evaluation
