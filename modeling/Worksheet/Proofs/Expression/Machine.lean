import Worksheet.Proofs.Expression.Grammar

/-!
The pass with two stacks evaluates the parse tree of the tokens.

`run_tokens` says what reading the tokens of a tree does to the stacks, by level. An atom is taken
in like an operand. A product leaves its value on the operands, if no `*` or `/` is pending before
it. A sum leaves its value as well, or its last operation is still to be carried out
(`Stands`); this is where the pass differs from the order of the tree, and what comes next settles
it (`delivers_reduce`). Failures and the names asked for are those of the tree, in all cases.

`ofText_eq_evaluate` puts this together with the grammar.
-/

namespace Worksheet.Expression

open Evaluation

variable {lookup : Lookup} {s : Stacks} {state : Except EvalError Stacks}
  {result : Except EvalError Int} {op : Operator}

/-! ## Arithmetic in 64 bits -/

theorem map_toInt_inRange (n : Int) :
    ((inRange n).mapError EvalError.arithmetic).map Int64.toInt = checked n := by
  unfold inRange toInt64? checked
  by_cases h : FitsInt64 n
  · rw [dif_pos (fitsInt64_iff.1 h), if_pos h]
    exact congrArg Except.ok Int64.toInt_ofIntLE
  · rw [dif_neg (mt fitsInt64_iff.2 h), if_neg h]
    rfl

theorem map_toInt_applyOperator (op : Operator) (l r : Int64) :
    (applyOperator op l r).map Int64.toInt = exact op l.toInt r.toInt := by
  cases op with
  | add => exact map_toInt_inRange _
  | sub => exact map_toInt_inRange _
  | mul => exact map_toInt_inRange _
  | div =>
    have hzero : r = 0 ↔ r.toInt = 0 := by
      rw [← Int64.toInt_inj]
      rfl
    by_cases hr : r = 0
    · rw [applyOperator, Operator.apply, if_pos hr, exact, if_pos (hzero.1 hr)]
      rfl
    · rw [applyOperator, Operator.apply, if_neg hr, exact, if_neg fun h => hr (hzero.2 h)]
      exact map_toInt_inRange _

-- the one quotient of numbers in range that is out of range
example : exact .div Int64.minValue.toInt (-1) = .error (.arithmetic .overflow) := rfl

/-! ## The stacks -/

/-- What has a result had one on the way. -/
theorem exists_of_bind {α β ε : Type} {r : Except ε α} {f : α → Except ε β} {b : β}
    (h : r.bind f = .ok b) : ∃ a, r = .ok a ∧ f a = .ok b := by
  cases r with
  | ok a => exact ⟨a, rfl, h⟩
  | error e => cases h

/-- The stacks with one more operand. -/
def push (s : Stacks) (v : Int64) : Stacks :=
  { s with operands := v :: s.operands }

/-- The stacks with one more operator that is pending. -/
def await (s : Stacks) (op : Operator) : Stacks :=
  { s with pending := .operator op :: s.pending }

/-- No operator of the given strength is pending on top. -/
def Idle (multiplicative : Bool) (s : Stacks) : Prop :=
  ∀ op rest, s.pending = .operator op :: rest → op.isMultiplicative ≠ multiplicative

theorem reduce_of_idle {multiplicative : Bool} (h : Idle multiplicative s) :
    s.reduce multiplicative = .ok s := by
  unfold Stacks.reduce
  split
  · next op rest hpending => rw [if_neg (h op rest hpending)]
  · rfl

theorem reduce_await (s : Stacks) (op : Operator) (l r : Int64) :
    (push (await (push s l) op) r).reduce op.isMultiplicative =
      (applyOperator op l r).map (push s) := by
  simp only [Stacks.reduce, push, await, Stacks.combine, if_true]
  cases applyOperator op l r <;> rfl

theorem operand_of_idle (h : Idle true s) (v : Int64) : s.operand v = .ok (push s v) :=
  reduce_of_idle (s := push s v) h

theorem idle_await {multiplicative : Bool} (h : op.isMultiplicative ≠ multiplicative) :
    Idle multiplicative (await s op) := by
  intro op' rest hpending
  cases hpending
  exact h

theorem idle_openParen (multiplicative : Bool) (s : Stacks) : Idle multiplicative s.openParen := by
  intro op rest hpending
  cases hpending

/-! ## What reading leaves behind -/

/-- The state is what `next` makes of the value, or the same failure. -/
def Delivers (next : Int64 → Except EvalError Stacks) (state : Except EvalError Stacks)
    (result : Except EvalError Int) : Prop :=
  (∃ v, state = next v ∧ result = .ok v.toInt) ∨ ∃ e, state = .error e ∧ result = .error e

/-- The value lies on the operands, or its last operation is pending, or it is the same failure. -/
def Stands (s : Stacks) (state : Except EvalError Stacks) (result : Except EvalError Int) : Prop :=
  (∃ v, state = .ok (push s v) ∧ result = .ok v.toInt) ∨
    (∃ l op r, op.isMultiplicative = false ∧ state = .ok (push (await (push s l) op) r) ∧
      result = exact op l.toInt r.toInt) ∨
    ∃ e, state = .error e ∧ result = .error e

/-- Carrying out an operation that is pending on top. -/
theorem delivers_reduce_await (s : Stacks) (op : Operator) (l r : Int64) :
    Delivers (fun v => .ok (push s v)) ((push (await (push s l) op) r).reduce op.isMultiplicative)
      (exact op l.toInt r.toInt) := by
  rw [reduce_await, ← map_toInt_applyOperator]
  cases applyOperator op l r with
  | ok v => exact .inl ⟨v, rfl, rfl⟩
  | error e => exact .inr ⟨e, rfl, rfl⟩

/-- Carrying out what is pending settles a sum. -/
theorem delivers_reduce (h : Stands s state result) (hs : Idle false s) :
    Delivers (fun v => .ok (push s v)) (state.bind (Stacks.reduce false)) result := by
  rcases h with ⟨v, rfl, rfl⟩ | ⟨l, op, r, hop, rfl, rfl⟩ | ⟨e, rfl, rfl⟩
  · exact .inl ⟨v, reduce_of_idle (s := push s v) hs, rfl⟩
  · have hdelivers := delivers_reduce_await s op l r
    rw [hop] at hdelivers
    exact hdelivers
  · exact .inr ⟨e, rfl, rfl⟩

/-- Closing a parenthesis takes in what it encloses as an operand. -/
theorem delivers_closeParen (h : Stands s.openParen state result) :
    Delivers s.operand (state.bind Stacks.closeParen) result := by
  have hreduced := delivers_reduce h (idle_openParen false s)
  cases state with
  | error e =>
    rcases hreduced with ⟨v, hstate, _⟩ | ⟨e', hstate, hresult⟩
    · cases hstate
    · exact .inr ⟨e', hstate, hresult⟩
  | ok inner =>
    rw [Except.bind] at hreduced ⊢
    rcases hreduced with ⟨v, hstate, hresult⟩ | ⟨e, hstate, hresult⟩
    · refine .inl ⟨v, ?_, hresult⟩
      rw [Stacks.closeParen, hstate]
      rfl
    · refine .inr ⟨e, ?_, hresult⟩
      rw [Stacks.closeParen, hstate]
      rfl

theorem delivers_number (s : Stacks) (digits : String) :
    Delivers s.operand (s.number digits) (checked (Text.ofDigits digits.toList)) := by
  rw [← map_toInt_inRange, Stacks.number]
  cases inRange (Text.ofDigits digits.toList) with
  | ok v => exact .inl ⟨v, rfl, rfl⟩
  | error e => exact .inr ⟨_, rfl, rfl⟩

theorem delivers_ask (lookup : Lookup) (s : Stacks) (name : String) :
    Delivers s.operand (Machine.ask lookup name s) (Outcome.ask lookup name).result := by
  rw [Machine.ask, Outcome.ask]
  cases lookup name with
  | ok v => exact .inl ⟨v, rfl, rfl⟩
  | error reason => exact .inr ⟨_, rfl, rfl⟩

/-! ## Reading the tokens of a tree -/

theorem run_operator (lookup : Lookup) (state : Except EvalError Stacks) (asked : List String)
    (op : Operator) (ts : List Token) :
    Machine.run lookup { state, asked } (.operator op :: ts) =
      Machine.run lookup { state := state.bind (Stacks.operator op), asked } ts := by
  cases state <;> rfl

theorem run_right (lookup : Lookup) (state : Except EvalError Stacks) (asked : List String) :
    Machine.run lookup { state, asked } [.right] =
      { state := state.bind Stacks.closeParen, asked } := by
  cases state <;> rfl

theorem operator_of_multiplicative (hop : op.isMultiplicative = true) (s : Stacks) :
    s.operator op = .ok (await s op) := by
  simp only [Stacks.operator, hop, if_true]
  rfl

theorem operator_of_additive (hop : op.isMultiplicative = false) (s : Stacks) :
    s.operator op = (s.reduce false).bind fun s => .ok (await s op) := by
  simp only [Stacks.operator, hop, Bool.false_eq_true, if_false]
  rfl

/-- What must not be pending on top before something of the level is read. -/
def Ready (s : Stacks) : Level → Prop
  | .atom => True
  | .product => Idle true s
  | .sum => Idle true s ∧ Idle false s

/-- What reading something of the level leaves behind. -/
def Arrives (s : Stacks) (state : Except EvalError Stacks) (result : Except EvalError Int) :
    Level → Prop
  | .atom => Delivers s.operand state result
  | .product => Delivers (fun v => .ok (push s v)) state result
  | .sum => Stands s state result

/-- An operator and its right operand, after a left operand with a known outcome. -/
theorem run_operation {level : Level} {r : Tree level} {left : Outcome}
    {settled : Except EvalError Stacks} {next : Int64 → Int64 → Except EvalError Stacks}
    (hleft : Delivers (fun v => .ok (push s v)) settled left.result)
    (hright : ∀ l asked, ∃ state,
      Machine.run lookup { state := .ok (await (push s l) op), asked } r.tokens =
        { state, asked := (r.evaluate lookup).asked.reverse ++ asked } ∧
      Delivers (next l) state (r.evaluate lookup).result) (asked : List String) :
    ∃ state,
      Machine.run lookup
          { state := settled.bind fun s => .ok (await s op), asked := left.asked.reverse ++ asked }
          r.tokens =
        { state, asked := (left.combine op (r.evaluate lookup)).asked.reverse ++ asked } ∧
      ((∃ l v, state = next l v ∧
          (left.combine op (r.evaluate lookup)).result = exact op l.toInt v.toInt) ∨
        ∃ e, state = .error e ∧ (left.combine op (r.evaluate lookup)).result = .error e) := by
  rcases hleft with ⟨l, rfl, hl⟩ | ⟨e, rfl, hl⟩
  · obtain ⟨state, hrun, hstate⟩ := hright l (left.asked.reverse ++ asked)
    refine ⟨state, ?_, ?_⟩
    · rw [Except.bind, hrun]
      cases hr : (r.evaluate lookup).result <;> simp [Outcome.combine, hl, hr]
    · rcases hstate with ⟨v, rfl, hr⟩ | ⟨e, rfl, hr⟩
      · exact .inl ⟨l, v, rfl, by simp [Outcome.combine, hl, hr]⟩
      · exact .inr ⟨e, rfl, by simp [Outcome.combine, hl, hr]⟩
  · refine ⟨.error e, ?_, .inr ⟨e, rfl, by simp [Outcome.combine, hl]⟩⟩
    rw [Except.bind, Machine.run_of_failed rfl]
    simp [Outcome.combine, hl]

/-- Reading the tokens of a tree. -/
theorem run_tokens (lookup : Lookup) {level : Level} (t : Tree level) (s : Stacks)
    (hs : Ready s level) (asked : List String) :
    ∃ state, Machine.run lookup { state := .ok s, asked } t.tokens =
        { state, asked := (t.evaluate lookup).asked.reverse ++ asked } ∧
      Arrives s state (t.evaluate lookup).result level := by
  induction t generalizing s asked with
  | number digits =>
    refine ⟨s.number digits, rfl, ?_⟩
    simp only [Arrives, Tree.evaluate]
    exact delivers_number s digits
  | var name => exact ⟨Machine.ask lookup name s, rfl, delivers_ask lookup s name⟩
  | paren t ih =>
    obtain ⟨state, hrun, hstands⟩ :=
      ih s.openParen ⟨idle_openParen true s, idle_openParen false s⟩ asked
    refine ⟨state.bind Stacks.closeParen, ?_, delivers_closeParen hstands⟩
    show Machine.run lookup { state := .ok s.openParen, asked } (t.tokens ++ [.right]) = _
    rw [Machine.run_append, hrun, run_right]
    rfl
  | ofAtom t ih =>
    obtain ⟨state, hrun, hdelivers⟩ := ih s trivial asked
    have hdelivers : Delivers s.operand state (t.evaluate lookup).result := hdelivers
    have hnext : s.operand = fun v => .ok (push s v) := funext (operand_of_idle hs)
    rw [hnext] at hdelivers
    exact ⟨state, hrun, hdelivers⟩
  | product l op hop r ihl ihr =>
    obtain ⟨settled, hrun, hleft⟩ := ihl s hs asked
    obtain ⟨state, hrun', hstate⟩ :=
      run_operation hleft (fun v => ihr (await (push s v) op) trivial) asked
    have hoperator : Stacks.operator op = fun s => .ok (await s op) :=
      funext (operator_of_multiplicative hop)
    refine ⟨state, ?_, ?_⟩
    · rw [Tree.tokens, Machine.run_append, hrun, run_operator, hoperator]
      exact hrun'
    · rcases hstate with ⟨v, w, rfl, hresult⟩ | ⟨e, rfl, hresult⟩
      · have hdelivers := delivers_reduce_await s op v w
        rw [hop, ← hresult] at hdelivers
        exact hdelivers
      · exact .inr ⟨e, rfl, hresult⟩
  | ofProduct t ih =>
    obtain ⟨state, hrun, hdelivers⟩ := ih s hs.1 asked
    exact ⟨state, hrun, hdelivers.imp_right .inr⟩
  | sum l op hop r ihl ihr =>
    obtain ⟨unsettled, hrun, hleft⟩ := ihl s hs asked
    have hidle : ∀ v, Idle true (await (push s v) op) := fun v => idle_await (by simp [hop])
    obtain ⟨state, hrun', hstate⟩ :=
      run_operation (delivers_reduce hleft hs.2) (fun v => ihr (await (push s v) op) (hidle v)) asked
    have hoperator : unsettled.bind (Stacks.operator op) =
        (unsettled.bind (Stacks.reduce false)).bind fun s => .ok (await s op) := by
      cases unsettled with
      | ok s => exact operator_of_additive hop s
      | error e => rfl
    refine ⟨state, ?_, ?_⟩
    · rw [Tree.tokens, Machine.run_append, hrun, run_operator, hoperator]
      exact hrun'
    · rcases hstate with ⟨v, w, rfl, hresult⟩ | ⟨e, rfl, hresult⟩
      · exact .inr (.inl ⟨v, op, w, hop, rfl, hresult⟩)
      · exact .inr (.inr ⟨e, rfl, hresult⟩)

/-! ## Whole expressions -/

theorem hasImpliedMultiplication_of_isChain {ts : List Token} (h : ts.IsChain Fits) :
    hasImpliedMultiplication ts = false := by
  fun_induction hasImpliedMultiplication ts with
  | case1 digits ts => cases (List.isChain_cons_cons.1 h).1
  | case2 t ts _ ih => exact ih h.tail
  | case3 => rfl

/-- The tokens of a tree pass what is checked before the pass. -/
theorem precheck_tokens {level : Level} (t : Tree level) : precheck t.tokens = .ok () := by
  have hcount : t.tokens.count .left = t.tokens.count .right := by
    have hdepth := depth_tokens t
    rw [depth] at hdepth
    omega
  rw [precheck, if_neg (fun h => h hcount),
    hasImpliedMultiplication_of_isChain (isChain_tokens t)]
  rfl

/-- At the end the last operation of a sum is carried out. -/
theorem map_toInt_result (h : Stands { operands := [], pending := [] } state result) :
    (state.bind Stacks.result).map Int64.toInt = result := by
  rcases h with ⟨v, rfl, rfl⟩ | ⟨l, op, r, _, rfl, rfl⟩ | ⟨e, rfl, rfl⟩
  · rfl
  · exact map_toInt_applyOperator op l r
  · rfl

theorem checked_ne_malformed (n : Int) (cause : SyntaxError) :
    checked n ≠ .error (.malformed cause) := by
  unfold checked
  split <;> simp

theorem exact_ne_malformed (op : Operator) (a b : Int) (cause : SyntaxError) :
    exact op a b ≠ .error (.malformed cause) := by
  cases op with
  | add => exact checked_ne_malformed _ cause
  | sub => exact checked_ne_malformed _ cause
  | mul => exact checked_ne_malformed _ cause
  | div =>
    by_cases hb : b = 0
    · simp [exact, hb]
    · rw [exact, if_neg hb]
      exact checked_ne_malformed _ cause

theorem combine_ne_malformed {l r : Outcome} {cause : SyntaxError}
    (hl : l.result ≠ .error (.malformed cause)) (hr : r.result ≠ .error (.malformed cause)) :
    (l.combine op r).result ≠ .error (.malformed cause) := by
  unfold Outcome.combine
  split
  · next e h => exact h ▸ hl
  · next a e _ h => exact h ▸ hr
  · exact exact_ne_malformed op _ _ cause

/-- A tree has a value, or arithmetic fails, or a variable has no value. -/
theorem evaluate_ne_malformed {level : Level} (t : Tree level) (cause : SyntaxError) :
    (t.evaluate lookup).result ≠ .error (.malformed cause) := by
  induction t with
  | number digits =>
    simp only [Tree.evaluate]
    exact checked_ne_malformed _ cause
  | var name =>
    rw [Tree.evaluate, Outcome.ask]
    cases lookup name <;> simp
  | paren t ih => exact ih
  | ofAtom t ih => exact ih
  | product l op _ r ihl ihr => exact combine_ne_malformed ihl ihr
  | ofProduct t ih => exact ih
  | sum l op _ r ihl ihr => exact combine_ne_malformed ihl ihr

/-- The pass over the tokens of a sum yields the value of the tree, or its failure, and asks for the
names that the tree asks for. -/
theorem ofTokens_tokens (lookup : Lookup) (t : Tree .sum) :
    (ofTokens lookup t.tokens).result.map Int64.toInt = (t.evaluate lookup).result ∧
      (ofTokens lookup t.tokens).asked = (t.evaluate lookup).asked := by
  have hready : Ready { operands := [], pending := [] } .sum := by simp [Ready, Idle]
  obtain ⟨state, hrun, hstands⟩ := run_tokens lookup t _ hready []
  have htokens : ofTokens lookup t.tokens =
      { result := state.bind Stacks.result, asked := (t.evaluate lookup).asked } := by
    simp only [ofTokens, precheck_tokens, Machine.start, hrun, Machine.finish, List.append_nil,
      List.reverse_reverse]
  rw [htokens]
  exact ⟨map_toInt_result hstands, rfl⟩

/-- The pass over the tokens of a sum never finds them malformed. -/
theorem ofTokens_ne_malformed (lookup : Lookup) (t : Tree .sum) (cause : SyntaxError) :
    (ofTokens lookup t.tokens).result ≠ .error (.malformed cause) := by
  intro hcause
  have hresult := (ofTokens_tokens lookup t).1
  rw [hcause] at hresult
  exact evaluate_ne_malformed t cause hresult.symm

/-- An expression is evaluated as its parse tree says. The check of a formula accepts the lists of
tokens that have a tree, and each has one only. -/
theorem ofText_eq_evaluate {text : String} {ts : List Token} (hscan : Token.scan text = .ok ts) :
    (Formula.check ts = .ok () ↔ ∃ t : Tree .sum, t.tokens = ts) ∧
    ∀ t : Tree .sum, t.tokens = ts →
      (∀ t' : Tree .sum, t'.tokens = ts → t' = t) ∧
      ∀ lookup : Lookup,
        (Evaluation.ofText lookup text).result.map Int64.toInt = (t.evaluate lookup).result ∧
        (Evaluation.ofText lookup text).asked = (t.evaluate lookup).asked ∧
        ∀ cause, (Evaluation.ofText lookup text).result ≠ .error (.malformed cause) := by
  refine ⟨check_eq_ok_iff_tree, ?_⟩
  rintro t rfl
  refine ⟨fun t' h => tokens_injective t' t h, fun lookup => ?_⟩
  have htext : Evaluation.ofText lookup text = ofTokens lookup t.tokens := by rw [ofText, hscan]
  obtain ⟨hresult, hasked⟩ := ofTokens_tokens lookup t
  rw [htext]
  exact ⟨hresult, hasked, ofTokens_ne_malformed lookup t⟩

theorem ofText_eq_evaluate_difference :
    Token.scan "7 - 2 * (A1 - 4)" =
        .ok [.number "7", .operator .sub, .number "2", .operator .mul, .left, .var "A1",
          .operator .sub, .number "4", .right] ∧
      (Evaluation.ofText (fun _ => .ok 1) "7 - 2 * (A1 - 4)").result.map Int64.toInt = .ok 13 ∧
      (Evaluation.ofText (fun _ => .ok 1) "7 - 2 * (A1 - 4)").asked = ["A1"] := by
  have hscan : Token.scan "7 - 2 * (A1 - 4)" =
      .ok [.number "7", .operator .sub, .number "2", .operator .mul, .left, .var "A1",
        .operator .sub, .number "4", .right] := rfl
  have htree := (ofText_eq_evaluate hscan).2
    (.sum (.ofProduct (.ofAtom (.number "7"))) .sub rfl
      (.product (.ofAtom (.number "2")) .mul rfl
        (.paren (.sum (.ofProduct (.ofAtom (.var "A1"))) .sub rfl (.ofAtom (.number "4"))))))
    rfl
  obtain ⟨hresult, hasked, _⟩ := htree.2 fun _ => .ok 1
  exact ⟨hscan, hresult, hasked⟩

end Worksheet.Expression
