import Mathlib
import Worksheet.Proofs.Document.Run
import Worksheet.Proofs.Formula.Evaluation
import Worksheet.Proofs.Formula.Origin
import Worksheet.Proofs.Number.Exact
import Worksheet.Proofs.Number.Text
import Worksheet.Proofs.Sheet.Circular

/-!
Errors as values: which of them a formula cell can have, and where they go.

A formula that a document keeps is well formed, so that its cell has an integer as value, or failed
arithmetic, or a variable without a value (`Value.ofFormula_cases`), and never shows that the
formula is malformed (`formula_values_run`).

An integer is a value without any error behind it: all that the formula refers to, directly or
through other formulas, can be reckoned with (`sound_of_upstream`), since the evaluation has found a
value for each variable and all values that are kept are up to date. In `upstream_run` this is said
of documents as they come to be, together with the reverse: whatever cannot be reckoned with makes
an error of every formula that depends on it.
-/

namespace Worksheet

/-! ## Values -/

/-- A formula can reckon with the content and its value: there is something, it is no text and no
error, and a number is whole and in the range of 64 bits. -/
structure Sound (c : Content) (v : Value) : Prop where
  not_empty : v ≠ .empty
  not_text : ∀ s, c ≠ .text s
  not_error : ∀ e, v ≠ .error e
  isInt64 : ∀ x, c = .number x → x.IsInt64

/-- Each way in which a content and its value are of no use to a formula. -/
inductive Unsound : Content → Value → Prop
  | empty (c : Content) : Unsound c .empty
  | text (s : String) (v : Value) : Unsound (.text s) v
  | error (c : Content) (e : EvalError) : Unsound c (.error e)
  | notFinite {x : Binary64} (h : x.isFinite = false) (v : Value) : Unsound (.number x) v
  | fractional {x : Binary64} (h : ∀ k : Int, x.toRat ≠ k) (v : Value) : Unsound (.number x) v
  | outOfRange {x : Binary64} (h : x.toRat < -int64End ∨ int64End ≤ x.toRat) (v : Value) :
      Unsound (.number x) v

theorem Sound.not_unsound {c : Content} {v : Value} (h : Sound c v) : ¬ Unsound c v := by
  intro hbad
  cases hbad with
  | empty c => exact h.not_empty rfl
  | text s v => exact h.not_text s rfl
  | error c e => exact h.not_error e rfl
  | notFinite hx v =>
    rw [(h.isInt64 _ rfl).1] at hx
    cases hx
  | fractional hx v =>
    obtain ⟨_, k, hk, _⟩ := h.isInt64 _ rfl
    exact hx k hk
  | outOfRange hx v =>
    obtain ⟨_, k, hk, hlow, hhigh⟩ := h.isInt64 _ rfl
    rw [hk] at hx
    rcases hx with hx | hx
    · have : k < -int64End := by exact_mod_cast hx
      omega
    · have : int64End ≤ k := by exact_mod_cast hx
      omega

namespace Value

variable {values : String → Value}

/-- The value of a formula cell. -/
theorem ofFormula_cases (values : String → Value) (f : Formula) :
    (∃ k, Value.ofContent values (.formula f) = .integer k) ∨
    (∃ e, Value.ofContent values (.formula f) = .error (.arithmetic e)) ∨
    ∃ name reason, Value.ofContent values (.formula f) = .error (.unresolved name reason) := by
  have hformed := f.evaluate_ne_malformed fun name => (values name).resolve
  simp only [ofContent]
  cases hresult : (f.evaluate fun name => (values name).resolve).result with
  | ok k => exact .inl ⟨k, rfl⟩
  | error e =>
    cases e with
    | malformed cause => exact absurd hresult (hformed cause)
    | arithmetic e => exact .inr (.inl ⟨e, rfl⟩)
    | unresolved name reason => exact .inr (.inr ⟨name, reason, rfl⟩)

/-- Only a formula has an error as value, and its form is never the cause. -/
theorem ofContent_ne_malformed (values : String → Value) (c : Content) (cause : SyntaxError) :
    Value.ofContent values c ≠ .error (.malformed cause) := by
  cases c with
  | number x => simp [ofContent]
  | text s =>
    rw [ofContent]
    split <;> simp
  | formula f =>
    rcases ofFormula_cases values f with ⟨k, h⟩ | ⟨e, h⟩ | ⟨name, reason, h⟩ <;> rw [h] <;> simp

/-- A formula that has an integer as value has found one for each of its variables. -/
theorem resolved_of_ofFormula {f : Formula} {k : Int64}
    (h : Value.ofContent values (.formula f) = .integer k) {name : String}
    (hname : name ∈ f.references) : ∃ v, (values name).resolve = .ok v := by
  simp only [ofContent] at h
  cases hresult : (f.evaluate fun name => (values name).resolve).result with
  | ok k => exact Formula.resolved_of_evaluate hresult hname
  | error e =>
    rw [hresult] at h
    cases h

/-- A variable alone has the value that its cell has for a formula. -/
theorem ofContent_ofVariable {name : String} (hname : (Token.var name).WellFormed) {k : Int64}
    (hk : (values name).resolve = .ok k) :
    Value.ofContent values (.formula (.ofVariable name hname)) = .integer k := by
  have hcheck : Formula.check [.var name] = .ok () := rfl
  have hevaluate : ((Formula.ofVariable name hname).evaluate fun u => (values u).resolve).result =
      .ok k := by
    rw [Formula.evaluate_eq_ofTokens, Formula.ofVariable, Evaluation.ofTokens_of_check hcheck]
    simp only [Evaluation.Machine.run, List.foldl_cons, List.foldl_nil, Evaluation.Machine.start,
      Evaluation.Machine.step, Evaluation.Machine.ask, hk]
    rfl
  rw [ofContent, hevaluate]

/-- What a formula sees as an integer is sound. -/
theorem sound_of_resolve {c : Content} {k : Int64}
    (h : (Value.ofContent values c).resolve = .ok k) : Sound c (Value.ofContent values c) := by
  cases c with
  | number x =>
    simp only [ofContent, resolve] at h
    split at h
    · next k' hk =>
      refine ⟨by simp [ofContent], by simp, by simp [ofContent], fun y hy => ?_⟩
      cases hy
      exact Binary64.isInt64_of_toInt64? hk
    · cases h
  | text s =>
    rw [ofContent] at h
    split at h <;> cases h
  | formula f =>
    rcases ofFormula_cases values f with ⟨k', hf⟩ | ⟨e, hf⟩ | ⟨name, reason, hf⟩
    · rw [hf]
      exact ⟨by simp, by simp, by simp, by simp⟩
    · rw [hf] at h
      cases h
    · rw [hf] at h
      cases h

theorem hash_not_mem_toString (i : Int) : '#' ∉ (toString i).toList := by
  have hdigits : ∀ n : Nat, '#' ∉ n.repr.toList := by
    intro n h
    rw [Nat.toList_repr] at h
    exact absurd (Text.isDigit_of_mem_digits h) (by decide)
  cases i with
  | ofNat n => exact hdigits n
  | negSucc n =>
    show '#' ∉ ("-" ++ n.succ.repr).toList
    rw [String.toList_append, List.mem_append]
    exact fun h => h.elim (by decide) (hdigits n.succ)

/-- A formula cell shows something, and this is not the code for a malformed formula. -/
theorem exists_display_ofFormula (values : String → Value) (f : Formula) (decimals : Nat) :
    ∃ s, (Value.ofContent values (.formula f)).display decimals = some s ∧ s ≠ "#ERR!" := by
  rcases ofFormula_cases values f with ⟨k, hf⟩ | ⟨e, hf⟩ | ⟨name, reason, hf⟩
  · refine ⟨toString k.toInt, by rw [hf, display], fun h => ?_⟩
    have hhash := hash_not_mem_toString k.toInt
    rw [h] at hhash
    exact hhash (by decide)
  · refine ⟨errorCode (.arithmetic e), by rw [hf, display], ?_⟩
    cases e <;> decide
  · exact ⟨errorCode (.unresolved name reason), by rw [hf, display], by rw [errorCode]; decide⟩

end Value

namespace Document

variable {d : Document} {name u : String} {f : Formula} {c : Content}

/-! ## What a formula depends on -/

/-- What a formula refers to can be asked for by this name. -/
theorem content_of_mem_references (hd : d.Current) (hf : d.content name = .ok (.formula f))
    (hu : u ∈ f.references) : d.content u = .ok (d.sheet.contentAt u) := by
  obtain ⟨_, hcontent⟩ := content_eq_ok_iff.1 hf
  have hrefers : d.sheet.RefersTo u (d.sheet.casing.apply name) := by
    rw [Sheet.RefersTo, hcontent, Content.mem_references]
    exact ⟨f, rfl, hu⟩
  obtain ⟨hvalid, hcase⟩ := (Sheet.canonical_of_refersTo hd.consistent hrefers).1
  rw [content_of_isValid d hvalid, hcase]

theorem valueAt_of_mem_references (hd : d.Current) (hf : d.content name = .ok (.formula f))
    (hu : u ∈ f.references) (hc : d.content u = .ok c) :
    d.valueAt u = Value.ofContent d.valueAt c := by
  rw [content_of_mem_references hd hf hu, Except.ok.injEq] at hc
  rw [hd.upToDate u, hc]

theorem sound_of_mem_references (hd : d.Current) (hf : d.content name = .ok (.formula f))
    {k : Int64} (hk : d.value name = .ok (.integer k)) (hu : u ∈ f.references)
    (hc : d.content u = .ok c) : Sound c (Value.ofContent d.valueAt c) := by
  have hvalue := hd.value_of_content hf
  rw [hk, Except.ok.injEq] at hvalue
  obtain ⟨v, hv⟩ := Value.resolved_of_ofFormula hvalue.symm hu
  rw [valueAt_of_mem_references hd hf hu hc] at hv
  exact Value.sound_of_resolve hv

theorem value_ofVariable (hd : d.Current) {hu : (Token.var u).WellFormed}
    (hf : d.content name = .ok (.formula (.ofVariable u hu))) (hc : d.content u = .ok c)
    {k : Int64} (hk : (Value.ofContent d.valueAt c).resolve = .ok k) :
    d.value name = .ok (.integer k) := by
  have hmem : u ∈ (Formula.ofVariable u hu).references :=
    Formula.mem_references.2 List.mem_cons_self
  rw [← valueAt_of_mem_references hd hf hmem hc] at hk
  rw [hd.value_of_content hf, Value.ofContent_ofVariable hu hk]

/-- The formula of the second cell refers to the first cell, directly or through formulas of other
cells. -/
inductive Upstream (d : Document) (u : String) : String → Prop
  | direct {name : String} {f : Formula} (hf : d.content name = .ok (.formula f))
      (hu : u ∈ f.references) : Upstream d u name
  | through {v name : String} {f : Formula} (hf : d.content name = .ok (.formula f))
      (hv : v ∈ f.references) (hu : Upstream d u v) : Upstream d u name

theorem Upstream.exists_formula (h : d.Upstream u name) :
    ∃ f, d.content name = .ok (.formula f) := by
  cases h with
  | direct hf _ => exact ⟨_, hf⟩
  | through hf _ _ => exact ⟨_, hf⟩

theorem Upstream.content (h : d.Upstream u name) (hd : d.Current) :
    d.content u = .ok (d.sheet.contentAt u) := by
  induction h with
  | direct hf hu => exact content_of_mem_references hd hf hu
  | through _ _ _ ih => exact ih

/-- A formula cell has an integer or an error as value. -/
theorem value_of_formula (hd : d.Current) (hf : d.content name = .ok (.formula f)) :
    (∃ k, d.value name = .ok (.integer k)) ∨ ∃ e, d.value name = .ok (.error e) := by
  rw [hd.value_of_content hf]
  rcases Value.ofFormula_cases d.valueAt f with ⟨k, h⟩ | ⟨e, h⟩ | ⟨v, reason, h⟩
  · exact .inl ⟨k, congrArg Except.ok h⟩
  · exact .inr ⟨_, congrArg Except.ok h⟩
  · exact .inr ⟨_, congrArg Except.ok h⟩

/-- Behind an integer all is sound. -/
theorem sound_of_upstream (hd : d.Current) (h : d.Upstream u name) (hc : d.content u = .ok c)
    {k : Int64} (hk : d.value name = .ok (.integer k)) :
    Sound c (Value.ofContent d.valueAt c) := by
  induction h generalizing k with
  | direct hf hu => exact sound_of_mem_references hd hf hk hu hc
  | through hf hv hu ih =>
    -- the cell between is a formula and sound, so that its value is an integer
    obtain ⟨g, hg⟩ := hu.exists_formula
    rcases value_of_formula hd hg with ⟨k', hk'⟩ | ⟨e, he⟩
    · exact ih hk'
    · have hsound := sound_of_mem_references hd hf hk hv hg
      rw [hd.value_of_content hg, Except.ok.injEq] at he
      exact absurd he (hsound.not_error e)

/-! ## Documents as they come to be -/

/-- However a document has come to be, no value that it keeps says that a formula is malformed. The
value of a formula cell is an integer, failed arithmetic, or a variable without a value, and what it
shows is not the code of a malformed formula. This is so because of the formulas, whatever their
origin: evaluating their texts never fails for their form. -/
theorem formula_values_run (settings : Settings) (actions : List Action) :
    (∀ (o : Formula.Origin) p, o.parts = .ok p → ∀ lookup cause,
      (Evaluation.ofText lookup p.text).result ≠ .error (.malformed cause)) ∧
    (∀ (cell : String) v, (run settings actions).values[cell]? = some v →
      ∀ cause, v ≠ .error (.malformed cause)) ∧
    ∀ name f, (run settings actions).content name = .ok (.formula f) →
      (∃ v, (run settings actions).value name = .ok v ∧
        ((∃ k, v = .integer k) ∨ (∃ e, v = .error (.arithmetic e)) ∨
          ∃ u reason, v = .error (.unresolved u reason))) ∧
      ∃ s, (run settings actions).display name = .ok (some s) ∧ s ≠ "#ERR!" := by
  have hd : (run settings actions).Current := current_run settings actions
  refine ⟨fun o p hp lookup => Formula.ofText_ne_malformed_of_origin lookup hp,
    fun cell v hv cause => ?_, fun name f hf => ⟨?_, ?_⟩⟩
  · rw [← valueAt_of_getElem? hv, hd.upToDate cell]
    exact Value.ofContent_ne_malformed _ _ cause
  · exact ⟨_, hd.value_of_content hf, Value.ofFormula_cases _ f⟩
  · obtain ⟨s, hs, hne⟩ := Value.exists_display_ofFormula (run settings actions).valueAt f
      (run settings actions).settings.decimals
    refine ⟨s, ?_, hne⟩
    rw [display, hd.value_of_content hf, ← hs]
    rfl

/-- A formula that refers to a cell without anything in it. -/
def dangling : List Action := [.content .sorted "b1" (.formula (.ofVariable "a1" (Eq.refl true)))]

theorem formula_values_run_dangling :
    (∃ p, Formula.lowered.parts = .ok p ∧
      ∀ cause, (Evaluation.ofText (fun _ => .error "") p.text).result ≠
        .error (.malformed cause)) ∧
    (run {} dangling).values["B1"]? = some (.error (.unresolved "A1" "cell is empty")) ∧
      (∀ cause, Value.error (.unresolved "A1" "cell is empty") ≠ .error (.malformed cause)) ∧
    (run {} dangling).content "B1" = .ok (.formula (.ofVariable "A1" (by decide))) ∧
      (run {} dangling).display "B1" = .ok (some "#REF!") ∧
      ∃ v, (run {} dangling).value "B1" = .ok v ∧
        ((∃ k, v = .integer k) ∨ (∃ e, v = .error (.arithmetic e)) ∨
          ∃ u reason, v = .error (.unresolved u reason)) := by
  have hvalue : (run {} dangling).values["B1"]? =
      some (.error (.unresolved "A1" "cell is empty")) := by cbv
  have hcontent : (run {} dangling).content "B1" =
      .ok (.formula (.ofVariable "A1" (by decide))) := by cbv
  obtain ⟨p, hp⟩ : ∃ p, Formula.lowered.parts = .ok p := ⟨_, rfl⟩
  obtain ⟨htexts, hvalues, hcells⟩ := formula_values_run {} dangling
  exact ⟨⟨p, hp, htexts _ p hp _⟩, hvalue, hvalues "B1" _ hvalue, hcontent, by cbv,
    (hcells "B1" _ hcontent).1⟩

/-- However a document has come to be, whatever a formula depends on is a cell that can be asked
for. It is sound if the value of the formula is an integer, and if it is not, then the value of the
formula is an error. -/
theorem upstream_run (settings : Settings) (actions : List Action) {u name : String}
    (h : (run settings actions).Upstream u name) :
    ∃ c v, (run settings actions).content u = .ok c ∧ (run settings actions).value u = .ok v ∧
      (∀ k, (run settings actions).value name = .ok (.integer k) → Sound c v) ∧
      (Unsound c v → ∃ e, (run settings actions).value name = .ok (.error e)) := by
  have hd : (run settings actions).Current := current_run settings actions
  have hc := h.content hd
  refine ⟨_, _, hc, hd.value_of_content hc, fun k hk => sound_of_upstream hd h hc hk, ?_⟩
  intro hbad
  obtain ⟨f, hf⟩ := h.exists_formula
  rcases value_of_formula hd hf with ⟨k, hk⟩ | herror
  · exact absurd hbad (sound_of_upstream hd h hc hk).not_unsound
  · exact herror

/-- The number 4 and the text "4", each behind a chain of two formulas. -/
def twoChains : List Action :=
  [.content .sorted "A1" (.number ⟨0x4010000000000000⟩),
    .content .sorted "B1" (.formula (.ofVariable "A1" (Eq.refl true))),
    .content .sorted "C1" (.formula (.ofVariable "B1" (Eq.refl true))),
    .content .sorted "A2" (.text "4"),
    .content .sorted "B2" (.formula (.ofVariable "A2" (Eq.refl true))),
    .content .sorted "C2" (.formula (.ofVariable "B2" (Eq.refl true)))]

theorem content_twoChains :
    ((run {} twoChains).content "A1" = .ok (.number ⟨0x4010000000000000⟩) ∧
      (run {} twoChains).content "B1" = .ok (.formula (.ofVariable "A1" (by decide))) ∧
      (run {} twoChains).content "C1" = .ok (.formula (.ofVariable "B1" (by decide)))) ∧
    (run {} twoChains).content "A2" = .ok (.text "4") ∧
      (run {} twoChains).content "B2" = .ok (.formula (.ofVariable "A2" (by decide))) ∧
      (run {} twoChains).content "C2" = .ok (.formula (.ofVariable "B2" (by decide))) := by
  -- of the sheet alone: evaluation would not get through the value of the number
  simp only [run, twoChains, List.foldl_cons, List.foldl_nil, perform, content, sheet_set]
  refine ⟨⟨?_, ?_, ?_⟩, ?_, ?_, ?_⟩ <;> cbv

theorem upstream_run_twoChains :
    ((run {} twoChains).Upstream "A1" "C1" ∧
      (run {} twoChains).content "A1" = .ok (.number ⟨0x4010000000000000⟩) ∧
      (run {} twoChains).value "C1" = .ok (.integer 4) ∧
      Sound (.number ⟨0x4010000000000000⟩) (.number ⟨0x4010000000000000⟩)) ∧
    (run {} twoChains).Upstream "A2" "C2" ∧
      (run {} twoChains).content "A2" = .ok (.text "4") ∧
      ∃ e, (run {} twoChains).value "C2" = .ok (.error e) := by
  obtain ⟨⟨hA1, hB1, hC1⟩, hA2, hB2, hC2⟩ := content_twoChains
  have hd : (run {} twoChains).Current := current_run {} twoChains
  have hnumber : (run {} twoChains).Upstream "A1" "C1" :=
    .through hC1 (Formula.mem_references.2 List.mem_cons_self)
      (.direct hB1 (Formula.mem_references.2 List.mem_cons_self))
  have htext : (run {} twoChains).Upstream "A2" "C2" :=
    .through hC2 (Formula.mem_references.2 List.mem_cons_self)
      (.direct hB2 (Formula.mem_references.2 List.mem_cons_self))
  -- the number is an integer for `B1`, and so is `B1` for `C1`
  have hfour : (Value.number ⟨0x4010000000000000⟩).resolve = .ok 4 := by decide +kernel
  have hvalueB := value_ofVariable hd hB1 hA1 hfour
  rw [hd.value_of_content hB1, Except.ok.injEq] at hvalueB
  have hvalueC := value_ofVariable hd hC1 hB1 (k := 4) (by rw [hvalueB, Value.resolve])
  obtain ⟨c, v, hc, hv, hsound, -⟩ := upstream_run {} twoChains hnumber
  obtain ⟨c', v', hc', -, -, herror⟩ := upstream_run {} twoChains htext
  rw [hA1, Except.ok.injEq] at hc
  rw [hA2, Except.ok.injEq] at hc'
  subst hc hc'
  rw [hd.value_of_content hA1, Except.ok.injEq] at hv
  subst hv
  exact ⟨⟨hnumber, hA1, hvalueC, hsound 4 hvalueC⟩, htext, hA2, herror (.text _ _)⟩

end Document

end Worksheet
