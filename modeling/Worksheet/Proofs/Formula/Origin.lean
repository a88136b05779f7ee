import Worksheet.Proofs.Formula.Case
import Worksheet.Proofs.Formula.Parse

/-!
Formulas as they come to be: read from a text in some case, typed by a user or read back from the
text that was kept, and then brought into any cases one after the other.

Whatever its origin, a formula is read back from its text (`restored_of_origin`), so that the text
alone determines it and its references are the variables of the text. Nothing of this needs the
tokens to be kept: a text and a set of names that are built side by side, and change case each on
its own, are always the text and the references of the formula (`parts_eq_formula`).
-/

namespace Worksheet.Formula

open Token (scan)

/-! ## Text and references apart -/

/-- The text of a formula, and apart from it the names that it refers to. -/
@[ext] structure Parts where
  text : String
  references : Std.ExtTreeSet String

namespace Parts

def empty : Parts :=
  { text := "", references := ∅ }

/-- Puts one more token to the text, and a variable to the references, in the given case. -/
def push (casing : Casing) (p : Parts) : Token → Parts
  | .var name =>
    { text := p.text ++ casing.apply name
      references := p.references.insert (casing.apply name) }
  | t => { p with text := p.text ++ t.text }

/-- Reads both parts from a text, token by token. -/
def parse (casing : Casing) (s : String) : Except SyntaxError Parts := do
  let ts ← scan s
  check ts
  return ts.foldl (push casing) empty

/-- Both parts in the given case: the text letter by letter, the references one by one. -/
def recase (casing : Casing) (p : Parts) : Parts where
  text := casing.apply p.text
  references := Std.ExtTreeSet.ofList (p.references.toList.map casing.apply)

end Parts

def parts (f : Formula) : Parts where
  text := f.text
  references := f.references

variable {casing : Casing} {s : String} {f : Formula} {p : Parts} {ts : List Token}

theorem text_push (t : Token) : (p.push casing t).text = p.text ++ (t.recase casing).text := by
  cases t <;> rfl

theorem mem_references_push {t : Token} {name : String} :
    name ∈ (p.push casing t).references ↔
      name ∈ p.references ∨ t.recase casing = .var name := by
  cases t with
  | var v =>
    rw [Parts.push, Std.ExtTreeSet.mem_insert, Std.LawfulEqOrd.compare_eq_iff_eq, Token.recase,
      Token.var.injEq, or_comm]
  | number _ | operator _ | left | right => simp [Parts.push, Token.recase]

theorem toList_text_foldl_push :
    (ts.foldl (Parts.push casing) p).text.toList =
      p.text.toList ++ (ts.map (Token.recase casing)).flatMap fun t => t.text.toList := by
  induction ts generalizing p with
  | nil => simp
  | cons t ts ih =>
    rw [List.foldl_cons, ih, text_push, String.toList_append, List.map_cons, List.flatMap_cons,
      List.append_assoc]

theorem mem_references_foldl_push {name : String} :
    name ∈ (ts.foldl (Parts.push casing) p).references ↔
      name ∈ p.references ∨ .var name ∈ ts.map (Token.recase casing) := by
  induction ts generalizing p with
  | nil => simp
  | cons t ts ih =>
    rw [List.foldl_cons, ih, mem_references_push, List.map_cons, List.mem_cons, or_assoc, eq_comm]

/-- The tokens of a text, pushed one after the other, make the parts of its formula. -/
theorem foldl_push_eq_parts (h : f.tokens = ts.map (Token.recase casing)) :
    ts.foldl (Parts.push casing) .empty = f.parts := by
  ext1
  · rw [← String.toList_inj, toList_text_foldl_push, parts, toList_text, h]
    rfl
  · refine Std.ExtTreeSet.ext_mem fun name => ?_
    rw [mem_references_foldl_push, parts, mem_references, h]
    simp [Parts.empty]

theorem parse_parts (casing : Casing) (s : String) :
    Parts.parse casing s = (parse casing s).map parts := by
  cases hparse : parse casing s with
  | ok f =>
    obtain ⟨ts, hscan, hcheck, htokens⟩ := parse_eq_ok_iff.1 hparse
    rw [Parts.parse, hscan]
    show (check ts).bind _ = _
    rw [hcheck]
    exact congrArg Except.ok (foldl_push_eq_parts htokens)
  | error e =>
    rw [parse_eq_error_iff] at hparse
    rw [Parts.parse]
    cases hscan : scan s with
    | error e' =>
      rw [hscan] at hparse
      exact congrArg Except.error (Except.error.inj hparse)
    | ok ts =>
      rw [hscan] at hparse
      show (check ts).bind _ = _
      rw [show check ts = .error e from hparse]
      rfl

theorem recase_parts (casing : Casing) (f : Formula) :
    f.parts.recase casing = (f.recase casing).parts := by
  ext1
  · exact (text_recase casing f).symm
  · refine Std.ExtTreeSet.ext_mem fun name => ?_
    show name ∈ Std.ExtTreeSet.ofList (f.references.toList.map casing.apply) ↔
      name ∈ (f.recase casing).references
    rw [mem_references_recase, Std.ExtTreeSet.mem_ofList, List.contains_iff_mem, List.mem_map]
    simp only [Std.ExtTreeSet.mem_toList]

/-! ## Origins -/

/-- How a formula has come to be. -/
inductive Origin where
  | parse (casing : Casing) (s : String)
  | ofString (s : String)
  | decode (s : String)
  | recase (casing : Casing) (o : Origin)

namespace Origin

/-- The case that was asked for last. -/
def last : Origin → Casing
  | parse casing _ | recase casing _ => casing
  | ofString _ => .upper
  | decode _ => .preserve

def formula : Origin → Except SyntaxError Formula
  | parse casing s => Formula.parse casing s
  | ofString s => Formula.ofString s
  | decode s => Formula.decode s
  | recase casing o => o.formula.map (Formula.recase casing)

/-- The same on the two parts. -/
def parts : Origin → Except SyntaxError Parts
  | parse casing s => Parts.parse casing s
  | ofString s => Parts.parse .upper s
  | decode s => Parts.parse .preserve s
  | recase casing o => o.parts.map (Parts.recase casing)

end Origin

theorem parts_eq_formula (o : Origin) : o.parts = o.formula.map Formula.parts := by
  induction o with
  | parse casing s => exact parse_parts casing s
  | ofString s => exact parse_parts .upper s
  | decode s => exact parse_parts .preserve s
  | recase casing o ih =>
    rw [Origin.parts, Origin.formula, ih]
    cases o.formula with
    | error e => rfl
    | ok f => exact congrArg Except.ok (recase_parts casing f)

theorem exists_formula_of_parts {o : Origin} {p : Parts} (h : o.parts = .ok p) :
    ∃ f, o.formula = .ok f ∧ p = f.parts := by
  rw [parts_eq_formula] at h
  cases hformula : o.formula with
  | error e =>
    rw [hformula] at h
    cases h
  | ok f =>
    rw [hformula] at h
    exact ⟨f, rfl, (Except.ok.inj h).symm⟩

theorem recase_of_parse (h : parse casing s = .ok f) : f.recase casing = f := by
  obtain ⟨ts, -, -, htokens⟩ := parse_eq_ok_iff.1 h
  ext1
  simp [recase, htokens, Token.recase_recase, Function.comp_def]

/-- A formula is in the case that was asked for last. -/
theorem recase_last {o : Origin} (h : o.formula = .ok f) : f.recase o.last = f := by
  cases o with
  | parse casing s => exact recase_of_parse h
  | ofString s => exact recase_of_parse h
  | decode s => exact recase_of_parse h
  | recase casing o =>
    cases hf : o.formula with
    | error e =>
      rw [Origin.formula, hf] at h
      cases h
    | ok g =>
      rw [Origin.formula, hf] at h
      cases h
      exact recase_recase casing g

theorem recase_preserve (f : Formula) : f.recase .preserve = f := by
  have hsame : ∀ t : Token, t.recase .preserve = t := fun t => by
    cases t <;> simp [Token.recase]
  ext1
  exact (List.map_congr_left fun t _ => hsame t).trans (List.map_id f.tokens)

/-- Whatever its origin, a formula is the same as its text: it is read back from the text that is
kept, and from the text in the case that was asked for last; it refers to the variables of the text;
and it differs from every formula with another text. Text and references are the same when they are
kept apart. -/
theorem restored_of_origin (o : Origin) :
    o.parts = o.formula.map Formula.parts ∧
    ∀ f, o.formula = .ok f →
      decode f.encode = .ok f ∧
      (∃ ts, scan f.text = .ok ts ∧ ∀ name, name ∈ f.references ↔ .var name ∈ ts) ∧
      (∀ (o' : Origin) f', o'.formula = .ok f' → (f = f' ↔ f.text = f'.text)) ∧
      parse o.last f.text = .ok f := by
  refine ⟨parts_eq_formula o, fun f hf => ⟨?_, ?_, fun o' f' _ => ?_, ?_⟩⟩
  · rw [decode, encode, parse_text, recase_preserve]
  · exact ⟨f.tokens, scan_text f, fun name => mem_references⟩
  · exact ⟨fun h => by rw [h], eq_of_text⟩
  · rw [parse_text, recase_last hf]

/-- Two spellings of one name, read as they are and then brought into lower case. -/
def lowered : Origin :=
  .recase .lower (.parse .preserve " (Ab1 + 7)* aB1")

theorem restored_of_origin_lowered :
    ∃ f, lowered.formula = .ok f ∧ f.text = "(ab1+7)*ab1" ∧
      (∀ name, name ∈ f.references ↔ name = "ab1") ∧
      decode "(ab1+7)*ab1" = .ok f ∧ parse .lower "(ab1+7)*ab1" = .ok f := by
  obtain ⟨f, hf, htext⟩ : ∃ f, lowered.formula = .ok f ∧ f.text = "(ab1+7)*ab1" :=
    ⟨_, rfl, by decide +kernel⟩
  obtain ⟨hdecode, ⟨ts, hscan, hrefs⟩, -, hparse⟩ := (restored_of_origin lowered).2 f hf
  rw [encode, htext] at hdecode
  rw [htext] at hparse hscan
  have htokens : ts = [.left, .var "ab1", .operator .add, .number "7", .right, .operator .mul,
      .var "ab1"] := (Except.ok.inj hscan).symm
  subst htokens
  exact ⟨f, hf, htext, fun name => by simp [hrefs], hdecode, hparse⟩

end Worksheet.Formula
