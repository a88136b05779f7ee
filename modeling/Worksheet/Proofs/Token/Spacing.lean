import Mathlib.Data.List.Chain
import Worksheet.Text
import Worksheet.Token.Scan

/-!
Texts that consist of the texts of tokens, with blanks before, between and behind them.

`Token.Spaced ts s` says that `s` is such a text for the tokens `ts`. If the tokens are spelled as
they should be and no two operands stand side by side, the scan of such a text finds exactly these
tokens (`scan_of_spaced`): no two texts glued together are read as one token, and none is split.
-/

namespace Worksheet

/-! ## Blanks at the ends of a text -/

namespace Text

def IsBlanks (s : List Char) : Prop :=
  ∀ c ∈ s, isBlank c

theorem dropWhile_blanks_append {blanks s : List Char} (h : IsBlanks blanks) :
    (blanks ++ s).dropWhile isBlank = s.dropWhile isBlank :=
  List.dropWhile_append_of_pos h

theorem trim_blanks {blanks : List Char} (h : IsBlanks blanks) : trim blanks = [] := by
  have := dropWhile_blanks_append (s := []) h
  rw [List.append_nil] at this
  rw [trim, this]
  rfl

theorem dropWhile_of_not_blank {s : List Char} (h : ∀ c ∈ s, isBlank c = false) :
    s.dropWhile isBlank = s := by
  cases s with
  | nil => rfl
  | cons c s => simp [h c List.mem_cons_self]

/-- Trimming takes off the blanks around a word and nothing else. -/
theorem trim_word {left word right : List Char} (hleft : IsBlanks left) (hne : word ≠ [])
    (hword : ∀ c ∈ word, isBlank c = false) (hright : IsBlanks right) :
    trim (left ++ (word ++ right)) = word := by
  have hfirst : (word ++ right).dropWhile isBlank = word ++ right := by
    cases word with
    | nil => exact absurd rfl hne
    | cons c word => simp [hword c List.mem_cons_self]
  rw [trim, dropWhile_blanks_append hleft, hfirst, List.reverse_append,
    dropWhile_blanks_append fun c hc => hright c (List.mem_reverse.1 hc),
    dropWhile_of_not_blank fun c hc => hword c (List.mem_reverse.1 hc), List.reverse_reverse]

theorem not_blank_of_alphanum {c : Char} (h : c.isAlpha ∨ c.isDigit) : isBlank c = false := by
  rw [isAlpha_iff, isDigit_iff] at h
  have hrange : 48 ≤ c.toNat ∧ c.toNat ≤ 122 := by omega
  have h9 : ¬ (0x09 ≤ c.toNat ∧ c.toNat ≤ 0x0D) := by omega
  have h2000 : ¬ (0x2000 ≤ c.toNat ∧ c.toNat ≤ 0x200A) := by omega
  simp only [isBlank, Bool.or_eq_false_iff, Bool.and_eq_false_iff, decide_eq_false_iff_not,
    beq_eq_false_iff_ne, ne_eq]
  omega

end Text

namespace Token

/-! ## The characters of tokens -/

theorem mark?_of_alphanum {c : Char} (h : c.isAlpha ∨ c.isDigit) : mark? c = none := by
  unfold mark?
  split <;> first | rfl | (revert h; decide)

/-- The characters of a numeral or of a variable. -/
theorem alphanum_of_operand {t : Token} (ht : t.WellFormed) (hop : t.isOperand) :
    t.text.toList ≠ [] ∧ ∀ c ∈ t.text.toList, c.isAlpha ∨ c.isDigit := by
  cases t with
  | number digits =>
    simp only [WellFormed, Text.isNumeral, Bool.and_eq_true, Bool.not_eq_true',
      List.isEmpty_eq_false_iff, List.all_eq_true] at ht
    exact ⟨ht.1, fun c hc => .inr (ht.2 c hc)⟩
  | var name =>
    simp only [WellFormed, isVariableText, Text.isNumeral, Bool.and_eq_true, Bool.not_eq_true',
      List.isEmpty_eq_false_iff, List.all_eq_true] at ht
    obtain ⟨hletters, _, hdigits⟩ := ht
    have hsplit := List.takeWhile_append_dropWhile (p := Char.isAlpha) (l := name.toList)
    refine ⟨fun hnil => hletters (by rw [show name.toList = [] from hnil]; rfl), fun c hc => ?_⟩
    rw [text, ← hsplit, List.mem_append] at hc
    rcases hc with hc | hc
    · exact .inl (List.all_eq_true.1 List.all_takeWhile c hc)
    · exact .inr (hdigits c hc)
  | operator _ | left | right => cases hop

theorem ofWord_text {t : Token} (ht : t.WellFormed) (hop : t.isOperand) :
    ofWord t.text.toList = .ok [t] := by
  have hne := (alphanum_of_operand ht hop).1
  cases t with
  | number digits =>
    rw [text] at hne
    simp only [WellFormed] at ht
    simp [ofWord, text, List.isEmpty_eq_false_iff.2 hne, ht]
  | var name =>
    rw [text] at hne
    simp only [WellFormed] at ht
    -- a variable begins with a letter, so that it is no numeral
    have hnumeral : Text.isNumeral name.toList = false := by
      cases hl : name.toList with
      | nil => exact absurd hl hne
      | cons c rest =>
        rw [hl] at ht
        cases ha : c.isAlpha with
        | true =>
          have hd : c.isDigit = false := by
            rw [Bool.eq_false_iff]
            intro hd
            rw [Text.isDigit_iff] at hd
            rw [Text.isAlpha_iff] at ha
            omega
          simp [Text.isNumeral, hd]
        | false => simp [isVariableText, ha] at ht
    simp [ofWord, text, List.isEmpty_eq_false_iff.2 hne, hnumeral, ht]
  | operator _ | left | right => cases hop

/-- The text of a token that is no operand is one cutting character. -/
theorem mark_of_not_operand {t : Token} (hop : t.isOperand = false) :
    ∃ c, t.text.toList = [c] ∧ mark? c = some t := by
  cases t with
  | number _ | var _ => cases hop
  | operator op => cases op <;> exact ⟨_, rfl, rfl⟩
  | left | right => exact ⟨_, rfl, rfl⟩

/-! ## Pieces -/

theorem ofText_cons (c : Char) (s : List Char) :
    Pieces.ofText (c :: s) = (Pieces.ofText s).cons c := rfl

theorem ofText_mark {c : Char} {t : Token} (hc : mark? c = some t) (s : List Char) :
    Pieces.ofText (c :: s) =
      { first := [], marked := (t, (Pieces.ofText s).first) :: (Pieces.ofText s).marked } := by
  rw [ofText_cons, Pieces.cons, hc]

/-- Characters that do not cut go to the first piece. -/
theorem ofText_append {l : List Char} (hl : ∀ c ∈ l, mark? c = none) (s : List Char) :
    Pieces.ofText (l ++ s) =
      { Pieces.ofText s with first := l ++ (Pieces.ofText s).first } := by
  induction l with
  | nil => rfl
  | cons c l ih =>
    rw [List.cons_append, ofText_cons, ih fun c hc => hl c (List.mem_cons_of_mem _ hc), Pieces.cons,
      hl c List.mem_cons_self]
    rfl

theorem mark?_of_blanks {blanks : List Char} (h : Text.IsBlanks blanks) :
    ∀ c ∈ blanks, mark? c = none := by
  intro c hc
  have hblank := h c hc
  unfold mark?
  split <;> first | rfl | (revert hblank; decide)

/-! ## Spaced tokens -/

/-- The text consists of the texts of the tokens and of blanks around them. -/
inductive Spaced : List Token → List Char → Prop
  | nil {blanks : List Char} (h : Text.IsBlanks blanks) : Spaced [] blanks
  | cons {blanks s : List Char} {ts : List Token} (t : Token) (h : Text.IsBlanks blanks)
      (rest : Spaced ts s) : Spaced (t :: ts) (blanks ++ (t.text.toList ++ s))

/-- No two operands stand side by side. -/
def Separated (ts : List Token) : Prop :=
  ts.IsChain fun prev next => ¬ (prev.isOperand ∧ next.isOperand)

/-- The pieces of a spaced text: what is scanned from them, and that the first one is blank unless
an operand comes first. -/
theorem pieces_of_spaced {ts : List Token} {s : List Char} (h : Spaced ts s)
    (hspelled : ∀ t ∈ ts, t.WellFormed) (hsep : Separated ts) :
    ∃ first rest, ofPiece (Pieces.ofText s).first = .ok first ∧
      (Pieces.ofText s).marked.mapM ofMarked = .ok rest ∧ first ++ rest.flatten = ts ∧
      ((∀ t ∈ ts.head?, t.isOperand = false) → Text.IsBlanks (Pieces.ofText s).first) := by
  induction h with
  | @nil blanks hblanks =>
    have hpieces : Pieces.ofText blanks = { first := blanks, marked := [] } := by
      simpa [Pieces.ofText] using ofText_append (mark?_of_blanks hblanks) []
    refine ⟨[], [], ?_, ?_, rfl, fun _ => ?_⟩
    · rw [hpieces, ofPiece, Text.trim_blanks hblanks]; rfl
    · rw [hpieces]; rfl
    · rw [hpieces]; exact hblanks
  | @cons blanks s ts t hblanks hrest ih =>
    obtain ⟨first, rest, hfirst, hmarked, hts, hblank⟩ :=
      ih (fun u hu => hspelled u (List.mem_cons_of_mem _ hu)) (List.IsChain.tail hsep)
    have hwell : t.WellFormed := hspelled t List.mem_cons_self
    cases hop : t.isOperand with
    | true =>
      obtain ⟨hne, hchars⟩ := alphanum_of_operand hwell hop
      -- the operand ends where its text ends, as the next token is none
      have hnext : Text.IsBlanks (Pieces.ofText s).first := hblank fun u hu => by
        rw [Separated, List.isChain_cons] at hsep
        simpa [hop] using hsep.1 u hu
      have hpieces : Pieces.ofText (blanks ++ (t.text.toList ++ s)) =
          { first := blanks ++ (t.text.toList ++ (Pieces.ofText s).first)
            marked := (Pieces.ofText s).marked } := by
        rw [ofText_append (mark?_of_blanks hblanks),
          ofText_append fun c hc => mark?_of_alphanum (hchars c hc)]
      have hempty : first = [] := by
        rw [ofPiece, Text.trim_blanks hnext] at hfirst
        exact (Except.ok.inj hfirst).symm
      refine ⟨[t], rest, ?_, ?_, ?_, ?_⟩
      · rw [hpieces, ofPiece, Text.trim_word hblanks hne
          (fun c hc => Text.not_blank_of_alphanum (hchars c hc)) hnext]
        exact ofWord_text hwell hop
      · rw [hpieces]; exact hmarked
      · rw [← hts, hempty]; rfl
      · intro hhead
        simpa [hop] using hhead t rfl
    | false =>
      obtain ⟨c, htext, hmark⟩ := mark_of_not_operand hop
      have hpieces : Pieces.ofText (blanks ++ (t.text.toList ++ s)) =
          { first := blanks
            marked := (t, (Pieces.ofText s).first) :: (Pieces.ofText s).marked } := by
        rw [ofText_append (mark?_of_blanks hblanks), htext, List.singleton_append,
          ofText_mark hmark, List.append_nil]
      refine ⟨[], (t :: first) :: rest, ?_, ?_, ?_, ?_⟩
      · rw [hpieces, ofPiece, Text.trim_blanks hblanks]; rfl
      · rw [hpieces, List.mapM_cons, hmarked, ofMarked, hfirst]; rfl
      · rw [← hts]; rfl
      · intro _
        rw [hpieces]; exact hblanks

/-- Scanning finds the tokens that the text is made of. -/
theorem scan_of_spaced {ts : List Token} {s : String} (h : Spaced ts s.toList)
    (hspelled : ∀ t ∈ ts, t.WellFormed) (hsep : Separated ts) : scan s = .ok ts := by
  obtain ⟨first, rest, hfirst, hmarked, hts, _⟩ := pieces_of_spaced h hspelled hsep
  simp only [scan, hfirst, hmarked, bind, Except.bind, pure, Except.pure, hts]

end Token

end Worksheet
