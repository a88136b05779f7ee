/-!
Texts as lists of characters: blanks and how a text is trimmed of them, the ASCII letters and
digits, numerals and the natural numbers that they denote.
-/

namespace Worksheet.Text

/-! ## Blanks -/

/-- The 25 characters with the Unicode property `White_Space`. -/
def isBlank (c : Char) : Bool :=
  let n := c.toNat
  (0x09 ≤ n && n ≤ 0x0D) || n == 0x20 || n == 0x85 || n == 0xA0 || n == 0x1680 ||
    (0x2000 ≤ n && n ≤ 0x200A) || n == 0x2028 || n == 0x2029 || n == 0x202F || n == 0x205F ||
    n == 0x3000

/-- The text without the blanks at its two ends. -/
def trim (s : List Char) : List Char :=
  ((s.dropWhile isBlank).reverse.dropWhile isBlank).reverse

/-- A text that neither begins nor ends with a blank is its own trimmed form. -/
theorem trim_eq_self {s : List Char} (hfirst : ∀ c ∈ s.head?, isBlank c = false)
    (hlast : ∀ c ∈ s.getLast?, isBlank c = false) : trim s = s := by
  have drop_eq : ∀ {l : List Char}, (∀ c ∈ l.head?, isBlank c = false) →
      l.dropWhile isBlank = l := by
    intro l h
    cases l with
    | nil => rfl
    | cons c r => simp [h c (by simp)]
  rw [trim, drop_eq hfirst, drop_eq (by simpa using hlast), List.reverse_reverse]

/-- A run of characters of a kind ends where the text goes on with another one. -/
theorem takeWhile_run {f : Char → Bool} {run : List Char} (hrun : ∀ c ∈ run, f c)
    (rest : List Char) (hrest : ∀ c ∈ rest.head?, f c = false) :
    (run ++ rest).takeWhile f = run ∧ (run ++ rest).dropWhile f = rest := by
  rw [List.takeWhile_append_of_pos hrun, List.dropWhile_append_of_pos hrun]
  cases rest with
  | nil => simp
  | cons c rest => simp [hrest c rfl]

/-! ## Numerals -/

/-- A non-empty run of ASCII digits. -/
def isNumeral (s : List Char) : Bool :=
  !s.isEmpty && s.all Char.isDigit

def digitValue (c : Char) : Nat :=
  c.toNat - '0'.toNat

/-- The number that the ASCII digits denote, read from the left; no digits denote 0. -/
def ofDigits (s : List Char) : Nat :=
  s.foldl (fun n c => 10 * n + digitValue c) 0

/-- The decimal digits of a number, without leading zeros; 0 has the one digit `0`. -/
def digits (n : Nat) : List Char :=
  Nat.toDigits 10 n

/-! ## Letters and digits by their numbers -/

theorem isAlpha_iff {c : Char} :
    c.isAlpha ↔ (65 ≤ c.toNat ∧ c.toNat ≤ 90) ∨ (97 ≤ c.toNat ∧ c.toNat ≤ 122) := by
  delta Char.isAlpha Char.isUpper Char.isLower
  simp only [Bool.or_eq_true, Bool.and_eq_true, decide_eq_true_eq, UInt32.le_iff_toNat_le, GE.ge]
  rfl

theorem isDigit_iff {c : Char} : c.isDigit ↔ 48 ≤ c.toNat ∧ c.toNat ≤ 57 := by
  delta Char.isDigit
  simp only [Bool.and_eq_true, decide_eq_true_eq, UInt32.le_iff_toNat_le, GE.ge]
  rfl

theorem toNat_toUpper (c : Char) :
    c.toUpper.toNat = if 97 ≤ c.toNat ∧ c.toNat ≤ 122 then c.toNat - 32 else c.toNat := by
  have lower : (97 ≤ c.toNat ∧ c.toNat ≤ 122) ↔ ('a'.val ≤ c.val ∧ c.val ≤ 'z'.val) := by
    simp only [UInt32.le_iff_toNat_le]; rfl
  unfold Char.toUpper
  split
  · next h =>
    have := lower.2 h
    rw [if_pos this]
    change (c.val + ('A'.val - 'a'.val)).toNat = _
    rw [UInt32.toNat_add]
    change (c.toNat + 4294967264) % 4294967296 = _
    omega
  · next h => rw [if_neg fun h' => h (lower.1 h')]

theorem toNat_toLower (c : Char) :
    c.toLower.toNat = if 65 ≤ c.toNat ∧ c.toNat ≤ 90 then c.toNat + 32 else c.toNat := by
  have upper : (65 ≤ c.toNat ∧ c.toNat ≤ 90) ↔ ('A'.val ≤ c.val ∧ c.val ≤ 'Z'.val) := by
    simp only [UInt32.le_iff_toNat_le]; rfl
  unfold Char.toLower
  split
  · next h =>
    have := upper.2 h
    rw [if_pos this]
    change (c.val + ('a'.val - 'A'.val)).toNat = _
    rw [UInt32.toNat_add]
    change (c.toNat + 32) % 4294967296 = _
    omega
  · next h => rw [if_neg fun h' => h (upper.1 h')]

end Worksheet.Text

/-! ## Cutting at an element

Texts are looked at from mark to mark, and lists of tokens from operator to operator: a place in
such a list lies before the element or behind it.
-/

namespace Worksheet

variable {α : Type} {l s before rest : List α} {c : α}

/-- What stands in front of a place in the list ends before the element, or reaches beyond it. -/
theorem append_cons_split (h : l ++ c :: s = before ++ rest) :
    (∃ m, l = before ++ m ∧ rest = m ++ c :: s) ∨
      ∃ start, before = l ++ c :: start ∧ s = start ++ rest := by
  rcases List.append_eq_append_iff.1 h with ⟨m, hbefore, hrest⟩ | ⟨m, hl, hrest⟩
  · rcases List.cons_eq_append_iff.1 hrest with ⟨rfl, rfl⟩ | ⟨start, rfl, hs⟩
    · exact .inl ⟨[], by simpa using hbefore.symm, rfl⟩
    · exact .inr ⟨start, hbefore, hs⟩
  · exact .inl ⟨m, hl, hrest⟩

end Worksheet
