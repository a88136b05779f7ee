import Worksheet.Text

/-!
Names of cells: an ASCII letter or `_`, then at least one ASCII letter, digit or `_`. They are kept
in upper case, in lower case, or as they came. Only the ASCII letters have a case here. A change of
case keeps letters letters and leaves everything else as it is.
-/

namespace Worksheet

/-- The case in which names are kept. -/
inductive Casing where
  | upper
  | lower
  | preserve
  deriving DecidableEq, Repr, Inhabited

namespace Casing

open Text

def onChar : Casing → Char → Char
  | upper => Char.toUpper
  | lower => Char.toLower
  | preserve => id

@[simp] theorem isAlpha_onChar (casing : Casing) (c : Char) :
    (casing.onChar c).isAlpha = c.isAlpha := by
  rw [Bool.eq_iff_iff]
  cases casing with
  | upper => simp only [onChar, isAlpha_iff, toNat_toUpper]; split <;> omega
  | lower => simp only [onChar, isAlpha_iff, toNat_toLower]; split <;> omega
  | preserve => rfl

@[simp] theorem isDigit_onChar (casing : Casing) (c : Char) :
    (casing.onChar c).isDigit = c.isDigit := by
  rw [Bool.eq_iff_iff]
  cases casing with
  | upper => simp only [onChar, isDigit_iff, toNat_toUpper]; split <;> omega
  | lower => simp only [onChar, isDigit_iff, toNat_toLower]; split <;> omega
  | preserve => rfl

/-- The text with every ASCII letter brought into this case. -/
def apply (casing : Casing) (s : String) : String :=
  s.map casing.onChar

@[simp] theorem toList_apply (casing : Casing) (s : String) :
    (casing.apply s).toList = s.toList.map casing.onChar :=
  String.toList_map

@[simp] theorem apply_preserve (s : String) : preserve.apply s = s := by
  rw [← String.toList_inj, toList_apply]
  exact List.map_id s.toList

end Casing

namespace Name

def startsName (c : Char) : Bool :=
  c.isAlpha || c == '_'

def continuesName (c : Char) : Bool :=
  c.isAlphanum || c == '_'

/-- Is the text a name that a cell can have? -/
def isValid (s : String) : Bool :=
  match s.toList with
  | c :: d :: rest => startsName c && (d :: rest).all continuesName
  | _ => false

/-- The name in the given case, if it is one that a cell can have. -/
def canonical? (casing : Casing) (s : String) : Option String :=
  if isValid s then some (casing.apply s) else none

end Name

end Worksheet
