import Worksheet.Token

/-!
Exact arithmetic on 64-bit integers: a result outside the range is an overflow and never wraps.
-/

namespace Worksheet

/-- Integer arithmetic that has no result. -/
inductive ArithmeticError where
  | divisionByZero
  | overflow
  deriving DecidableEq, Repr

namespace ArithmeticError

def message : ArithmeticError → String
  | divisionByZero => "Division by zero"
  | overflow => "Integer overflow"

end ArithmeticError

/-- Where the 64-bit integers end, `2 ^ 63`: the number itself is out of range, its opposite is the
least in range. -/
def int64End : Int :=
  0x8000000000000000

/-- Is the number in the range of 64 bits with sign? -/
def FitsInt64 (n : Int) : Prop :=
  -int64End ≤ n ∧ n < int64End

instance (n : Int) : Decidable (FitsInt64 n) :=
  inferInstanceAs (Decidable (-int64End ≤ n ∧ n < int64End))

/-- The range is that of the type. -/
theorem fitsInt64_iff {n : Int} :
    FitsInt64 n ↔ Int64.minValue.toInt ≤ n ∧ n ≤ Int64.maxValue.toInt := by
  have hmin : Int64.minValue.toInt = -int64End := rfl
  have hmax : Int64.maxValue.toInt = int64End - 1 := rfl
  rw [FitsInt64, hmin, hmax]
  omega

/-- The 64-bit integer equal to `n`, if `n` is in range. -/
def toInt64? (n : Int) : Option Int64 :=
  if h : Int64.minValue.toInt ≤ n ∧ n ≤ Int64.maxValue.toInt then
    some (Int64.ofIntLE n h.1 h.2)
  else
    none

theorem toInt64?_eq_some_iff {n : Int} {k : Int64} : toInt64? n = some k ↔ k.toInt = n := by
  unfold toInt64?
  constructor
  · intro h
    split at h
    · cases h; exact Int64.toInt_ofIntLE
    · cases h
  · rintro rfl
    rw [dif_pos ⟨k.minValue_le_toInt, k.toInt_le⟩]
    exact congrArg some (Int64.toInt_inj.1 (Int64.toInt_ofIntLE))

theorem fitsInt64_toInt (k : Int64) : FitsInt64 k.toInt :=
  fitsInt64_iff.2 ⟨k.minValue_le_toInt, k.toInt_le⟩

/-- The 64-bit integer equal to `n`, or an overflow. -/
def inRange (n : Int) : Except ArithmeticError Int64 :=
  match toInt64? n with
  | some k => .ok k
  | none => .error .overflow

/-- The exact result of an operation; division truncates toward zero. -/
def Operator.apply (op : Operator) (l r : Int64) : Except ArithmeticError Int64 :=
  match op with
  | .add => inRange (l.toInt + r.toInt)
  | .sub => inRange (l.toInt - r.toInt)
  | .mul => inRange (l.toInt * r.toInt)
  | .div => if r = 0 then .error .divisionByZero else inRange (l.toInt.tdiv r.toInt)

end Worksheet
