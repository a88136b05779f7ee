import Mathlib.Algebra.Order.Field.Rat
import Mathlib.Algebra.Order.Ring.Int
import Worksheet.Proofs.Number.Text

/-!
Floating-point numbers that are integers.

The exact value of a finite number is a rational number (`Binary64.toRat`). The number counts as a
64-bit integer just if it is finite and that value is the integer (`Binary64.toInt64?_eq_some_iff`):
nothing is rounded on the way, and nothing is cut off at the ends of the range. A conversion that
cuts off is exact behind a comparison with the two ends (`Binary64.saturated?_eq_toInt64?`), of which
only the lower one is a 64-bit integer.
-/

namespace Worksheet

theorem int64End_eq : int64End = 2 ^ 63 := rfl

namespace Binary64

variable {x : Binary64}

/-- The units of the magnitude with the sign of the number. -/
def signedUnits (x : Binary64) : Int :=
  if x.isNegative then -x.units else x.units

/-- The exact value of a finite number. -/
def toRat (x : Binary64) : Rat :=
  x.signedUnits / unitsPerOne

theorem unitsPerOne_pos : 0 < unitsPerOne := by
  rw [unitsPerOne_eq]
  exact Nat.two_pow_pos exactPlaces

theorem toRat_eq_intCast_iff {k : Int} : x.toRat = k ↔ x.signedUnits = k * unitsPerOne := by
  have hone : (unitsPerOne : Rat) ≠ 0 := Nat.cast_ne_zero.2 unitsPerOne_pos.ne'
  rw [toRat, div_eq_iff hone]
  exact_mod_cast Iff.rfl

theorem whole?_eq_some_iff {n : Nat} :
    x.whole? = some n ↔ x.isFinite ∧ x.units = n * unitsPerOne := by
  have hone := unitsPerOne_pos
  unfold whole?
  generalize unitsPerOne = one at hone
  constructor
  · intro h
    split at h
    · next hwhole =>
      cases h
      rw [Bool.and_eq_true, beq_iff_eq] at hwhole
      exact ⟨hwhole.1, (Nat.div_mul_cancel (Nat.dvd_of_mod_eq_zero hwhole.2)).symm⟩
    · cases h
  · rintro ⟨hfinite, hunits⟩
    rw [hfinite, hunits, Nat.mul_mod_left, Nat.mul_div_cancel n hone]
    rfl

/-- A number counts as an integer if it is finite and its exact value is this integer, and only
then. -/
theorem toInt64?_eq_some_iff {k : Int64} :
    x.toInt64? = some k ↔ x.isFinite ∧ x.toRat = k.toInt := by
  have hone := unitsPerOne_pos
  rw [toRat_eq_intCast_iff, toInt64?, Option.bind_eq_some_iff, signedUnits]
  simp only [whole?_eq_some_iff, Worksheet.toInt64?_eq_some_iff]
  generalize unitsPerOne = one at hone
  constructor
  · rintro ⟨n, ⟨hfinite, hunits⟩, hk⟩
    refine ⟨hfinite, ?_⟩
    rw [hk, hunits]
    split <;> simp
  · rintro ⟨hfinite, hunits⟩
    refine ⟨k.toInt.natAbs, ⟨hfinite, ?_⟩, ?_⟩
    · have habs := congrArg Int.natAbs hunits
      rw [Int.natAbs_mul, Int.natAbs_natCast] at habs
      split at habs <;> simpa using habs
    · have hone' : (0 : Int) < one := by exact_mod_cast hone
      split
      · next hsign =>
        rw [if_pos hsign] at hunits
        have : k.toInt * one ≤ 0 := by omega
        have := nonpos_of_mul_nonpos_left this hone'
        omega
      · next hsign =>
        rw [if_neg hsign] at hunits
        have : 0 ≤ k.toInt * one := by omega
        have := nonneg_of_mul_nonneg_left this hone'
        omega

/-- The number is finite, whole, and in the range of 64 bits with sign. -/
def IsInt64 (x : Binary64) : Prop :=
  x.isFinite ∧ ∃ k : Int, x.toRat = k ∧ FitsInt64 k

theorem isInt64_of_toInt64? {k : Int64} (h : x.toInt64? = some k) : x.IsInt64 := by
  obtain ⟨hfinite, hvalue⟩ := toInt64?_eq_some_iff.1 h
  exact ⟨hfinite, k.toInt, hvalue, fitsInt64_toInt k⟩

/-! ## Conversion by comparisons -/

/-- The order of the numbers; what is no number stands in none. -/
def lt (x y : Binary64) : Bool :=
  !x.isNaN && !y.isNaN && x.signedUnits < y.signedUnits

def le (x y : Binary64) : Bool :=
  !x.isNaN && !y.isNaN && x.signedUnits ≤ y.signedUnits

/-- The end of the 64-bit integers, which they do not reach, or its opposite, which they do. -/
def rangeEnd (negative : Bool) : Binary64 :=
  ⟨if negative then 0xC3E0000000000000 else 0x43E0000000000000⟩

/-- The fraction is cut off, and what is out of range becomes the end of it. -/
def saturated (x : Binary64) : Int64 :=
  Int64.ofIntClamp (x.signedUnits.tdiv unitsPerOne)

/-- The conversion of a finite number without fraction that lies between the two ends. -/
def saturated? (x : Binary64) : Option Int64 :=
  if x.isFinite && x.signedUnits.tmod unitsPerOne == 0 && (rangeEnd true).le x &&
      x.lt (rangeEnd false) then
    some x.saturated
  else
    none

theorem signedUnits_rangeEnd (negative : Bool) :
    (rangeEnd negative).isNaN = false ∧ (rangeEnd negative).signedUnits =
      (if negative then -int64End else int64End) * unitsPerOne := by
  cases negative <;> decide +kernel

theorem inRange_iff (hx : x.isNaN = false) :
    ((rangeEnd true).le x ∧ x.lt (rangeEnd false)) ↔
      -int64End * unitsPerOne ≤ x.signedUnits ∧ x.signedUnits < int64End * unitsPerOne := by
  obtain ⟨hnan, hhigh⟩ := signedUnits_rangeEnd false
  obtain ⟨hnan', hlow⟩ := signedUnits_rangeEnd true
  rw [le, lt, hx, hnan, hnan', hhigh, hlow]
  simp only [Bool.not_false, Bool.true_and, decide_eq_true_eq, if_true, Bool.false_eq_true, if_false]

/-- Comparing with the two ends makes the conversion exact: nothing is cut off. -/
theorem saturated?_eq_toInt64? (x : Binary64) : x.saturated? = x.toInt64? := by
  have hone : (0 : Int) < unitsPerOne := Int.natCast_pos.2 unitsPerOne_pos
  refine Option.ext fun k => ?_
  rw [toInt64?_eq_some_iff, toRat_eq_intCast_iff, saturated?, Option.ite_none_right_eq_some,
    Option.some.injEq, Bool.and_eq_true, Bool.and_eq_true, Bool.and_eq_true, beq_iff_eq, saturated]
  constructor
  · rintro ⟨⟨⟨⟨hfinite, hwhole⟩, hlow⟩, hhigh⟩, hk⟩
    obtain ⟨hlow, hhigh⟩ := (inRange_iff (isNaN_of_isFinite hfinite)).1 ⟨hlow, hhigh⟩
    generalize (unitsPerOne : Int) = one at *
    have hvalue : x.signedUnits.tdiv one * one = x.signedUnits :=
      Int.tdiv_mul_cancel (Int.dvd_of_tmod_eq_zero hwhole)
    rw [← hvalue] at hlow hhigh
    have hlow' := le_of_mul_le_mul_right hlow hone
    have hhigh' := lt_of_mul_lt_mul_right hhigh hone.le
    have hclamp : (Int64.ofIntClamp (x.signedUnits.tdiv one)).toInt = x.signedUnits.tdiv one :=
      Int64.toInt_ofIntClamp hlow' (Int.le_of_lt_add_one hhigh')
    exact ⟨hfinite, by rw [← hk, hclamp, hvalue]⟩
  · rintro ⟨hfinite, hvalue⟩
    have hrange := (inRange_iff (isNaN_of_isFinite hfinite)).2
    have hlow := k.minValue_le_toInt
    have hhigh := k.toInt_le
    rw [hvalue] at hrange ⊢
    generalize (unitsPerOne : Int) = one at *
    obtain ⟨hle, hlt⟩ := hrange ⟨mul_le_mul_of_nonneg_right hlow hone.le,
      mul_lt_mul_of_pos_right (Int.lt_add_one_of_le hhigh) hone⟩
    refine ⟨⟨⟨⟨hfinite, Int.mul_tmod_left _ _⟩, hle⟩, hlt⟩, ?_⟩
    rw [Int.mul_tdiv_cancel _ hone.ne', Int64.ofIntClamp_toInt]

end Binary64

end Worksheet
