import Mathlib.Tactic.Ring
import Worksheet.Proofs.Number.Exact

/-!
The exact value that the bits of a floating-point number stand for.

Below the sign stand 11 bits of exponent and 52 bits of fraction. The value is the significand times
a power of two (`Binary64.dyadic`): an exponent of 0 makes the fraction the significand, any other
puts a one before it, and the largest exponent stands for infinities and for what is no number. The
magnitudes that the library counts in units are these values (`Binary64.toRat_eq_dyadic`).
-/

namespace Worksheet.Binary64

variable {x : Binary64}

/-- The exponent as it stands in the bits, 1023 above that of the leading bit. -/
def exponentField (x : Binary64) : Nat :=
  x.bits.toNat / fractionCount % 2048

def fractionField (x : Binary64) : Nat :=
  x.bits.toNat % fractionCount

/-- The fraction with the leading bit before it, which only the smallest numbers lack. -/
def significand (x : Binary64) : Nat :=
  if x.exponentField = 0 then x.fractionField else fractionCount + x.fractionField

/-- The value of the bits: the significand with its last bit counting `2 ^ (exponent - 1075)`, where
the exponents 0 and 1 count alike. -/
def dyadic (x : Binary64) : Rat :=
  (if x.isNegative then -1 else 1) * (x.significand * 2 ^ max x.exponentField 1 / 2 ^ 1075)

/-! ## Ranks and fields -/

theorem rank_div (x : Binary64) : x.rank / fractionCount = x.exponentField := by
  unfold rank exponentField signWeight fractionCount
  omega

theorem rank_mod (x : Binary64) : x.rank % fractionCount = x.fractionField := by
  unfold rank fractionField signWeight fractionCount
  omega

/-- The finite numbers are those without the largest exponent. -/
theorem isFinite_iff : x.isFinite ↔ x.exponentField ≠ 2047 := by
  have hdiv := rank_div x
  have hlt : x.exponentField < 2048 := Nat.mod_lt _ (by decide)
  unfold isFinite infinityRank fractionCount at *
  rw [decide_eq_true_iff]
  omega

theorem isInfinite_iff : x.isInfinite ↔ x.exponentField = 2047 ∧ x.fractionField = 0 := by
  have hdiv := rank_div x
  have hmod := rank_mod x
  unfold isInfinite infinityRank fractionCount at *
  rw [beq_iff_eq]
  omega

theorem isNaN_iff : x.isNaN ↔ x.exponentField = 2047 ∧ x.fractionField ≠ 0 := by
  have hdiv := rank_div x
  have hmod := rank_mod x
  have hlt : x.exponentField < 2048 := Nat.mod_lt _ (by decide)
  unfold isNaN infinityRank fractionCount at *
  rw [decide_eq_true_iff]
  omega

/-! ## Values -/

theorem units_eq (x : Binary64) : x.units = x.significand * 2 ^ (max x.exponentField 1 - 1) := by
  simp only [units, unitsOfRank, significand, rank_div, rank_mod, Nat.pow_eq]
  split
  · next hzero => simp [hzero]
  · next hzero =>
    have hmax : max x.exponentField 1 = x.exponentField := by omega
    rw [hmax]

/-- The units count the value of the bits. -/
theorem toRat_eq_dyadic (x : Binary64) : x.toRat = x.dyadic := by
  have hpow : (2 : Rat) ^ max x.exponentField 1 = 2 * 2 ^ (max x.exponentField 1 - 1) := by
    rw [← pow_succ']
    congr 1
    omega
  have hmagnitude : (x.units : Rat) / unitsPerOne =
      x.significand * 2 ^ max x.exponentField 1 / 2 ^ 1075 := by
    have htwo : (2 : Rat) ^ 1075 = 2 * 2 ^ exactPlaces := by
      rw [← pow_succ']
      rfl
    rw [units_eq, unitsPerOne_eq, hpow, htwo]
    push_cast
    rw [mul_left_comm, mul_div_mul_left _ _ two_ne_zero]
  rw [toRat, signedUnits, dyadic, ← hmagnitude]
  split
  · rw [Int.cast_neg, Int.cast_natCast, neg_one_mul, neg_div]
  · rw [Int.cast_natCast, one_mul]

/-- Without the sign the units count the magnitude of the value. -/
theorem abs_dyadic (x : Binary64) : |x.dyadic| = x.units / unitsPerOne := by
  have hnonneg : (0 : Rat) ≤ x.units / unitsPerOne :=
    div_nonneg (Nat.cast_nonneg _) (Nat.cast_nonneg _)
  rw [← toRat_eq_dyadic, toRat, signedUnits]
  split
  · rw [Int.cast_neg, Int.cast_natCast, neg_div, abs_neg, abs_of_nonneg hnonneg]
  · rw [Int.cast_natCast, abs_of_nonneg hnonneg]

/-- The sign bit is the sign of the value. -/
theorem dyadic_eq (x : Binary64) :
    x.dyadic = if x.isNegative then -abs x.dyadic else abs x.dyadic := by
  rw [abs_dyadic, ← toRat_eq_dyadic, toRat, signedUnits]
  split
  · rw [Int.cast_neg, Int.cast_natCast, neg_div]
  · rw [Int.cast_natCast]

end Worksheet.Binary64
