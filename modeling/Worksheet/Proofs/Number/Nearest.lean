import Mathlib.Tactic.Ring
import Worksheet.Number.Text

/-!
Rounding changes nothing about a number that is a floating-point number already.

The magnitudes grow with their ranks (`unitsOfRank_lt_succ`), and the rank of a magnitude is found
from its value (`floorRank_unitsOfRank`). So a quotient that equals a magnitude has its rank as the
nearest one (`nearestRank_mul`), and so has a decimal that does (`nearestRank_ofPlaces`), the limits
beyond which a decimal counts as zero or infinite notwithstanding.
-/

namespace Worksheet

namespace Binary64

/-! ## Magnitudes and their ranks -/

theorem fractionCount_eq : fractionCount = 2 ^ 52 := rfl

theorem unitsPerOne_eq : unitsPerOne = 2 ^ exactPlaces := by decide +kernel

/-- The magnitude at the rank with the given fields. -/
theorem unitsOfRank_eq {exponent fraction : Nat} (h : fraction < fractionCount) :
    unitsOfRank (exponent * fractionCount + fraction) =
      if exponent = 0 then fraction else (fractionCount + fraction) * 2 ^ (exponent - 1) := by
  have hdiv : (exponent * fractionCount + fraction) / fractionCount = exponent := by
    unfold fractionCount at h ⊢
    omega
  have hmod : (exponent * fractionCount + fraction) % fractionCount = fraction := by
    unfold fractionCount at h ⊢
    omega
  simp only [unitsOfRank, hdiv, hmod, Nat.pow_eq]

/-- Every rank has its fields. -/
theorem exists_fields (rank : Nat) :
    ∃ exponent fraction, fraction < fractionCount ∧
      rank = exponent * fractionCount + fraction := by
  refine ⟨rank / fractionCount, rank % fractionCount, Nat.mod_lt _ (by decide), ?_⟩
  rw [Nat.mul_comm, Nat.div_add_mod]

/-- The magnitudes grow with their ranks. -/
theorem unitsOfRank_lt_succ (rank : Nat) : unitsOfRank rank < unitsOfRank (rank + 1) := by
  obtain ⟨exponent, fraction, hfraction, rfl⟩ := exists_fields rank
  rw [unitsOfRank_eq hfraction]
  by_cases hlast : fraction + 1 < fractionCount
  · -- the next rank has the same exponent
    rw [Nat.add_assoc, unitsOfRank_eq hlast]
    split
    · omega
    · exact Nat.mul_lt_mul_of_pos_right (by omega) (Nat.two_pow_pos _)
  · -- the next rank is the first with the next exponent
    have hnext : exponent * fractionCount + fraction + 1 = (exponent + 1) * fractionCount + 0 := by
      rw [Nat.add_mul]
      omega
    rw [hnext, unitsOfRank_eq (by decide), if_neg (Nat.succ_ne_zero exponent)]
    split
    · next hzero =>
      subst hzero
      simpa using hfraction
    · next hzero =>
      obtain ⟨e, rfl⟩ := Nat.exists_eq_succ_of_ne_zero hzero
      have hpos : 0 < 2 ^ e := Nat.two_pow_pos e
      calc (fractionCount + fraction) * 2 ^ e
          < (2 * fractionCount) * 2 ^ e := Nat.mul_lt_mul_of_pos_right (by omega) hpos
        _ = (fractionCount + 0) * 2 ^ (e + 1) := by ring

theorem unitsOfRank_pos {rank : Nat} (h : rank ≠ 0) : 0 < unitsOfRank rank := by
  obtain ⟨previous, rfl⟩ := Nat.exists_eq_succ_of_ne_zero h
  exact Nat.lt_of_le_of_lt (Nat.zero_le _) (unitsOfRank_lt_succ previous)

/-- The rank is found from the magnitude. -/
theorem floorRank_unitsOfRank (rank : Nat) : floorRank (unitsOfRank rank) = rank := by
  obtain ⟨exponent, fraction, hfraction, rfl⟩ := exists_fields rank
  rw [unitsOfRank_eq hfraction]
  split
  · next hzero =>
    subst hzero
    have hshift : fraction.log2 - 52 = 0 := by
      have : fraction.log2 < 53 := by
        by_cases hf : fraction = 0
        · subst hf
          decide
        · rw [Nat.log2_lt hf]
          rw [fractionCount_eq] at hfraction
          omega
      omega
    simp [floorRank, hshift]
  · next hzero =>
    obtain ⟨e, rfl⟩ := Nat.exists_eq_succ_of_ne_zero hzero
    rw [Nat.succ_sub_one]
    have hpos : 0 < 2 ^ e := Nat.two_pow_pos e
    have hlog : ((fractionCount + fraction) * 2 ^ e).log2 = 52 + e := by
      rw [Nat.log2_eq_iff (Nat.mul_pos (by unfold fractionCount; omega) hpos).ne']
      rw [fractionCount_eq] at hfraction ⊢
      constructor
      · rw [Nat.pow_add]
        exact Nat.mul_le_mul_right _ (by omega)
      · calc (2 ^ 52 + fraction) * 2 ^ e < 2 ^ 53 * 2 ^ e :=
              Nat.mul_lt_mul_of_pos_right (by omega) hpos
          _ = 2 ^ (52 + e + 1) := by rw [← Nat.pow_add]; congr 1; omega
    have hshift : 52 + e - 52 = e := by omega
    rw [floorRank, hlog, hshift]
    simp only [Nat.pow_eq, Nat.mul_div_cancel _ hpos, Nat.succ_mul]
    omega

/-! ## Rounding what is a magnitude -/

/-- The rank nearest to a quotient that equals a finite magnitude is the rank of this. -/
theorem nearestRank_mul {rank den : Nat} (hrank : rank < infinityRank) (hden : 0 < den) :
    nearestRank (unitsOfRank rank * den) den = rank := by
  have hbelow : 2 * (unitsOfRank rank * den) < (unitsOfRank rank + unitsOfRank (rank + 1)) * den := by
    have hlt := Nat.mul_lt_mul_of_pos_right (unitsOfRank_lt_succ rank) hden
    rw [Nat.add_mul]
    omega
  rw [nearestRank, Nat.mul_div_cancel _ hden, floorRank_unitsOfRank]
  simp only [hbelow, if_true]
  exact Nat.min_eq_left hrank.le

end Binary64

namespace Decimal

open Binary64

/-- A decimal that equals a finite magnitude is not so small that it counts as zero. -/
theorem not_negligible {coefficient places rank : Nat} (hcoefficient : coefficient ≠ 0)
    (h : coefficient * unitsPerOne = unitsOfRank rank * 10 ^ places) :
    ¬ (-(places : Int) + coefficient.log2 + 1 < -400) := by
  have hunits : 1 ≤ unitsOfRank rank := by
    by_contra hzero
    have : unitsOfRank rank = 0 := by omega
    rw [this, Nat.zero_mul, unitsPerOne_eq] at h
    exact (Nat.mul_pos (Nat.pos_of_ne_zero hcoefficient) (Nat.two_pow_pos _)).ne' h
  -- with too many places the magnitude would be below the smallest one
  have hplaces : 2 ^ (3 * places) < 2 ^ (coefficient.log2 + 1 + exactPlaces) := by
    calc 2 ^ (3 * places) = 8 ^ places := by rw [Nat.pow_mul]
      _ ≤ 10 ^ places := Nat.pow_le_pow_left (by decide) places
      _ ≤ unitsOfRank rank * 10 ^ places := Nat.le_mul_of_pos_left _ hunits
      _ = coefficient * 2 ^ exactPlaces := by rw [← h, unitsPerOne_eq]
      _ < 2 ^ (coefficient.log2 + 1) * 2 ^ exactPlaces :=
        Nat.mul_lt_mul_of_pos_right Nat.lt_log2_self (Nat.two_pow_pos _)
      _ = 2 ^ (coefficient.log2 + 1 + exactPlaces) := by rw [← Nat.pow_add]
  have hfew := (Nat.pow_lt_pow_iff_right (by decide)).1 hplaces
  unfold exactPlaces at hfew
  omega

/-- The rank nearest to a decimal that equals a finite magnitude is the rank of this. -/
theorem nearestRank_ofPlaces {coefficient places rank : Nat} (hrank : rank < infinityRank)
    (h : coefficient * unitsPerOne = unitsOfRank rank * 10 ^ places) :
    (ofPlaces coefficient places).nearestRank = rank := by
  have hpow : 0 < 10 ^ places := Nat.pow_pos (by decide)
  unfold nearestRank ofPlaces
  split
  · next hzero =>
    dsimp only at hzero
    by_contra hne
    have := Nat.mul_pos (unitsOfRank_pos (Ne.symm hne)) hpow
    rw [hzero, Nat.zero_mul] at h
    omega
  · next hcoefficient =>
    have hlarge : ¬ (400 < -(places : Int)) := by omega
    have hnegative : (-(places : Int)).toNat = 0 := by omega
    have hplaces : (- -(places : Int)).toNat = places := by omega
    rw [if_neg hlarge, if_neg (not_negligible hcoefficient h)]
    simp only [hnegative, hplaces, Nat.pow_eq, Nat.pow_zero, Nat.mul_one, h]
    exact nearestRank_mul hrank hpow

end Decimal

end Worksheet
