import Mathlib.Algebra.Order.Field.Power
import Mathlib.Order.Monotone.Basic
import Mathlib.Tactic.Linarith
import Worksheet.Proofs.Number.Dyadic

/-!
Reading a decimal gives the floating-point number nearest to it.

What is nearest is said once for any growing sequence (`NearestEven`): no other value of the sequence
is nearer, and the index is even if one is as near. There is at most one such index
(`NearestEven.unique`), it is found by comparing with the middle between two neighbours
(`nearestEven_of_lt`, `nearestEven_of_gt`, `nearestEven_of_tie`), and whatever lies between the value
and what is rounded to it is rounded to it as well (`NearestEven.between`).

For the magnitudes of floating-point numbers this gives `Decimal.nearestRank_eq_iff`: a decimal is
read as the finite magnitude to which it is nearest. The limits beyond which a decimal is not looked
at more closely lie outside of all that is nearest to a finite magnitude other than zero.
-/

namespace Worksheet

/-! ## Nearest values -/

/-- No value of `g` is nearer to `q` than the one at `i`; if another one is as near, then `i` is
even. -/
structure NearestEven (g : Nat → Rat) (q : Rat) (i : Nat) : Prop where
  le : ∀ j, |q - g i| ≤ |q - g j|
  even : ∀ j, j ≠ i → |q - g i| = |q - g j| → i % 2 = 0

section NearestEven

variable {g : Nat → Rat} {q : Rat} {i j low : Nat}

/-- Seen from between two neighbours, a value of the sequence is at least as far as the neighbour on
its side, and farther if it is another one. -/
theorem far_cases (hg : StrictMono g) (hlow : g low ≤ q) (hhigh : q ≤ g (low + 1)) (j : Nat) :
    j = low ∨ j = low + 1 ∨ q - g low < |q - g j| ∨ g (low + 1) - q < |q - g j| := by
  rcases Nat.lt_trichotomy j low with hj | hj | hj
  · have hlt := hg hj
    rw [abs_of_nonneg (by linarith)]
    exact .inr (.inr (.inl (by linarith)))
  · exact .inl hj
  · rcases Nat.lt_or_ge (low + 1) j with hnext | hnext
    · have hlt := hg hnext
      rw [abs_of_nonpos (by linarith)]
      exact .inr (.inr (.inr (by linarith)))
    · exact .inr (.inl (by omega))

/-- What is nearer than all others is nearest, and there is no tie. -/
theorem nearestEven_of_forall_lt (h : ∀ j, j ≠ i → |q - g i| < |q - g j|) : NearestEven g q i := by
  refine ⟨fun j => ?_, fun j hj heq => absurd heq (h j hj).ne⟩
  by_cases hj : j = i
  · rw [hj]
  · exact (h j hj).le

/-- Below the middle the lower neighbour is the nearest. -/
theorem nearestEven_of_lt (hg : StrictMono g) (hlow : g low ≤ q)
    (hmiddle : 2 * q < g low + g (low + 1)) : NearestEven g q low := by
  have hhigh : q ≤ g (low + 1) := by linarith
  have hdist : |q - g low| = q - g low := abs_of_nonneg (by linarith)
  have hnext : |q - g (low + 1)| = g (low + 1) - q := by
    rw [abs_of_nonpos (by linarith), neg_sub]
  refine nearestEven_of_forall_lt fun j hj => ?_
  rcases far_cases hg hlow hhigh j with h | h | h | h
  · exact absurd h hj
  · rw [h, hdist, hnext]
    linarith
  · linarith
  · linarith

/-- Above the middle the upper neighbour is the nearest. -/
theorem nearestEven_of_gt (hg : StrictMono g) (hhigh : q ≤ g (low + 1))
    (hmiddle : g low + g (low + 1) < 2 * q) : NearestEven g q (low + 1) := by
  have hlow : g low ≤ q := by linarith
  have hdist : |q - g (low + 1)| = g (low + 1) - q := by
    rw [abs_of_nonpos (by linarith), neg_sub]
  have hprevious : |q - g low| = q - g low := abs_of_nonneg (by linarith)
  refine nearestEven_of_forall_lt fun j hj => ?_
  rcases far_cases hg hlow hhigh j with h | h | h | h
  · rw [h, hdist, hprevious]
    linarith
  · exact absurd h hj
  · linarith
  · linarith

/-- In the middle both neighbours are nearest, and the even one is taken. -/
theorem nearestEven_of_tie (hg : StrictMono g) (hmiddle : 2 * q = g low + g (low + 1)) :
    NearestEven g q (low + low % 2) := by
  have hlt := hg (Nat.lt_succ_self low)
  have hlow : g low ≤ q := by linarith
  have hhigh : q ≤ g (low + 1) := by linarith
  have hprevious : |q - g low| = q - g low := abs_of_nonneg (by linarith)
  have hnext : |q - g (low + 1)| = q - g low := by
    rw [abs_of_nonpos (by linarith)]
    linarith
  have hdist : |q - g (low + low % 2)| = q - g low := by
    rcases Nat.mod_two_eq_zero_or_one low with h | h <;> rw [h]
    · exact hprevious
    · exact hnext
  refine ⟨fun j => ?_, fun _ _ _ => by omega⟩
  rw [hdist]
  rcases far_cases hg hlow hhigh j with h | h | h | h
  · rw [h, hprevious]
  · rw [h, hnext]
  · exact h.le
  · linarith

theorem nearestEven_self (hg : StrictMono g) (i : Nat) : NearestEven g (g i) i :=
  nearestEven_of_lt hg le_rfl (by linarith [hg (Nat.lt_succ_self i)])

/-- There is but one nearest value. -/
theorem NearestEven.unique (hg : StrictMono g) (hi : NearestEven g q i) (hj : NearestEven g q j) :
    i = j := by
  have hdist : |q - g i| = |q - g j| := le_antisymm (hi.le j) (hj.le i)
  -- two that are equally near have an even index each, so that there is one between them
  have aux : ∀ {a b : Nat}, a < b → NearestEven g q a → NearestEven g q b → False := by
    intro a b hab ha hb
    have heq : |q - g a| = |q - g b| := le_antisymm (ha.le b) (hb.le a)
    have heven := ha.even b (by omega) heq
    have heven' := hb.even a (by omega) heq.symm
    have hbelow := hg (show a < a + 1 by omega)
    have habove := hg (show a + 1 < b by omega)
    have hbetween := ha.le (a + 1)
    rcases abs_cases (q - g a) with ⟨h1, _⟩ | ⟨h1, _⟩ <;>
      rcases abs_cases (q - g b) with ⟨h2, _⟩ | ⟨h2, _⟩ <;>
      rcases abs_cases (q - g (a + 1)) with ⟨h3, _⟩ | ⟨h3, _⟩ <;> linarith
  rcases Nat.lt_trichotomy i j with h | h | h
  · exact (aux h hi hj).elim
  · exact h
  · exact (aux h hj hi).elim

/-- What lies between the value and what is rounded to it is rounded to it too. -/
theorem NearestEven.between (h : NearestEven g q i) {p : Rat}
    (hp : (q ≤ p ∧ p ≤ g i) ∨ (g i ≤ p ∧ p ≤ q)) : NearestEven g p i := by
  have hsum : |q - g i| = |q - p| + |p - g i| := by
    rcases hp with ⟨h1, h2⟩ | ⟨h1, h2⟩
    · rw [abs_of_nonpos (by linarith), abs_of_nonpos (by linarith), abs_of_nonpos (by linarith)]
      ring
    · rw [abs_of_nonneg (by linarith), abs_of_nonneg (by linarith), abs_of_nonneg (by linarith)]
      ring
  have hvia : ∀ j, |q - g j| ≤ |q - p| + |p - g j| := fun j => abs_sub_le q p (g j)
  refine ⟨fun j => ?_, fun j hj heq => h.even j hj (le_antisymm (h.le j) ?_)⟩
  · have := h.le j
    have := hvia j
    linarith
  · have := hvia j
    linarith

end NearestEven

namespace Binary64

/-! ## Magnitudes -/

/-- The magnitude at a rank. That of infinity is the power of two which would come next. -/
def magnitude (rank : Nat) : Rat :=
  unitsOfRank rank / unitsPerOne

theorem abs_dyadic_eq_magnitude (x : Binary64) : |x.dyadic| = magnitude x.rank :=
  abs_dyadic x

theorem unitsPerOne_cast_pos : (0 : Rat) < unitsPerOne :=
  Nat.cast_pos.2 unitsPerOne_pos

theorem magnitude_strictMono : StrictMono magnitude := by
  refine strictMono_nat_of_lt_succ fun rank => ?_
  exact div_lt_div_of_pos_right (Nat.cast_lt.2 (unitsOfRank_lt_succ rank)) unitsPerOne_cast_pos

theorem magnitude_zero : magnitude 0 = 0 := by
  have hzero : unitsOfRank 0 = 0 := by decide
  rw [magnitude, hzero, Nat.cast_zero, zero_div]

/-- A significand counts its last bit, the one above the lower half of the range included. -/
theorem unitsOfRank_significand {shift significand : Nat} (hle : significand ≤ 2 * fractionCount)
    (hlead : fractionCount ≤ significand ∨ shift = 0) :
    unitsOfRank (shift * fractionCount + significand) = significand * 2 ^ shift := by
  rcases Nat.lt_or_ge significand fractionCount with hsmall | hlarge
  · obtain rfl := hlead.resolve_left (by omega)
    rw [unitsOfRank_eq hsmall, if_pos rfl, Nat.pow_zero, Nat.mul_one]
  · obtain ⟨fraction, rfl⟩ := Nat.exists_eq_add_of_le hlarge
    rcases Nat.lt_or_ge fraction fractionCount with hfraction | hfraction
    · have hrank : shift * fractionCount + (fractionCount + fraction) =
          (shift + 1) * fractionCount + fraction := by ring
      rw [hrank, unitsOfRank_eq hfraction, if_neg (Nat.succ_ne_zero shift), Nat.add_sub_cancel]
    · -- the significand that belongs to the next power of two
      obtain rfl : fraction = fractionCount := by omega
      have hrank : shift * fractionCount + (fractionCount + fractionCount) =
          (shift + 2) * fractionCount + 0 := by ring
      rw [hrank, unitsOfRank_eq (by decide), if_neg (by omega),
        show shift + 2 - 1 = shift + 1 by omega]
      ring

/-- Every rank has a significand. -/
theorem exists_significand (rank : Nat) :
    ∃ shift significand, significand < 2 * fractionCount ∧
      (fractionCount ≤ significand ∨ shift = 0) ∧
      rank = shift * fractionCount + significand := by
  obtain ⟨exponent, fraction, hfraction, rfl⟩ := exists_fields rank
  cases exponent with
  | zero => exact ⟨0, fraction, by omega, .inr rfl, rfl⟩
  | succ shift =>
    exact ⟨shift, fractionCount + fraction, by omega, .inl (Nat.le_add_right _ _), by ring⟩

/-- The distance to the next magnitude is not small beside it. -/
theorem unitsOfRank_succ_le (rank : Nat) :
    unitsOfRank (rank + 1) ≤ 2 ^ 53 * (unitsOfRank (rank + 1) - unitsOfRank rank) := by
  obtain ⟨shift, significand, hlt, hlead, rfl⟩ := exists_significand rank
  have hnext : unitsOfRank (shift * fractionCount + significand + 1) =
      (significand + 1) * 2 ^ shift := by
    rw [Nat.add_assoc]
    exact unitsOfRank_significand hlt (hlead.imp_left Nat.le_succ_of_le)
  rw [hnext, unitsOfRank_significand hlt.le hlead, ← Nat.sub_mul, Nat.add_sub_cancel_left,
    Nat.one_mul]
  exact Nat.mul_le_mul_right _ hlt

/-- What is near enough to a magnitude is rounded to it; 17 digits are enough for that. -/
theorem nearestEven_of_close {rank : Nat} (hrank : rank ≠ 0) {p : Rat}
    (h : |p - magnitude rank| * (2 * 10 ^ 16) ≤ magnitude rank) : NearestEven magnitude p rank := by
  have hgap : ∀ r, magnitude (r + 1) ≤ 2 ^ 53 * (magnitude (r + 1) - magnitude r) := by
    intro r
    rw [magnitude, magnitude, ← sub_div, ← mul_div_assoc,
      div_le_div_iff_of_pos_right unitsPerOne_cast_pos,
      ← Nat.cast_sub (unitsOfRank_lt_succ r).le]
    exact_mod_cast unitsOfRank_succ_le r
  rcases le_total (magnitude rank) p with hp | hp
  · rw [abs_of_nonneg (by linarith)] at h
    refine nearestEven_of_lt magnitude_strictMono hp ?_
    linarith [hgap rank, magnitude_strictMono (Nat.lt_succ_self rank)]
  · obtain ⟨r, rfl⟩ := Nat.exists_eq_succ_of_ne_zero hrank
    rw [abs_of_nonpos (by linarith)] at h
    refine nearestEven_of_gt magnitude_strictMono hp ?_
    linarith [hgap r, magnitude_strictMono (Nat.lt_succ_self r)]

/-- The magnitude at the rank found for a number of units is the last one not above it. -/
theorem floorRank_spec (n : Nat) :
    unitsOfRank (floorRank n) ≤ n ∧ n < unitsOfRank (floorRank n + 1) := by
  have hpos : 0 < 2 ^ (n.log2 - 52) := Nat.two_pow_pos _
  have hlt : n / 2 ^ (n.log2 - 52) < 2 * fractionCount := by
    rw [Nat.div_lt_iff_lt_mul hpos, fractionCount_eq, ← Nat.pow_succ', ← Nat.pow_add]
    exact Nat.lt_of_lt_of_le Nat.lt_log2_self (Nat.pow_le_pow_right (by decide) (by omega))
  have hlead : fractionCount ≤ n / 2 ^ (n.log2 - 52) ∨ n.log2 - 52 = 0 := by
    by_cases hshift : n.log2 - 52 = 0
    · exact .inr hshift
    · refine .inl ((Nat.le_div_iff_mul_le hpos).2 ?_)
      have hne : n ≠ 0 := by
        rintro rfl
        exact hshift (by decide)
      rw [fractionCount_eq, ← Nat.pow_add, show 52 + (n.log2 - 52) = n.log2 by omega]
      exact Nat.log2_self_le hne
  simp only [floorRank, Nat.pow_eq]
  constructor
  · rw [unitsOfRank_significand hlt.le hlead]
    exact Nat.div_mul_le_self _ _
  · rw [Nat.add_assoc, unitsOfRank_significand hlt (hlead.imp_left Nat.le_succ_of_le)]
    rw [Nat.mul_comm]
    exact Nat.lt_mul_div_succ n hpos

/-- A quotient gets the rank of the magnitude nearest to it, or that of infinity if this lies beyond. -/
theorem nearestRank_spec (num : Nat) {den : Nat} (hden : 0 < den) :
    ∃ rank, NearestEven magnitude (num / den / unitsPerOne) rank ∧
      nearestRank num den = min rank infinityRank := by
  obtain ⟨hfloor, hceil⟩ := floorRank_spec (num / den)
  obtain ⟨low, hlowdef⟩ : ∃ low, floorRank (num / den) = low := ⟨_, rfl⟩
  rw [hlowdef] at hfloor hceil
  have hone := unitsPerOne_cast_pos
  have hden' : (0 : Rat) < den := Nat.cast_pos.2 hden
  have hlow : magnitude low ≤ num / den / unitsPerOne := by
    rw [magnitude, div_le_div_iff_of_pos_right hone, le_div_iff₀ hden']
    exact_mod_cast (Nat.le_div_iff_mul_le hden).1 hfloor
  have hhigh : (num / den / unitsPerOne : Rat) ≤ magnitude (low + 1) := by
    rw [magnitude, div_le_div_iff_of_pos_right hone, div_le_iff₀ hden']
    exact_mod_cast ((Nat.div_lt_iff_lt_mul hden).1 hceil).le
  -- the middle between the neighbours, in both readings
  have hmiddle : magnitude low + magnitude (low + 1) =
      (unitsOfRank low + unitsOfRank (low + 1) : Nat) / unitsPerOne := by
    rw [magnitude, magnitude, ← add_div, Nat.cast_add]
  have htwice : 2 * (num / den / unitsPerOne : Rat) = (2 * num : Nat) / den / unitsPerOne := by
    rw [Nat.cast_mul, Nat.cast_two]
    ring
  simp only [nearestRank, hlowdef]
  split
  · next hlt =>
    refine ⟨low, nearestEven_of_lt magnitude_strictMono hlow ?_, rfl⟩
    rw [hmiddle, htwice, div_lt_div_iff_of_pos_right hone, div_lt_iff₀ hden']
    exact_mod_cast hlt
  · split
    · next hgt =>
      refine ⟨low + 1, nearestEven_of_gt magnitude_strictMono hhigh ?_, rfl⟩
      rw [hmiddle, htwice, div_lt_div_iff_of_pos_right hone, lt_div_iff₀ hden']
      exact_mod_cast hgt
    · next hle hge =>
      refine ⟨low + low % 2, nearestEven_of_tie magnitude_strictMono ?_, rfl⟩
      rw [hmiddle, htwice, div_left_inj' hone.ne', div_eq_iff hden'.ne']
      exact_mod_cast Nat.le_antisymm (Nat.le_of_not_lt hge) (Nat.le_of_not_lt hle)

theorem magnitude_infinityRank : magnitude infinityRank = 2 ^ 1024 := by
  have hunits : unitsOfRank infinityRank = 2 ^ 1024 * unitsPerOne := by decide +kernel
  rw [magnitude, hunits, Nat.cast_mul, mul_div_cancel_right₀ _ unitsPerOne_cast_pos.ne', Nat.cast_pow,
    Nat.cast_two]

end Binary64

namespace Decimal

open Binary64

/-- The number that the decimal denotes. -/
def toRat (d : Decimal) : Rat :=
  d.coefficient * 10 ^ d.exponent

theorem toRat_ofPlaces (coefficient places : Nat) :
    (ofPlaces coefficient places).toRat = coefficient / 10 ^ places := by
  rw [toRat, ofPlaces, zpow_neg, zpow_natCast, div_eq_mul_inv]

/-- The limits of what is looked at lie beyond the magnitudes, on either side. -/
theorem two_pow_lt_ten_pow : (2 : Rat) ^ 1075 < 10 ^ 401 := by
  calc (2 : Rat) ^ 1075 < 2 ^ (3 * 401) := pow_lt_pow_right₀ (by norm_num) (by norm_num)
    _ = (2 ^ 3) ^ 401 := pow_mul _ _ _
    _ ≤ 10 ^ 401 := pow_le_pow_left₀ (by norm_num) (by norm_num) _

/-- What is far too large is not nearest to anything finite. -/
theorem infinityRank_le_of_large {d : Decimal} (hcoefficient : d.coefficient ≠ 0)
    (hlarge : 400 < d.exponent) {rank : Nat} (h : NearestEven magnitude d.toRat rank) :
    infinityRank ≤ rank := by
  have hbeyond : magnitude infinityRank ≤ d.toRat := by
    calc magnitude infinityRank = 2 ^ 1024 := magnitude_infinityRank
      _ ≤ 2 ^ 1075 := pow_le_pow_right₀ (by norm_num) (by norm_num)
      _ ≤ 10 ^ (401 : Int) := by
        rw [zpow_ofNat]
        exact two_pow_lt_ten_pow.le
      _ ≤ 10 ^ d.exponent := zpow_le_zpow_right₀ (by norm_num) hlarge
      _ ≤ d.coefficient * 10 ^ d.exponent :=
        le_mul_of_one_le_left (by positivity) (by exact_mod_cast Nat.pos_of_ne_zero hcoefficient)
  by_contra hlt
  have hbelow := magnitude_strictMono (Nat.lt_of_not_le hlt)
  have hle := h.le infinityRank
  rw [abs_of_nonneg (by linarith), abs_of_nonneg (by linarith)] at hle
  linarith

/-- What is far too small is nearest to zero. -/
theorem nearest_zero_of_negligible {d : Decimal}
    (hsmall : d.exponent + d.coefficient.log2 + 1 < -400) : NearestEven magnitude d.toRat 0 := by
  have hnonneg : 0 ≤ d.toRat := by
    rw [toRat]
    positivity
  have hle : d.toRat ≤ 10 ^ (-401 : Int) := by
    calc d.toRat ≤ 10 ^ ((d.coefficient.log2 + 1 : Nat) : Int) * 10 ^ d.exponent := by
          refine mul_le_mul_of_nonneg_right ?_ (by positivity)
          rw [zpow_natCast]
          exact_mod_cast (Nat.lt_log2_self).le.trans (Nat.pow_le_pow_left (by decide) _)
      _ = 10 ^ (((d.coefficient.log2 + 1 : Nat) : Int) + d.exponent) :=
        (zpow_add₀ (by norm_num) _ _).symm
      _ ≤ 10 ^ (-401 : Int) := zpow_le_zpow_right₀ (by norm_num) (by push_cast; omega)
  have hfirst : magnitude 1 = 1 / 2 ^ 1074 := by
    have hunits : unitsOfRank 1 = 1 := by decide
    rw [magnitude, hunits, unitsPerOne_eq, Nat.cast_one, Nat.cast_pow, Nat.cast_two]
    rfl
  refine nearestEven_of_lt magnitude_strictMono ?_ ?_
  · rw [magnitude_zero]
    exact hnonneg
  · rw [magnitude_zero, hfirst, zero_add]
    calc 2 * d.toRat ≤ 2 * 10 ^ (-401 : Int) := by linarith
      _ < 2 * (2 ^ 1075)⁻¹ := by
        rw [zpow_neg, zpow_ofNat]
        exact mul_lt_mul_of_pos_left (inv_strictAnti₀ (by positivity) two_pow_lt_ten_pow) two_pos
      _ = 1 / 2 ^ 1074 := by rw [pow_succ', mul_inv, mul_inv_cancel_left₀ two_ne_zero, one_div]

/-- A decimal gets the rank of the magnitude nearest to it, or that of infinity if this lies
beyond. -/
theorem nearestRank_spec (d : Decimal) :
    ∃ rank, NearestEven magnitude d.toRat rank ∧ d.nearestRank = min rank infinityRank := by
  have hten : (10 : Rat) ^ d.exponent = 10 ^ d.exponent.toNat / 10 ^ (-d.exponent).toNat := by
    rw [← zpow_natCast, ← zpow_natCast, ← zpow_sub₀ (by norm_num)]
    congr 1
    omega
  have hvalue : (d.coefficient * Nat.pow 10 d.exponent.toNat * unitsPerOne : Nat) /
      (Nat.pow 10 (-d.exponent).toNat : Nat) / (unitsPerOne : Rat) = d.toRat := by
    have hone := unitsPerOne_cast_pos.ne'
    rw [toRat, hten, Nat.cast_mul, Nat.cast_mul, div_right_comm, mul_div_cancel_right₀ _ hone,
      mul_div_assoc]
    simp only [Nat.pow_eq, Nat.cast_pow, Nat.cast_ofNat]
  have hden : 0 < Nat.pow 10 (-d.exponent).toNat := Nat.pow_pos (by decide)
  obtain ⟨rank, hnearest, hrank⟩ := Binary64.nearestRank_spec
    (d.coefficient * Nat.pow 10 d.exponent.toNat * unitsPerOne) hden
  rw [hvalue] at hnearest
  refine ⟨rank, hnearest, ?_⟩
  unfold nearestRank
  split
  · next hzero =>
    have hnearest' : NearestEven magnitude d.toRat 0 := by
      rw [toRat, hzero, Nat.cast_zero, zero_mul, ← magnitude_zero]
      exact nearestEven_self magnitude_strictMono 0
    rw [hnearest.unique magnitude_strictMono hnearest', Nat.zero_min]
  · next hcoefficient =>
    split
    · next hlarge =>
      rw [Nat.min_eq_right (infinityRank_le_of_large hcoefficient hlarge hnearest)]
    · split
      · next hsmall =>
        rw [hnearest.unique magnitude_strictMono (nearest_zero_of_negligible hsmall), Nat.zero_min]
      · exact hrank

/-- A decimal is read as the finite magnitude that is nearest to it, and as no other. -/
theorem nearestRank_eq_iff {d : Decimal} {rank : Nat} (hrank : rank < infinityRank) :
    d.nearestRank = rank ↔ NearestEven magnitude d.toRat rank := by
  obtain ⟨nearest, hnearest, heq⟩ := nearestRank_spec d
  constructor
  · intro h
    have : nearest = rank := by omega
    rwa [this] at hnearest
  · intro h
    rw [heq, hnearest.unique magnitude_strictMono h]
    exact Nat.min_eq_left hrank.le

end Decimal

end Worksheet
