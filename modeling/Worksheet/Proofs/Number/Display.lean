import Mathlib.Algebra.Order.Field.Basic
import Worksheet.Proofs.Number.Numeral
import Worksheet.Proofs.Number.Rounding

/-!
What a cell shows for a number is its exact value, rounded once.

The digits that are shown are those of the multiple of a power of ten which is nearest to the exact
value, the even one of two that are equally near (`nearestMultiple_fixed`). A whole number below
`10 ^ 15` is shown without places, and then nothing is rounded; every other finite number has all the
places that are asked for, or no text at all if these are more than `maxPlaces` (`display_rounded`).
The whole numbers from `10 ^ 15` on are thus shown with zeros behind a point (`display_whole`).
-/

namespace Worksheet

/-- Of the multiples of `10 ^ (-places)`, the one with this coefficient is nearest to `q`; if another
one is as near, then the coefficient is even. -/
structure NearestMultiple (q : Rat) (places coefficient : Nat) : Prop where
  le : ∀ k : Int, |q - coefficient / 10 ^ places| ≤ |q - k / 10 ^ places|
  even : ∀ k : Int, k ≠ coefficient →
    |q - coefficient / 10 ^ places| = |q - k / 10 ^ places| → coefficient % 2 = 0

/-- What is nearest among the natural numbers is nearest among the multiples, if all are divided
alike: a negative multiple is no nearer than its opposite. -/
theorem nearestMultiple_of_nearestEven {q : Rat} (hq : 0 ≤ q) {places coefficient : Nat}
    (h : NearestEven (fun k : Nat => (k : Rat)) (q * 10 ^ places) coefficient) :
    NearestMultiple q places coefficient := by
  have hten : (0 : Rat) < 10 ^ places := by positivity
  have hnonneg : 0 ≤ q * 10 ^ places := mul_nonneg hq hten.le
  have hscale : ∀ a : Rat, |q - a / 10 ^ places| = |q * 10 ^ places - a| / 10 ^ places := by
    intro a
    rw [← abs_of_pos hten, ← abs_div, abs_of_pos hten, sub_div, mul_div_cancel_right₀ _ hten.ne']
  have habs : ∀ k : Int, |q * 10 ^ places - k.natAbs| ≤ |q * 10 ^ places - k| := by
    intro k
    have hle := abs_abs_sub_abs_le (q * 10 ^ places) k
    rwa [abs_of_nonneg hnonneg, ← Int.cast_abs, Int.abs_eq_natAbs, Int.cast_natCast] at hle
  refine ⟨fun k => ?_, fun k hk heq => ?_⟩
  · rw [hscale, hscale, div_le_div_iff_of_pos_right hten]
    exact (h.le k.natAbs).trans (habs k)
  · rw [hscale, hscale, div_left_inj' hten.ne'] at heq
    by_cases hopposite : k.natAbs = coefficient
    · -- as near as its own opposite, and so zero
      have hk' : (k : Rat) = -coefficient := by
        have : k = -coefficient := by omega
        rw [this, Int.cast_neg, Int.cast_natCast]
      have hzero := h.le 0
      have hnonneg' : (0 : Rat) ≤ coefficient := Nat.cast_nonneg _
      rw [heq, hk', Nat.cast_zero, abs_of_nonneg (by linarith), abs_of_nonneg (by linarith)] at hzero
      have : (coefficient : Rat) ≤ 0 := by linarith
      rw [Nat.cast_nonpos.1 this]
    · exact h.even k.natAbs hopposite (le_antisymm (h.le k.natAbs) (heq ▸ habs k))

namespace Binary64

variable {x : Binary64}

/-! ## Rounding to places -/

theorem nearestEven_roundHalfEven (num : Nat) {den : Nat} (hden : 0 < den) :
    NearestEven (fun k : Nat => (k : Rat)) (num / den) (roundHalfEven num den) := by
  have hmono : StrictMono fun k : Nat => (k : Rat) := Nat.strictMono_cast
  have hden' : (0 : Rat) < den := Nat.cast_pos.2 hden
  have hdiv := Nat.div_add_mod num den
  have hmod := Nat.mod_lt num hden
  have hlow : ((num / den : Nat) : Rat) ≤ num / den := by
    rw [le_div_iff₀ hden']
    exact_mod_cast Nat.div_mul_le_self num den
  have hhigh : (num / den : Rat) ≤ (num / den + 1 : Nat) := by
    rw [div_le_iff₀ hden']
    have : num ≤ (num / den + 1) * den := by
      rw [Nat.add_mul, Nat.mul_comm]
      omega
    exact_mod_cast this
  -- the middle between the neighbours, with the denominator cleared
  have hmiddle : ((num / den : Nat) : Rat) + (num / den + 1 : Nat) =
      (2 * (den * (num / den)) + den : Nat) / den := by
    rw [eq_div_iff hden'.ne']
    push_cast
    ring
  have htwice : 2 * (num / den : Rat) = (2 * num : Nat) / den := by
    rw [Nat.cast_mul, Nat.cast_two, mul_div_assoc]
  simp only [roundHalfEven]
  split
  · refine nearestEven_of_lt hmono hlow ?_
    rw [hmiddle, htwice, div_lt_div_iff_of_pos_right hden', Nat.cast_lt]
    omega
  · split
    · refine nearestEven_of_gt hmono hhigh ?_
      rw [hmiddle, htwice, div_lt_div_iff_of_pos_right hden', Nat.cast_lt]
      omega
    · refine nearestEven_of_tie hmono ?_
      rw [hmiddle, htwice, div_left_inj' hden'.ne', Nat.cast_inj]
      omega

/-- The digits that are shown with some places are those of the nearest multiple. -/
theorem nearestMultiple_fixed (x : Binary64) (places : Nat) :
    NearestMultiple (abs x.dyadic) places (roundHalfEven (x.units * 10 ^ places) unitsPerOne) := by
  refine nearestMultiple_of_nearestEven (abs_nonneg _) ?_
  have hvalue : abs x.dyadic * 10 ^ places = (x.units * 10 ^ places : Nat) / unitsPerOne := by
    rw [abs_dyadic, div_mul_eq_mul_div]
    push_cast
    rfl
  rw [hvalue]
  exact nearestEven_roundHalfEven _ unitsPerOne_pos

/-! ## Whole numbers -/

/-- The value is an integer. -/
def IsWhole (x : Binary64) : Prop :=
  ∃ k : Int, x.dyadic = k

theorem whole?_eq_some_iff_abs (hx : x.isFinite) {n : Nat} : x.whole? = some n ↔ abs x.dyadic = n := by
  rw [whole?_eq_some_iff, abs_dyadic, div_eq_iff unitsPerOne_cast_pos.ne']
  exact ⟨fun h => by exact_mod_cast h.2, fun h => ⟨hx, by exact_mod_cast h⟩⟩

theorem isWhole_iff : x.IsWhole ↔ ∃ n : Nat, abs x.dyadic = n := by
  constructor
  · rintro ⟨k, hk⟩
    exact ⟨k.natAbs, by rw [hk, ← Int.cast_abs, Int.abs_eq_natAbs, Int.cast_natCast]⟩
  · rintro ⟨n, hn⟩
    rcases abs_eq_abs.1 (hn.trans (Nat.abs_cast n).symm) with h | h
    · exact ⟨n, by rw [h, Int.cast_natCast]⟩
    · exact ⟨-n, by rw [h, Int.cast_neg, Int.cast_natCast]⟩

/-- The numbers that are shown without places. -/
def IsSmallWhole (x : Binary64) : Prop :=
  x.IsWhole ∧ abs x.dyadic < 10 ^ 15

theorem isSmallWhole_iff : x.IsSmallWhole ↔ ∃ n : Nat, abs x.dyadic = n ∧ n < 10 ^ 15 := by
  rw [IsSmallWhole, isWhole_iff]
  constructor
  · rintro ⟨⟨n, hn⟩, hbelow⟩
    rw [hn] at hbelow
    exact ⟨n, hn, by exact_mod_cast hbelow⟩
  · rintro ⟨n, hn, hbelow⟩
    refine ⟨⟨n, hn⟩, ?_⟩
    rw [hn]
    exact_mod_cast hbelow

/-- All numbers but these have the places that are asked for. -/
theorem placesShown_eq (hx : x.isFinite) (decimals : Nat) :
    (x.IsSmallWhole → x.placesShown decimals = 0) ∧
      (¬ x.IsSmallWhole → x.placesShown decimals = decimals) := by
  have hlimit : wholeLimit = 10 ^ 15 := by decide
  unfold placesShown
  rw [hlimit, isSmallWhole_iff]
  cases hwhole : x.whole? with
  | none =>
    refine ⟨fun ⟨n, hn, _⟩ => ?_, fun _ => rfl⟩
    rw [(whole?_eq_some_iff_abs hx).2 hn] at hwhole
    cases hwhole
  | some m =>
    have hm := (whole?_eq_some_iff_abs hx).1 hwhole
    refine ⟨fun ⟨n, hn, hbelow⟩ => ?_, fun h => if_neg fun hbelow => h ⟨m, hm, hbelow⟩⟩
    rw [hm, Nat.cast_inj] at hn
    exact if_pos (hn ▸ hbelow)

/-- A whole number is not changed by being rounded. -/
theorem roundHalfEven_whole {n : Nat} (hn : abs x.dyadic = n) (places : Nat) :
    roundHalfEven (x.units * 10 ^ places) unitsPerOne = n * 10 ^ places := by
  have hunits : x.units = n * unitsPerOne := by
    rw [abs_dyadic, div_eq_iff unitsPerOne_cast_pos.ne'] at hn
    exact_mod_cast hn
  have hone := unitsPerOne_pos
  rw [hunits, Nat.mul_right_comm]
  generalize unitsPerOne = one at hone
  rw [roundHalfEven, Nat.mul_mod_left, Nat.mul_div_cancel _ hone, Nat.mul_zero, if_pos hone]

/-! ## Shown texts -/

theorem display_of_isFinite (hx : x.isFinite) {decimals places : Nat}
    (hplaces : x.placesShown decimals = places) :
    x.display decimals =
      if places ≤ maxPlaces then
        some (String.ofList (withSign x.isNegative (Decimal.positional
          (roundHalfEven (x.units * 10 ^ places) unitsPerOne) places)))
      else none := by
  rw [display, isNaN_of_isFinite hx, isInfinite_of_isFinite hx, if_neg Bool.false_ne_true,
    if_neg Bool.false_ne_true]
  simp only [hplaces, fixed, Nat.pow_eq]

/-- With so many places every number has a text. -/
theorem exists_display (x : Binary64) {decimals : Nat} (h : decimals ≤ maxPlaces) :
    ∃ text, x.display decimals = some text := by
  have hplaces : x.placesShown decimals ≤ maxPlaces := by
    unfold placesShown
    split
    · split
      · exact Nat.zero_le _
      · exact h
    · exact h
  unfold display
  split
  · exact ⟨_, rfl⟩
  · split
    · exact ⟨_, rfl⟩
    · exact ⟨_, if_pos hplaces⟩

/-- The sign stands before the digits of a numeral. -/
theorem head?_withSign {whole fraction : List Char} {coefficient : Nat}
    (h : Decimal.Numeral whole fraction coefficient) (negative : Bool) :
    (withSign negative (Decimal.spell whole fraction)).head? = some '-' ↔ negative := by
  obtain ⟨c, rest, hwhole⟩ := List.exists_cons_of_ne_nil h.ne_nil
  have hdigit : c.isDigit := h.isDigit c (by rw [hwhole]; exact List.mem_cons_self)
  have hhead : (Decimal.spell whole fraction).head? = some c := by
    rw [Decimal.spell, hwhole]
    split <;> rfl
  cases negative with
  | true => exact ⟨fun _ => rfl, fun _ => rfl⟩
  | false =>
    rw [withSign, if_neg Bool.false_ne_true, hhead]
    refine ⟨fun hminus => ?_, fun hsign => absurd hsign Bool.false_ne_true⟩
    rw [Option.some.injEq] at hminus
    rw [hminus] at hdigit
    exact absurd hdigit (by decide)

/-- What the text of a finite number should be: a numeral, after a sign if the sign bit is set. The
numeral of a whole number below `10 ^ 15` is exact and has no point. That of any other number has all
the places asked for, and is that of the nearest multiple, a tie going to the even digit. -/
def ShownAs (x : Binary64) (decimals : Nat) (text : String) : Prop :=
  ∃ whole fraction coefficient,
    text.toList = withSign x.isNegative (Decimal.spell whole fraction) ∧
    (text.toList.head? = some '-' ↔ x.isNegative) ∧
    Decimal.Numeral whole fraction coefficient ∧
    (x.IsSmallWhole → fraction = [] ∧ (coefficient : Rat) = abs x.dyadic) ∧
    (¬ x.IsSmallWhole →
      fraction.length = decimals ∧ NearestMultiple (abs x.dyadic) decimals coefficient)

theorem shownAs_positional (hx : x.isFinite) (decimals : Nat) :
    x.ShownAs decimals (String.ofList (withSign x.isNegative (Decimal.positional
      (roundHalfEven (x.units * 10 ^ x.placesShown decimals) unitsPerOne)
      (x.placesShown decimals)))) := by
  obtain ⟨hsmall, hother⟩ := placesShown_eq hx decimals
  obtain ⟨places, hplaces⟩ : ∃ places, x.placesShown decimals = places := ⟨_, rfl⟩
  rw [hplaces] at hsmall hother ⊢
  obtain ⟨whole, fraction, hspell, hlength, hnumeral⟩ :=
    Decimal.exists_numeral (roundHalfEven (x.units * 10 ^ places) unitsPerOne) places
  rw [ShownAs, String.toList_ofList, hspell]
  refine ⟨whole, fraction, _, rfl, head?_withSign hnumeral _, hnumeral, ?_, ?_⟩
  · intro h
    have hzero : places = 0 := hsmall h
    obtain ⟨n, hn, -⟩ := isSmallWhole_iff.1 h
    rw [hzero] at hlength
    rw [hzero, roundHalfEven_whole hn, Nat.pow_zero, Nat.mul_one, hn]
    exact ⟨List.length_eq_zero_iff.1 hlength, rfl⟩
  · intro h
    obtain rfl := hother h
    exact ⟨hlength, nearestMultiple_fixed x _⟩

/-- A finite number has a text, and the right one, if it is a whole number below `10 ^ 15` or no more
than `maxPlaces` places are asked for. Otherwise it has none. -/
theorem display_rounded (hx : x.isFinite) (decimals : Nat) :
    (x.IsSmallWhole ∨ decimals ≤ maxPlaces →
      ∃ text, x.display decimals = some text ∧ x.ShownAs decimals text) ∧
    (¬ x.IsSmallWhole → maxPlaces < decimals → x.display decimals = none) := by
  obtain ⟨hsmall, hother⟩ := placesShown_eq hx decimals
  refine ⟨fun h => ⟨_, ?_, shownAs_positional hx decimals⟩, fun h hmany => ?_⟩
  · rw [display_of_isFinite hx rfl, if_pos]
    by_cases hcase : x.IsSmallWhole
    · rw [hsmall hcase]
      exact Nat.zero_le _
    · rw [hother hcase]
      exact h.resolve_left hcase
  · rw [display_of_isFinite hx (hother h), if_neg (Nat.not_le_of_lt hmany)]

theorem not_isSmallWhole_of_whole? (hx : x.isFinite) (h : x.whole? = none) : ¬ x.IsSmallWhole := by
  intro hsmall
  obtain ⟨n, hn, -⟩ := isSmallWhole_iff.1 hsmall
  rw [(whole?_eq_some_iff_abs hx).2 hn] at h
  cases h

/-- The tie at the third place of -0.125 goes to the even second place. -/
theorem display_rounded_tie :
    (⟨0xBFC0000000000000⟩ : Binary64).isFinite ∧
    ¬ (⟨0xBFC0000000000000⟩ : Binary64).IsSmallWhole ∧
    (⟨0xBFC0000000000000⟩ : Binary64).display 2 = some "-0.12" ∧
    ∃ whole fraction coefficient,
      "-0.12".toList = '-' :: Decimal.spell whole fraction ∧
      Decimal.Numeral whole fraction coefficient ∧ fraction.length = 2 ∧
      NearestMultiple (abs (⟨0xBFC0000000000000⟩ : Binary64).dyadic) 2 coefficient := by
  have hx : (⟨0xBFC0000000000000⟩ : Binary64).isFinite := by decide +kernel
  have hfraction : ¬ (⟨0xBFC0000000000000⟩ : Binary64).IsSmallWhole :=
    not_isSmallWhole_of_whole? hx (by decide +kernel)
  have hdisplay : (⟨0xBFC0000000000000⟩ : Binary64).display 2 = some "-0.12" := by decide +kernel
  obtain ⟨text, htext, hshown⟩ := (display_rounded hx 2).1 (.inr (by decide))
  rw [hdisplay, Option.some.injEq] at htext
  subst htext
  obtain ⟨whole, fraction, coefficient, hspell, -, hnumeral, -, hrounded⟩ := hshown
  obtain ⟨hlength, hnearest⟩ := hrounded hfraction
  exact ⟨hx, hfraction, hdisplay, whole, fraction, coefficient, hspell, hnumeral, hlength, hnearest⟩

/-- So not every count of places can be asked for: one half has no text with one place too many. -/
theorem not_forall_display_rounded :
    ¬ ∀ (x : Binary64) (decimals : Nat), x.isFinite →
      ∃ text, x.display decimals = some text ∧ x.ShownAs decimals text := by
  intro h
  have hnone : (⟨0x3FE0000000000000⟩ : Binary64).display (maxPlaces + 1) = none := by decide +kernel
  obtain ⟨text, htext, -⟩ := h ⟨0x3FE0000000000000⟩ (maxPlaces + 1) (by decide +kernel)
  rw [hnone] at htext
  cases htext

/-! ## Whole numbers from the limit on -/

/-- A whole number below `10 ^ 15` is shown by its digits alone. From there on it is shown with as
many zeros behind a point as there are places, if these are not too many. -/
theorem display_whole (hx : x.isFinite) {n : Nat} (hn : abs x.dyadic = n) (decimals : Nat) :
    (n < 10 ^ 15 → x.display decimals =
      some (String.ofList (withSign x.isNegative (Text.digits n)))) ∧
    (10 ^ 15 ≤ n → decimals ≤ maxPlaces → x.display decimals =
      some (String.ofList (withSign x.isNegative
        (Decimal.spell (Text.digits n) (List.replicate decimals '0'))))) := by
  obtain ⟨hsmall, hother⟩ := placesShown_eq hx decimals
  constructor
  · intro hbelow
    have hplaces := hsmall (isSmallWhole_iff.2 ⟨n, hn, hbelow⟩)
    rw [display_of_isFinite hx hplaces, if_pos (Nat.zero_le _), roundHalfEven_whole hn, Nat.pow_zero,
      Nat.mul_one, Decimal.positional, if_pos rfl]
  · intro hlimit hmany
    have hlarge : ¬ x.IsSmallWhole := by
      intro h
      obtain ⟨m, hm, hbelow⟩ := isSmallWhole_iff.1 h
      rw [hn, Nat.cast_inj] at hm
      omega
    have hne : n ≠ 0 := by omega
    rw [display_of_isFinite hx (hother hlarge), if_pos hmany, roundHalfEven_whole hn,
      Decimal.positional_mul_pow hne]

/-- The least whole number that is shown with places. -/
def tenPow15 : Binary64 :=
  ⟨0x430C6BF526340000⟩

theorem isFinite_tenPow15 : tenPow15.isFinite := by decide +kernel

theorem abs_dyadic_tenPow15 : abs tenPow15.dyadic = (10 ^ 15 : Nat) :=
  (whole?_eq_some_iff_abs isFinite_tenPow15).1 (by decide +kernel)

/-- The limit itself, and the opposite of the number before it. -/
theorem display_whole_limit :
    tenPow15.isFinite ∧ abs tenPow15.dyadic = (10 ^ 15 : Nat) ∧
      tenPow15.display 2 = some "1000000000000000.00" ∧
    (⟨0xC30C6BF52633FFF8⟩ : Binary64).isFinite ∧
      abs (⟨0xC30C6BF52633FFF8⟩ : Binary64).dyadic = (999999999999999 : Nat) ∧
      (⟨0xC30C6BF52633FFF8⟩ : Binary64).display 2 = some "-999999999999999" := by
  have hx : (⟨0xC30C6BF52633FFF8⟩ : Binary64).isFinite := by decide +kernel
  have hn : abs (⟨0xC30C6BF52633FFF8⟩ : Binary64).dyadic = (999999999999999 : Nat) :=
    (whole?_eq_some_iff_abs hx).1 (by decide +kernel)
  refine ⟨isFinite_tenPow15, abs_dyadic_tenPow15, ?_, hx, hn, ?_⟩
  · rw [(display_whole isFinite_tenPow15 abs_dyadic_tenPow15 2).2 (Nat.le_refl _) (by decide)]
    decide +kernel
  · rw [(display_whole hx hn 2).1 (by decide)]
    decide +kernel

/-- So not every whole number is shown without a point. -/
theorem not_forall_whole_without_point :
    ¬ ∀ (x : Binary64) (decimals : Nat) (text : String), x.isFinite → x.IsWhole →
      x.display decimals = some text → '.' ∉ text.toList := by
  intro h
  have hdisplay : tenPow15.display 2 = some "1000000000000000.00" := by decide +kernel
  exact h tenPow15 2 _ isFinite_tenPow15 (isWhole_iff.2 ⟨_, abs_dyadic_tenPow15⟩) hdisplay (by decide)

end Binary64

end Worksheet
