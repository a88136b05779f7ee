import Worksheet.Proofs.Number.Text

/-!
Decimal numerals: digits, perhaps with a point and more digits behind them, and no zeros in front
that could be left out.

Whatever is written with digits around a point is the numeral of its coefficient, with as many digits
behind the point as there are places (`Decimal.exists_numeral`).
-/

namespace Worksheet

namespace Text

/-- Only the digits of zero begin with a zero. -/
theorem head?_digits_ne {n : Nat} (hn : n ≠ 0) : (digits n).head? ≠ some '0' := by
  induction n using Nat.strongRecOn with
  | ind n ih =>
    unfold digits at ih ⊢
    rw [Nat.toDigits_eq_if (by decide)]
    split
    · next hlt =>
      have hchar : ∀ d < 10, d ≠ 0 → Nat.digitChar d ≠ '0' := by decide
      rw [List.head?_cons, ne_eq, Option.some.injEq]
      exact hchar n hlt hn
    · next hge =>
      rw [List.head?_append, Option.or_of_isSome (List.isSome_head?.2 Nat.toDigits_ne_nil)]
      exact ih (n / 10) (by omega) (by omega)

theorem digits_of_leading_zero {n : Nat} (h : (digits n).head? = some '0') : digits n = ['0'] := by
  have hzero : n = 0 := by
    by_contra hn
    exact head?_digits_ne hn h
  rw [hzero]
  rfl

/-- How many digits there are says how large the number is. -/
theorem length_digits_le_iff {n k : Nat} (hk : 0 < k) : (digits n).length ≤ k ↔ n < 10 ^ k :=
  Nat.length_toDigits_le_iff (by decide) hk

/-- Every factor of ten is a zero at the end. -/
theorem digits_mul_pow {n : Nat} (hn : n ≠ 0) (places : Nat) :
    digits (n * 10 ^ places) = digits n ++ List.replicate places '0' := by
  induction places with
  | zero => rw [Nat.pow_zero, Nat.mul_one, List.replicate_zero, List.append_nil]
  | succ places ih =>
    have hpos : 0 < n * 10 ^ places := Nat.mul_pos (Nat.pos_of_ne_zero hn) (Nat.pow_pos (by decide))
    have hten : n * 10 ^ (places + 1) = 10 * (n * 10 ^ places) + 0 := by ring
    have happend : digits (10 * (n * 10 ^ places) + 0) = digits (n * 10 ^ places) ++ digits 0 :=
      (Nat.toDigits_append_toDigits (by decide) hpos (by decide)).symm
    rw [hten, happend, ih, List.append_assoc, List.replicate_succ']
    rfl

end Text

namespace Decimal

/-- Digits before and behind a point that denote `coefficient` if the point is left out. A zero is
in front only where it stands alone. -/
structure Numeral (whole fraction : List Char) (coefficient : Nat) : Prop where
  ne_nil : whole ≠ []
  isDigit : ∀ c ∈ whole ++ fraction, c.isDigit
  leading : whole.head? = some '0' → whole = ['0']
  value : Text.ofDigits (whole ++ fraction) = coefficient

/-- The text of a numeral; there is a point if there is something behind it. -/
def spell (whole fraction : List Char) : List Char :=
  if fraction.isEmpty then whole else whole ++ '.' :: fraction

/-- What stands before the point has no needless zero in front. -/
theorem leading_of_positional {coefficient places : Nat} (hplaces : places ≠ 0)
    {whole fraction : List Char} (htext : positional coefficient places = whole ++ '.' :: fraction)
    (hlength : fraction.length = places) (hzero : whole.head? = some '0') : whole = ['0'] := by
  obtain ⟨padded, hpadded⟩ : ∃ padded, padded =
      List.replicate (places + 1 - (Text.digits coefficient).length) '0' ++ Text.digits coefficient :=
    ⟨_, rfl⟩
  have hlong : places < padded.length := by
    rw [hpadded, List.length_append, List.length_replicate]
    omega
  have hwhole : whole = padded.take (padded.length - places) := by
    simp only [positional, if_neg hplaces, ← hpadded] at htext
    refine (List.append_inj_left' htext ?_).symm
    rw [List.length_cons, List.length_cons, List.length_drop]
    omega
  rcases Nat.lt_or_ge places (Text.digits coefficient).length with hfew | hmany
  · -- no zeros have been put in front
    have hnone : places + 1 - (Text.digits coefficient).length = 0 := by omega
    rw [hnone, List.replicate_zero, List.nil_append] at hpadded
    have hhead : (Text.digits coefficient).head? = some '0' := by
      rw [← hzero, hwhole, List.head?_take, if_neg (by omega), hpadded]
    have hdigits := Text.digits_of_leading_zero hhead
    rw [hdigits, List.length_singleton] at hfew
    omega
  · -- there is one digit before the point
    have hone : whole.length = 1 := by
      rw [hwhole, List.length_take, hpadded, List.length_append, List.length_replicate]
      omega
    obtain ⟨c, hc⟩ := List.length_eq_one_iff.1 hone
    rw [hc, List.head?_cons, Option.some.injEq] at hzero
    rw [hc, hzero]

/-- What is written with digits around a point is the numeral of the coefficient, with all the places
behind the point. -/
theorem exists_numeral (coefficient places : Nat) :
    ∃ whole fraction, positional coefficient places = spell whole fraction ∧
      fraction.length = places ∧ Numeral whole fraction coefficient := by
  by_cases hplaces : places = 0
  · refine ⟨Text.digits coefficient, [], ?_, hplaces.symm, ?_⟩
    · rw [positional, if_pos hplaces]
      rfl
    · refine ⟨List.ne_nil_of_length_pos (Text.length_digits_pos coefficient), ?_,
        Text.digits_of_leading_zero, ?_⟩
      · rw [List.append_nil]
        exact fun c hc => Text.isDigit_of_mem_digits hc
      · rw [List.append_nil]
        exact Text.ofDigits_digits coefficient
  · obtain ⟨whole, fraction, htext, hne, hlength, hdigits, hvalue⟩ :=
      positional_eq coefficient hplaces
    refine ⟨whole, fraction, ?_, hlength, hne, hdigits,
      leading_of_positional hplaces htext hlength, hvalue⟩
    have hempty : fraction.isEmpty = false := by
      rw [List.isEmpty_eq_false_iff]
      rintro rfl
      exact hplaces hlength.symm
    rw [htext, spell, hempty]
    rfl

/-- A whole number is written with zeros in all its places. -/
theorem positional_mul_pow {n : Nat} (hn : n ≠ 0) (places : Nat) :
    positional (n * 10 ^ places) places =
      spell (Text.digits n) (List.replicate places '0') := by
  unfold positional
  rw [Text.digits_mul_pow hn]
  cases places with
  | zero => simp [spell]
  | succ places =>
    have hlength := Text.length_digits_pos n
    have hnone : places + 1 + 1 -
        (Text.digits n ++ List.replicate (places + 1) '0').length = 0 := by
      rw [List.length_append, List.length_replicate]
      omega
    have hcut : (Text.digits n ++ List.replicate (places + 1) '0').length - (places + 1) =
        (Text.digits n).length := by
      rw [List.length_append, List.length_replicate, Nat.add_sub_cancel]
    rw [if_neg (Nat.succ_ne_zero places)]
    dsimp only
    rw [hnone, List.replicate_zero, List.nil_append, hcut, List.take_left, List.drop_left]
    rfl

/-- No zero is left that could be dropped. -/
theorem dropZeros_mod (coefficient places : Nat) (h : (dropZeros coefficient places).2 ≠ 0) :
    (dropZeros coefficient places).1 % 10 ≠ 0 := by
  fun_induction dropZeros coefficient places with
  | case1 => exact absurd rfl h
  | case2 coefficient places hzero ih => exact ih h
  | case3 coefficient places hnonzero => exact hnonzero

end Decimal

end Worksheet
