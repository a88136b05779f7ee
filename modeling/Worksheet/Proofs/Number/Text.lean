import Worksheet.Proofs.Number.Nearest
import Worksheet.Text

/-!
What is written for a number is read as the same number.

Digits around a point are read as the coefficient and the places that they were written from
(`parse?_positional`), so only the rank of the decimal matters. The shortest decimal has the rank of
the number: either it has been chosen because it reads back, or it is the exact value
(`readsBack_shortest`). With the sign in front this gives `parse?_toText`, for every number that is
not NaN.
-/

namespace Worksheet

/-! ## Digits -/

namespace Text

theorem isDigit_of_mem_digits {n : Nat} {c : Char} (h : c ∈ digits n) : c.isDigit :=
  Nat.isDigit_of_mem_toDigits (by decide) (by decide) h

theorem ofDigits_digits (n : Nat) : ofDigits (digits n) = n :=
  Nat.ofDigitChars_toDigits (by decide) (by decide)

theorem length_digits_pos (n : Nat) : 0 < (digits n).length :=
  Nat.length_toDigits_pos

/-- Zeros in front change nothing. -/
theorem ofDigits_zeros_append (k : Nat) (s : List Char) :
    ofDigits (List.replicate k '0' ++ s) = ofDigits s := by
  induction k with
  | zero => rfl
  | succ k ih => exact ih

end Text

namespace Decimal

/-! ## Digits around a point -/

/-- Digits alone are read as a whole number. -/
theorem parse?_whole {whole : List Char} (hne : whole ≠ []) (hwhole : ∀ c ∈ whole, c.isDigit) :
    parse? whole = some (ofPlaces (Text.ofDigits whole) 0) := by
  obtain ⟨htake, hdrop⟩ := Text.takeWhile_run hwhole [] (by simp)
  rw [List.append_nil] at htake hdrop
  have hempty : whole.isEmpty = false := by simpa using hne
  simp [parse?, htake, hdrop, splitFraction, splitExponent?, hempty, ofPlaces]

/-- Digits around a point are read with the places behind it. -/
theorem parse?_fraction {whole fraction : List Char} (hne : whole ≠ [])
    (hwhole : ∀ c ∈ whole, c.isDigit) (hfraction : ∀ c ∈ fraction, c.isDigit) :
    parse? (whole ++ '.' :: fraction) =
      some (ofPlaces (Text.ofDigits (whole ++ fraction)) fraction.length) := by
  obtain ⟨htake, hdrop⟩ := Text.takeWhile_run hwhole ('.' :: fraction) (by simp)
  obtain ⟨htake', hdrop'⟩ := Text.takeWhile_run hfraction [] (by simp)
  rw [List.append_nil] at htake' hdrop'
  have hempty : whole.isEmpty = false := by simpa using hne
  simp [parse?, htake, hdrop, htake', hdrop', splitFraction, splitExponent?, hempty, ofPlaces]

/-- The two sides of the point, of which the second has the places. -/
theorem positional_eq (coefficient : Nat) {places : Nat} (hplaces : places ≠ 0) :
    ∃ whole fraction, positional coefficient places = whole ++ '.' :: fraction ∧ whole ≠ [] ∧
      fraction.length = places ∧ (∀ c ∈ whole ++ fraction, c.isDigit) ∧
      Text.ofDigits (whole ++ fraction) = coefficient := by
  have hlength := Text.length_digits_pos coefficient
  -- the digits, with as many zeros before them as it takes to have one before the point
  obtain ⟨padded, hpadded⟩ : ∃ padded, padded =
      List.replicate (places + 1 - (Text.digits coefficient).length) '0' ++ Text.digits coefficient :=
    ⟨_, rfl⟩
  have hlong : places < padded.length := by
    rw [hpadded, List.length_append, List.length_replicate]
    omega
  have hcut : padded.take (padded.length - places) ++ padded.drop (padded.length - places) = padded :=
    List.take_append_drop _ _
  refine ⟨padded.take (padded.length - places), padded.drop (padded.length - places), ?_, ?_, ?_,
    ?_, ?_⟩
  · simp only [positional, if_neg hplaces, ← hpadded]
  · have : (padded.take (padded.length - places)).length ≠ 0 := by
      rw [List.length_take]
      omega
    exact fun hnil => this (by rw [hnil]; rfl)
  · rw [List.length_drop]
    omega
  · rw [hcut, hpadded]
    intro c hc
    rcases List.mem_append.1 hc with hzero | hdigit
    · rw [List.eq_of_mem_replicate hzero]
      decide
    · exact Text.isDigit_of_mem_digits hdigit
  · rw [hcut, hpadded, Text.ofDigits_zeros_append, Text.ofDigits_digits]

/-- A written decimal is read with the coefficient and the places that it was written from. -/
theorem parse?_positional (coefficient places : Nat) :
    parse? (positional coefficient places) = some (ofPlaces coefficient places) := by
  by_cases hplaces : places = 0
  · subst hplaces
    have hne : Text.digits coefficient ≠ [] :=
      List.ne_nil_of_length_pos (Text.length_digits_pos coefficient)
    rw [positional, if_pos rfl, parse?_whole hne fun c => Text.isDigit_of_mem_digits,
      Text.ofDigits_digits]
  · obtain ⟨whole, fraction, heq, hne, hlength, hdigits, hvalue⟩ :=
      positional_eq coefficient hplaces
    rw [heq, parse?_fraction hne (fun c hc => hdigits c (List.mem_append_left _ hc))
      (fun c hc => hdigits c (List.mem_append_right _ hc)), hvalue, hlength]

/-- A written decimal begins with a digit and consists of digits and perhaps a point. -/
theorem chars_positional (coefficient places : Nat) :
    (∃ c rest, positional coefficient places = c :: rest ∧ c.isDigit) ∧
      ∀ c ∈ positional coefficient places, c.isDigit ∨ c = '.' := by
  by_cases hplaces : places = 0
  · subst hplaces
    obtain ⟨c, rest, hdigits⟩ := List.exists_cons_of_length_pos (Text.length_digits_pos coefficient)
    rw [positional, if_pos rfl]
    refine ⟨⟨c, rest, hdigits, ?_⟩, fun a ha => .inl (Text.isDigit_of_mem_digits ha)⟩
    exact Text.isDigit_of_mem_digits (hdigits ▸ List.mem_cons_self)
  · obtain ⟨whole, fraction, heq, hne, _, hdigits, _⟩ :=
      positional_eq coefficient hplaces
    obtain ⟨c, whole, rfl⟩ := List.exists_cons_of_ne_nil hne
    rw [heq]
    refine ⟨⟨c, _, rfl, hdigits c (by simp)⟩, fun a ha => ?_⟩
    rcases List.mem_append.1 ha with hwhole | hfraction
    · exact .inl (hdigits a (List.mem_append_left _ hwhole))
    · rcases List.mem_cons.1 hfraction with hpoint | hfraction
      · exact .inr hpoint
      · exact .inl (hdigits a (List.mem_append_right _ hfraction))

/-- Dropping zeros at the end leaves the value as it is. -/
theorem dropZeros_value (coefficient places : Nat) :
    (dropZeros coefficient places).1 * 10 ^ places =
      coefficient * 10 ^ (dropZeros coefficient places).2 := by
  fun_induction dropZeros coefficient places with
  | case1 => rfl
  | case2 coefficient places hzero ih =>
    have hten : coefficient / 10 * 10 = coefficient := by omega
    calc (dropZeros (coefficient / 10) places).1 * 10 ^ (places + 1)
        = (dropZeros (coefficient / 10) places).1 * 10 ^ places * 10 := by ring
      _ = coefficient / 10 * 10 * 10 ^ (dropZeros (coefficient / 10) places).2 := by rw [ih]; ring
      _ = coefficient * 10 ^ (dropZeros (coefficient / 10) places).2 := by rw [hten]
  | case3 => rfl

end Decimal

namespace Binary64

/-! ## The shortest decimal -/

theorem rank_lt_of_isFinite {x : Binary64} (h : x.isFinite) : x.rank < infinityRank := by
  simpa [isFinite] using h

theorem isFinite_or_isInfinite {x : Binary64} (h : x.isNaN = false) :
    x.isFinite ∨ x.isInfinite := by
  simp only [isNaN, decide_eq_false_iff_not, isFinite, isInfinite, decide_eq_true_eq,
    beq_iff_eq] at h ⊢
  omega

theorem isNaN_of_isFinite {x : Binary64} (h : x.isFinite) : x.isNaN = false := by
  have hrank := rank_lt_of_isFinite h
  simp only [isNaN, decide_eq_false_iff_not]
  omega

theorem isInfinite_of_isFinite {x : Binary64} (h : x.isFinite) : x.isInfinite = false := by
  have hrank := rank_lt_of_isFinite h
  simp only [isInfinite, beq_eq_false_iff_ne]
  omega

theorem exactCoefficient_eq (x : Binary64) :
    x.exactCoefficient = unitsOfRank x.rank * 5 ^ exactPlaces := by
  rw [exactCoefficient, units, Nat.pow_eq]

/-- The exact value of a finite number reads back. -/
theorem readsBack_exact {x : Binary64} (h : x.isFinite) :
    x.readsBack (Decimal.dropZeros x.exactCoefficient exactPlaces) := by
  have hvalue := Decimal.dropZeros_value x.exactCoefficient exactPlaces
  generalize Decimal.dropZeros x.exactCoefficient exactPlaces = d at hvalue ⊢
  rw [exactCoefficient_eq] at hvalue
  have hexact : d.1 * unitsPerOne = unitsOfRank x.rank * 10 ^ d.2 := by
    have hfive : 0 < 5 ^ exactPlaces := Nat.pow_pos (by decide)
    have hten : 10 ^ exactPlaces = unitsPerOne * 5 ^ exactPlaces := by
      rw [unitsPerOne_eq, ← Nat.mul_pow]
    refine Nat.eq_of_mul_eq_mul_right hfive ?_
    calc d.1 * unitsPerOne * 5 ^ exactPlaces
        = d.1 * 10 ^ exactPlaces := by rw [hten, Nat.mul_assoc]
      _ = unitsOfRank x.rank * 5 ^ exactPlaces * 10 ^ d.2 := hvalue
      _ = unitsOfRank x.rank * 10 ^ d.2 * 5 ^ exactPlaces := Nat.mul_right_comm _ _ _
  rw [readsBack, beq_iff_eq]
  exact Decimal.nearestRank_ofPlaces (rank_lt_of_isFinite h) hexact

/-- The shortest decimal of a finite number reads back. -/
theorem readsBack_shortest {x : Binary64} (h : x.isFinite) : x.readsBack x.shortest := by
  simp only [shortest]
  cases hfound : List.findSome? _ (List.range digitLimit) with
  | none =>
    rw [Option.getD_none]
    exact readsBack_exact h
  | some d =>
    obtain ⟨k, _, hk⟩ := List.exists_of_findSome?_eq_some hfound
    simp only [neighbour?] at hk
    rw [Option.getD_some]
    exact List.find?_some hk

/-! ## Reading what is written -/

theorem ofRank_rank (x : Binary64) : ofRank x.isNegative x.rank = x := by
  have hbits : x.rank + (if x.isNegative = true then signWeight else 0) = x.bits.toNat := by
    have hlt := x.bits.toNat_lt
    unfold rank isNegative signWeight
    by_cases hsign : 0x8000000000000000 ≤ x.bits.toNat
    · rw [if_pos (by simpa using hsign)]
      omega
    · rw [if_neg (by simpa using hsign)]
      omega
  rw [ofRank, hbits, UInt64.ofNat_toNat]

/-- A text that begins with a digit is no word. -/
theorem parseMagnitude?_of_digit (negative : Bool) {c : Char} (hc : c.isDigit) (rest : List Char) :
    parseMagnitude? negative (c :: rest) =
      (Decimal.parse? (c :: rest)).map (Decimal.toBinary64 negative) := by
  have hlower : c.toLower = c := by
    rw [Text.isDigit_iff] at hc
    rw [← Char.toNat_inj, Text.toNat_toLower, if_neg]
    omega
  have hword : ∀ {a : Char} (letters : List Char), a.isDigit = false →
      String.ofList ((c :: rest).map Char.toLower) ≠ String.ofList (a :: letters) := by
    intro a letters ha heq
    rw [String.ofList_inj, List.map_cons, hlower] at heq
    rw [← (List.cons.inj heq).1, hc] at ha
    cases ha
  have hinf : _ ≠ "inf" := hword ['n', 'f'] (a := 'i') (by decide)
  have hinfinity : _ ≠ "infinity" := hword ['n', 'f', 'i', 'n', 'i', 't', 'y'] (a := 'i') (by decide)
  have hnan : _ ≠ "nan" := hword ['a', 'n'] (a := 'n') (by decide)
  simp only [parseMagnitude?, hinf, hinfinity, hnan, or_self, if_false]

/-- The sign is read as it is written. -/
theorem parse?_withSign (negative : Bool) {c : Char} (hminus : c ≠ '-') (hplus : c ≠ '+')
    (rest : List Char) :
    parse? (withSign negative (c :: rest)) = parseMagnitude? negative (c :: rest) := by
  cases negative with
  | true => rfl
  | false =>
    show parse? (c :: rest) = parseMagnitude? false (c :: rest)
    unfold parse?
    split
    · next heq => exact absurd (List.cons.inj heq).1 hminus
    · next heq => exact absurd (List.cons.inj heq).1 hplus
    · rfl

theorem parse?_withSign_of_digit (negative : Bool) {c : Char} (hc : c.isDigit)
    (rest : List Char) :
    parse? (withSign negative (c :: rest)) =
      (Decimal.parse? (c :: rest)).map (Decimal.toBinary64 negative) := by
  rw [parse?_withSign negative (by rintro rfl; simp at hc) (by rintro rfl; simp at hc),
    parseMagnitude?_of_digit negative hc]

theorem toText_of_isInfinite {x : Binary64} (h : x.isInfinite) :
    x.toText = withSign x.isNegative "inf".toList := by
  have hnan : x.isNaN = false := by
    simp only [isInfinite, beq_iff_eq, isNaN, decide_eq_false_iff_not] at h ⊢
    omega
  unfold toText
  rw [if_neg (by rw [hnan]; exact Bool.false_ne_true), if_pos h]

/-- The shortest decimal goes by a name `d` here, so that nothing tries to compute it. -/
theorem toText_of_isFinite {x : Binary64} (h : x.isFinite) {d : Nat × Nat} (hd : x.shortest = d) :
    x.toText = withSign x.isNegative (Decimal.positional d.1 d.2) := by
  rw [toText, isNaN_of_isFinite h, isInfinite_of_isFinite h, if_neg Bool.false_ne_true,
    if_neg Bool.false_ne_true, hd]

/-- What is written for a number that is not NaN is read as this number, sign of zero included. -/
theorem parse?_toText {x : Binary64} (h : x.isNaN = false) : parse? x.toText = some x := by
  rcases isFinite_or_isInfinite h with hfinite | hinfinite
  · obtain ⟨d, hd⟩ : ∃ d, x.shortest = d := ⟨_, rfl⟩
    have hrank : (Decimal.ofPlaces d.1 d.2).nearestRank = x.rank := by
      have hback := readsBack_shortest hfinite
      rw [hd, readsBack, beq_iff_eq] at hback
      exact hback
    obtain ⟨⟨c, rest, htext, hc⟩, _⟩ := Decimal.chars_positional d.1 d.2
    rw [toText_of_isFinite hfinite hd, htext, parse?_withSign_of_digit _ hc, ← htext,
      Decimal.parse?_positional, Option.map_some, Decimal.toBinary64, hrank, ofRank_rank]
  · have hrank : x.rank = infinityRank := beq_iff_eq.1 hinfinite
    have hword : parseMagnitude? x.isNegative ['i', 'n', 'f'] =
        some (ofRank x.isNegative infinityRank) := rfl
    rw [toText_of_isInfinite hinfinite, show "inf".toList = ['i', 'n', 'f'] from rfl,
      parse?_withSign x.isNegative (by decide) (by decide), hword, ← hrank, ofRank_rank]

/-- A written number consists of letters, digits, a sign and a point. -/
theorem chars_toText {x : Binary64} (h : x.isNaN = false) :
    ∀ c ∈ x.toText, c.isAlpha ∨ c.isDigit ∨ c = '-' ∨ c = '.' := by
  have hsign : ∀ {s : List Char}, (∀ c ∈ s, c.isAlpha ∨ c.isDigit ∨ c = '-' ∨ c = '.') →
      ∀ c ∈ withSign x.isNegative s, c.isAlpha ∨ c.isDigit ∨ c = '-' ∨ c = '.' := by
    intro s hs c hc
    unfold withSign at hc
    split at hc
    · rcases List.mem_cons.1 hc with rfl | hc
      · decide
      · exact hs c hc
    · exact hs c hc
  rcases isFinite_or_isInfinite h with hfinite | hinfinite
  · obtain ⟨d, hd⟩ : ∃ d, x.shortest = d := ⟨_, rfl⟩
    rw [toText_of_isFinite hfinite hd]
    refine hsign fun c hc => ?_
    rcases (Decimal.chars_positional d.1 d.2).2 c hc with hdigit | rfl
    · exact .inr (.inl hdigit)
    · decide
  · have hletters : "inf".toList.all Char.isAlpha := rfl
    rw [toText_of_isInfinite hinfinite]
    exact hsign fun c hc => .inl (List.all_eq_true.1 hletters c hc)

end Binary64

end Worksheet
