import Worksheet.Proofs.Number.Numeral
import Worksheet.Proofs.Number.Rounding

/-!
No decimal with fewer digits than the one that is written is read as the same number, and of those
with as few digits none is nearer to it (`Binary64.shortest_spec`).

With a count of digits given up, the decimals are the points of a grid. If any point of the grid is
read as the number, one of the two around the exact value is, so that looking at these is enough
(`gridBest_of_neighbour?`, `not_nearest_of_neighbour?`). A decimal with few digits that is read as
the number can be moved to the grid and is no farther from it then (`exists_gridPoint`). And with 17
digits there always is a point that is near enough (`exists_gridPoint_digitLimit`).
-/

namespace Worksheet

/-- The number has a decimal with at most `k` digits, zeros at its end not counted. -/
def HasDigits (k : Nat) (q : Rat) : Prop :=
  ∃ (c : Nat) (e : Int), c < 10 ^ k ∧ q = c * 10 ^ e

theorem HasDigits.mono {k m : Nat} {q : Rat} (h : HasDigits k q) (hkm : k ≤ m) : HasDigits m q := by
  obtain ⟨c, e, hc, hq⟩ := h
  exact ⟨c, e, hc.trans_le (Nat.pow_le_pow_right (by decide) hkm), hq⟩

theorem hasDigits_zero (k : Nat) : HasDigits k 0 :=
  ⟨0, 0, Nat.pow_pos (by decide), by rw [Nat.cast_zero, zero_mul]⟩

theorem HasDigits.eq_zero {q : Rat} (h : HasDigits 0 q) : q = 0 := by
  obtain ⟨c, e, hc, hq⟩ := h
  rw [Nat.pow_zero, Nat.lt_one_iff] at hc
  rw [hq, hc, Nat.cast_zero, zero_mul]

namespace Binary64

variable {x : Binary64} {dropped k : Nat} {p : Rat} {d : Nat × Nat}

/-! ## Exact values and grids -/

/-- The decimal that the pair of a coefficient and of places stands for. -/
def decimalValue (d : Nat × Nat) : Rat :=
  d.1 / 10 ^ d.2

/-- The point `c` of the decimals that give up `dropped` digits of the exact value. -/
def gridPoint (dropped c : Nat) : Rat :=
  c * 10 ^ dropped / 10 ^ exactPlaces

theorem gridPoint_zero (dropped : Nat) : gridPoint dropped 0 = 0 := by
  rw [gridPoint, Nat.cast_zero, zero_mul, zero_div]

/-- Powers of ten as the grid has them. -/
theorem mul_zpow_eq_gridPoint (dropped a t : Nat) :
    (a : Rat) * 10 ^ (((t + dropped : Nat) : Int) - (exactPlaces : Nat)) =
      gridPoint dropped (a * 10 ^ t) := by
  rw [gridPoint, zpow_sub₀ (by norm_num), zpow_natCast, zpow_natCast, pow_add]
  push_cast
  ring

theorem gridPoint_eq_mul (dropped c : Nat) : gridPoint dropped c = c * gridPoint dropped 1 := by
  rw [gridPoint, gridPoint, Nat.cast_one, one_mul, mul_div_assoc]

theorem gridPoint_one_pos (dropped : Nat) : 0 < gridPoint dropped 1 := by
  rw [gridPoint, Nat.cast_one, one_mul]
  exact div_pos (by positivity) (by positivity)

theorem gridPoint_le_gridPoint {a b : Nat} (h : a ≤ b) : gridPoint dropped a ≤ gridPoint dropped b := by
  unfold gridPoint
  gcongr

/-- The exact value is the point of the finest grid. -/
theorem magnitude_eq_gridPoint (x : Binary64) : magnitude x.rank = gridPoint 0 x.exactCoefficient := by
  have hfive : ((5 ^ exactPlaces : Nat) : Rat) ≠ 0 :=
    Nat.cast_ne_zero.2 (Nat.pow_pos (by decide)).ne'
  have hten : (10 : Rat) ^ exactPlaces = (unitsPerOne : Nat) * (5 ^ exactPlaces : Nat) := by
    rw [← Nat.cast_mul, unitsPerOne_eq, ← Nat.mul_pow, Nat.cast_pow]
    rfl
  rw [gridPoint, pow_zero, mul_one, exactCoefficient_eq, Nat.cast_mul, hten, magnitude,
    mul_div_mul_right _ _ hfive]

theorem decimalValue_truncated (dropped c : Nat) :
    decimalValue (truncated dropped c) = gridPoint dropped c := by
  have hvalue : (truncated dropped c).1 * 10 ^ (exactPlaces - dropped) =
      c * 10 ^ (dropped - exactPlaces) * 10 ^ (truncated dropped c).2 :=
    Decimal.dropZeros_value _ _
  have hscale : ∀ places : Nat, (10 : Rat) ^ (dropped - places) * 10 ^ places =
      10 ^ dropped * 10 ^ (places - dropped) := by
    intro places
    rw [← pow_add, ← pow_add]
    congr 1
    omega
  have hvalue' : ((truncated dropped c).1 : Rat) * 10 ^ (exactPlaces - dropped) =
      c * 10 ^ (dropped - exactPlaces) * 10 ^ (truncated dropped c).2 := by exact_mod_cast hvalue
  have hten : ∀ m : Nat, (10 : Rat) ^ m ≠ 0 := fun m => pow_ne_zero m (by norm_num)
  rw [decimalValue, gridPoint, div_eq_div_iff (hten _) (hten _)]
  refine mul_right_cancel₀ (hten (exactPlaces - dropped)) ?_
  calc ((truncated dropped c).1 : Rat) * 10 ^ exactPlaces * 10 ^ (exactPlaces - dropped)
      = (truncated dropped c).1 * 10 ^ (exactPlaces - dropped) * 10 ^ exactPlaces := by ring
    _ = c * (10 ^ (dropped - exactPlaces) * 10 ^ exactPlaces) * 10 ^ (truncated dropped c).2 := by
      rw [hvalue']
      ring
    _ = c * 10 ^ dropped * 10 ^ (truncated dropped c).2 * 10 ^ (exactPlaces - dropped) := by
      rw [hscale]
      ring

theorem readsBack_iff (hx : x.isFinite) :
    x.readsBack d ↔ NearestEven magnitude (decimalValue d) x.rank := by
  rw [readsBack, beq_iff_eq, Decimal.nearestRank_eq_iff (rank_lt_of_isFinite hx),
    Decimal.toRat_ofPlaces, decimalValue]

theorem readsBack_truncated_iff (hx : x.isFinite) (c : Nat) :
    x.readsBack (truncated dropped c) ↔ NearestEven magnitude (gridPoint dropped c) x.rank := by
  rw [readsBack_iff hx, decimalValue_truncated]

/-- Points are compared with the exact value by their digits. -/
theorem gridPoint_le_iff {c : Nat} :
    gridPoint dropped c ≤ magnitude x.rank ↔ c * 10 ^ dropped ≤ x.exactCoefficient := by
  rw [magnitude_eq_gridPoint, gridPoint, gridPoint, pow_zero, mul_one,
    div_le_div_iff_of_pos_right (by positivity)]
  norm_cast

/-- The exact value lies between two points of the grid. -/
theorem gridPoint_floor_le (x : Binary64) (dropped : Nat) :
    gridPoint dropped (x.exactCoefficient / 10 ^ dropped) ≤ magnitude x.rank :=
  gridPoint_le_iff.2 (Nat.div_mul_le_self _ _)

theorem lt_gridPoint_ceil (x : Binary64) (dropped : Nat) :
    magnitude x.rank < gridPoint dropped (x.exactCoefficient / 10 ^ dropped + 1) := by
  have hpos : 0 < 10 ^ dropped := Nat.pow_pos (by decide)
  rw [← not_le, gridPoint_le_iff, Nat.not_le, Nat.mul_comm]
  exact Nat.lt_mul_div_succ x.exactCoefficient hpos

/-- Twice the rest tells which of the two points is the nearer one. -/
theorem twice_mod_lt_iff (x : Binary64) (dropped : Nat) :
    2 * (x.exactCoefficient % 10 ^ dropped) < 10 ^ dropped ↔
      2 * magnitude x.rank < gridPoint dropped (x.exactCoefficient / 10 ^ dropped) +
        gridPoint dropped (x.exactCoefficient / 10 ^ dropped + 1) := by
  have hsum : gridPoint dropped (x.exactCoefficient / 10 ^ dropped) +
      gridPoint dropped (x.exactCoefficient / 10 ^ dropped + 1) =
        (2 * (10 ^ dropped * (x.exactCoefficient / 10 ^ dropped)) + 10 ^ dropped : Nat) /
          10 ^ exactPlaces := by
    rw [gridPoint, gridPoint, ← add_div]
    push_cast
    ring
  have htwice : 2 * magnitude x.rank = (2 * x.exactCoefficient : Nat) / 10 ^ exactPlaces := by
    rw [magnitude_eq_gridPoint, gridPoint, pow_zero, mul_one]
    push_cast
    ring
  have hdiv := Nat.div_add_mod x.exactCoefficient (10 ^ dropped)
  rw [hsum, htwice, div_lt_div_iff_of_pos_right (by positivity), Nat.cast_lt]
  omega

/-! ## The neighbours on a grid -/

/-- The point `q` of the grid is read as the number, and no other that is lies nearer, or as near
and above it. -/
structure GridBest (x : Binary64) (dropped : Nat) (q : Rat) : Prop where
  nearest : NearestEven magnitude q x.rank
  le : ∀ c, NearestEven magnitude (gridPoint dropped c) x.rank →
    |q - magnitude x.rank| ≤ |gridPoint dropped c - magnitude x.rank|
  tie : ∀ c, NearestEven magnitude (gridPoint dropped c) x.rank →
    |q - magnitude x.rank| = |gridPoint dropped c - magnitude x.rank| → gridPoint dropped c ≤ q

/-- If a point of the grid is read as the number, then so is the one next to the exact value on the
same side. -/
theorem nearest_floor_or_ceil {c : Nat} (h : NearestEven magnitude (gridPoint dropped c) x.rank) :
    gridPoint dropped c ≤ gridPoint dropped (x.exactCoefficient / 10 ^ dropped) ∧
        NearestEven magnitude (gridPoint dropped (x.exactCoefficient / 10 ^ dropped)) x.rank ∨
      gridPoint dropped (x.exactCoefficient / 10 ^ dropped + 1) ≤ gridPoint dropped c ∧
        NearestEven magnitude (gridPoint dropped (x.exactCoefficient / 10 ^ dropped + 1)) x.rank := by
  rcases Nat.lt_or_ge (x.exactCoefficient / 10 ^ dropped) c with hc | hc
  · have hle : gridPoint dropped (x.exactCoefficient / 10 ^ dropped + 1) ≤ gridPoint dropped c :=
      gridPoint_le_gridPoint hc
    exact .inr ⟨hle, h.between (.inr ⟨(lt_gridPoint_ceil x dropped).le, hle⟩)⟩
  · have hle : gridPoint dropped c ≤ gridPoint dropped (x.exactCoefficient / 10 ^ dropped) :=
      gridPoint_le_gridPoint hc
    exact .inl ⟨hle, h.between (.inl ⟨hle, gridPoint_floor_le x dropped⟩)⟩

theorem gridBest_floor
    (hnearest : NearestEven magnitude (gridPoint dropped (x.exactCoefficient / 10 ^ dropped)) x.rank)
    (hother : 2 * (x.exactCoefficient % 10 ^ dropped) < 10 ^ dropped ∨
      ¬ NearestEven magnitude (gridPoint dropped (x.exactCoefficient / 10 ^ dropped + 1)) x.rank) :
    GridBest x dropped (gridPoint dropped (x.exactCoefficient / 10 ^ dropped)) := by
  have hlow := gridPoint_floor_le x dropped
  have hdist : |gridPoint dropped (x.exactCoefficient / 10 ^ dropped) - magnitude x.rank| =
      magnitude x.rank - gridPoint dropped (x.exactCoefficient / 10 ^ dropped) := by
    rw [abs_of_nonpos (by linarith), neg_sub]
  -- above the exact value all is farther away
  have habove : ∀ c, NearestEven magnitude (gridPoint dropped c) x.rank →
      gridPoint dropped c ≤ gridPoint dropped (x.exactCoefficient / 10 ^ dropped) ∨
        magnitude x.rank - gridPoint dropped (x.exactCoefficient / 10 ^ dropped) <
          |gridPoint dropped c - magnitude x.rank| := by
    intro c hc
    rcases nearest_floor_or_ceil hc with ⟨hle, -⟩ | ⟨hge, hceil⟩
    · exact .inl hle
    · have hmiddle := (twice_mod_lt_iff x dropped).1 (hother.resolve_right fun h => h hceil)
      have := le_abs_self (gridPoint dropped c - magnitude x.rank)
      exact .inr (by linarith)
  refine ⟨hnearest, fun c hc => ?_, fun c hc heq => ?_⟩
  · rw [hdist]
    rcases habove c hc with hle | hlt
    · have := neg_abs_le (gridPoint dropped c - magnitude x.rank)
      linarith
    · exact hlt.le
  · rw [hdist] at heq
    exact (habove c hc).resolve_right heq.not_lt

theorem gridBest_ceil
    (hnearest :
      NearestEven magnitude (gridPoint dropped (x.exactCoefficient / 10 ^ dropped + 1)) x.rank)
    (hother : ¬ 2 * (x.exactCoefficient % 10 ^ dropped) < 10 ^ dropped ∨
      ¬ NearestEven magnitude (gridPoint dropped (x.exactCoefficient / 10 ^ dropped)) x.rank) :
    GridBest x dropped (gridPoint dropped (x.exactCoefficient / 10 ^ dropped + 1)) := by
  have hlow := gridPoint_floor_le x dropped
  have hhigh := lt_gridPoint_ceil x dropped
  have hdist : |gridPoint dropped (x.exactCoefficient / 10 ^ dropped + 1) - magnitude x.rank| =
      gridPoint dropped (x.exactCoefficient / 10 ^ dropped + 1) - magnitude x.rank :=
    abs_of_nonneg (by linarith)
  refine ⟨hnearest, fun c hc => ?_, fun c hc heq => ?_⟩
  · rw [hdist]
    rcases nearest_floor_or_ceil hc with ⟨hle, hfloor⟩ | ⟨hge, -⟩
    · have hmiddle := (not_congr (twice_mod_lt_iff x dropped)).1
        (hother.resolve_right fun h => h hfloor)
      have := neg_abs_le (gridPoint dropped c - magnitude x.rank)
      linarith
    · have := le_abs_self (gridPoint dropped c - magnitude x.rank)
      linarith
  · rw [hdist] at heq
    rcases nearest_floor_or_ceil hc with ⟨hle, -⟩ | ⟨hge, -⟩
    · linarith
    · rw [abs_of_nonneg (by linarith)] at heq
      linarith

theorem find?_pair {α : Type} {f : α → Bool} {a b c : α} (h : [a, b].find? f = some c) :
    c = a ∧ f a ∨ c = b ∧ f b ∧ ¬ f a := by
  by_cases ha : f a
  · rw [List.find?_cons_of_pos ha, Option.some.injEq] at h
    exact .inl ⟨h.symm, ha⟩
  · rw [List.find?_cons_of_neg ha] at h
    have hb : f c := List.find?_some h
    have hc : c = b := List.mem_singleton.1 (List.mem_of_find?_eq_some h)
    rw [hc] at hb
    exact .inr ⟨hc, hb, ha⟩

/-- The neighbour that is found is the best point of the grid. -/
theorem gridBest_of_neighbour? (hx : x.isFinite) (h : x.neighbour? dropped = some d) :
    ∃ c ≤ x.exactCoefficient / 10 ^ dropped + 1,
      d = truncated dropped c ∧ GridBest x dropped (gridPoint dropped c) := by
  simp only [neighbour?, Nat.pow_eq] at h
  by_cases hrest : 2 * (x.exactCoefficient % 10 ^ dropped) < 10 ^ dropped
  · rw [if_pos hrest] at h
    rcases find?_pair h with ⟨hd, hlow⟩ | ⟨hd, hhigh, hlow⟩
    · rw [readsBack_truncated_iff hx] at hlow
      exact ⟨_, Nat.le_succ _, hd, gridBest_floor hlow (.inl hrest)⟩
    · rw [readsBack_truncated_iff hx] at hlow hhigh
      exact ⟨_, Nat.le_refl _, hd, gridBest_ceil hhigh (.inr hlow)⟩
  · rw [if_neg hrest] at h
    rcases find?_pair h with ⟨hd, hhigh⟩ | ⟨hd, hlow, hhigh⟩
    · rw [readsBack_truncated_iff hx] at hhigh
      exact ⟨_, Nat.le_refl _, hd, gridBest_ceil hhigh (.inl hrest)⟩
    · rw [readsBack_truncated_iff hx] at hlow hhigh
      exact ⟨_, Nat.le_succ _, hd, gridBest_floor hlow (.inr hhigh)⟩

/-- If neither neighbour is read as the number, no point of the grid is. -/
theorem not_nearest_of_neighbour? (hx : x.isFinite) (h : x.neighbour? dropped = none) (c : Nat) :
    ¬ NearestEven magnitude (gridPoint dropped c) x.rank := by
  intro hc
  simp only [neighbour?, Nat.pow_eq] at h
  have hnone : ∀ c, c = x.exactCoefficient / 10 ^ dropped ∨
      c = x.exactCoefficient / 10 ^ dropped + 1 →
        ¬ NearestEven magnitude (gridPoint dropped c) x.rank := by
    intro c hc
    rw [← readsBack_truncated_iff hx]
    refine List.find?_eq_none.1 h _ ?_
    rcases hc with rfl | rfl <;> split <;> simp
  rcases nearest_floor_or_ceil hc with ⟨-, hfloor⟩ | ⟨-, hceil⟩
  · exact hnone _ (.inl rfl) hfloor
  · exact hnone _ (.inr rfl) hceil

/-! ## Counts of digits -/

/-- The count of digits of the exact value. -/
def exactLength (x : Binary64) : Nat :=
  (Text.digits x.exactCoefficient).length

/-- A decimal that does not use all the digits of the grid is a point of it. -/
theorem exists_eq_gridPoint {c : Nat} {e : Int} (h : (dropped : Int) ≤ e + exactPlaces) :
    ∃ c', (c : Rat) * 10 ^ e = gridPoint dropped c' := by
  obtain ⟨t, ht⟩ := Int.eq_ofNat_of_zero_le (sub_nonneg.2 h)
  have he : e = ((t + dropped : Nat) : Int) - (exactPlaces : Nat) := by
    rw [Nat.cast_add, ← ht]
    ring
  exact ⟨c * 10 ^ t, by rw [he, mul_zpow_eq_gridPoint]⟩

/-- A decimal with more digits behind than the grid lies below a power of ten on the grid. -/
theorem lt_gridPoint {c : Nat} {e : Int} (hc : c < 10 ^ (k + 1))
    (h : e + exactPlaces < dropped) : (c : Rat) * 10 ^ e < gridPoint dropped (10 ^ k) := by
  have hpos : (0 : Rat) < 10 ^ e := zpow_pos (by norm_num) e
  calc (c : Rat) * 10 ^ e < 10 ^ (k + 1) * 10 ^ e := by
        refine mul_lt_mul_of_pos_right ?_ hpos
        exact_mod_cast hc
    _ = 10 ^ (((k + 1 : Nat) : Int) + e) := by rw [zpow_add₀ (by norm_num), zpow_natCast]
    _ ≤ 10 ^ (((k + dropped : Nat) : Int) - (exactPlaces : Nat)) := by
        refine zpow_le_zpow_right₀ (by norm_num) ?_
        push_cast
        omega
    _ = gridPoint dropped (10 ^ k) := by
        rw [← Nat.one_mul (10 ^ k), ← mul_zpow_eq_gridPoint, Nat.cast_one, one_mul]

/-- If digits are given up, the first digit stands in a place that the grid has. -/
theorem gridPoint_le_magnitude (hdropped : x.exactLength - (k + 1) = dropped) (hpos : 0 < dropped) :
    gridPoint dropped (10 ^ k) ≤ magnitude x.rank := by
  have hlarge : 10 ^ (k + dropped) ≤ x.exactCoefficient := by
    by_contra hlt
    have := (Text.length_digits_le_iff (by omega)).2 (Nat.lt_of_not_le hlt)
    unfold exactLength at hdropped
    omega
  rw [gridPoint_le_iff, ← Nat.pow_add]
  exact hlarge

/-- A decimal with few digits that is read as the number is no nearer to it than some point of the
grid for these digits. -/
theorem exists_gridPoint (hp : NearestEven magnitude p x.rank) (hk : HasDigits (k + 1) p) :
    ∃ c, NearestEven magnitude (gridPoint (x.exactLength - (k + 1)) c) x.rank ∧
      |gridPoint (x.exactLength - (k + 1)) c - magnitude x.rank| ≤ |p - magnitude x.rank| ∧
      (|gridPoint (x.exactLength - (k + 1)) c - magnitude x.rank| = |p - magnitude x.rank| →
        p = gridPoint (x.exactLength - (k + 1)) c) := by
  obtain ⟨c, e, hc, rfl⟩ := hk
  obtain ⟨dropped, hdropped⟩ : ∃ dropped, x.exactLength - (k + 1) = dropped := ⟨_, rfl⟩
  rw [hdropped]
  rcases lt_or_ge (e + exactPlaces) dropped with hfine | hcoarse
  · rcases Nat.eq_zero_or_pos dropped with hzero | hpos
    · -- the exact value itself is on the grid
      refine ⟨x.exactCoefficient, ?_, ?_, ?_⟩
      all_goals rw [hzero, ← magnitude_eq_gridPoint]
      · exact nearestEven_self magnitude_strictMono x.rank
      · rw [sub_self, abs_zero]
        exact abs_nonneg _
      · intro heq
        rw [sub_self, abs_zero] at heq
        exact sub_eq_zero.1 (abs_eq_zero.1 heq.symm)
    · -- the power of ten at the first digit lies between
      have hbelow := lt_gridPoint hc hfine
      have hle := gridPoint_le_magnitude hdropped hpos
      refine ⟨10 ^ k, hp.between (.inl ⟨hbelow.le, hle⟩), ?_, ?_⟩
      all_goals rw [abs_of_nonpos (by linarith), abs_of_nonpos (by linarith)]
      · linarith
      · intro heq
        linarith
  · obtain ⟨c', hc'⟩ := exists_eq_gridPoint (c := c) hcoarse
    rw [hc'] at hp ⊢
    exact ⟨c', hp, le_rfl, fun _ => rfl⟩

/-- The nearer neighbour is no farther than half a step. -/
theorem exists_close_gridPoint (x : Binary64) (dropped : Nat) :
    ∃ c, 2 * |gridPoint dropped c - magnitude x.rank| ≤ gridPoint dropped 1 := by
  have hlow := gridPoint_floor_le x dropped
  have hhigh := lt_gridPoint_ceil x dropped
  have hnext : gridPoint dropped (x.exactCoefficient / 10 ^ dropped + 1) =
      gridPoint dropped (x.exactCoefficient / 10 ^ dropped) + gridPoint dropped 1 := by
    rw [gridPoint_eq_mul, Nat.cast_succ, add_one_mul, ← gridPoint_eq_mul]
  rcases le_total (2 * magnitude x.rank) (gridPoint dropped (x.exactCoefficient / 10 ^ dropped) +
    gridPoint dropped (x.exactCoefficient / 10 ^ dropped + 1)) with hmiddle | hmiddle
  · refine ⟨x.exactCoefficient / 10 ^ dropped, ?_⟩
    rw [abs_of_nonpos (by linarith)]
    linarith
  · refine ⟨x.exactCoefficient / 10 ^ dropped + 1, ?_⟩
    rw [abs_of_nonneg (by linarith)]
    linarith

/-- With 17 digits some point of the grid is read as the number. -/
theorem exists_gridPoint_digitLimit (x : Binary64) :
    ∃ c, NearestEven magnitude (gridPoint (x.exactLength - digitLimit) c) x.rank := by
  obtain ⟨dropped, hdropped⟩ : ∃ dropped, x.exactLength - digitLimit = dropped := ⟨_, rfl⟩
  rw [hdropped]
  rcases Nat.eq_zero_or_pos dropped with hzero | hpos
  · refine ⟨x.exactCoefficient, ?_⟩
    rw [hzero, ← magnitude_eq_gridPoint]
    exact nearestEven_self magnitude_strictMono x.rank
  · have hlarge : gridPoint dropped (10 ^ 16) ≤ magnitude x.rank :=
      gridPoint_le_magnitude (k := 16) hdropped hpos
    rw [gridPoint_eq_mul] at hlarge
    have hstep := gridPoint_one_pos dropped
    have hrank : x.rank ≠ 0 := by
      intro hzero
      rw [hzero, magnitude_zero] at hlarge
      exact absurd hlarge (not_le.2 (mul_pos (by positivity) hstep))
    obtain ⟨c, hc⟩ := exists_close_gridPoint x dropped
    refine ⟨c, nearestEven_of_close hrank ?_⟩
    push_cast at hlarge
    linarith

theorem hasDigits_gridPoint {c : Nat}
    (hc : c ≤ x.exactCoefficient / 10 ^ (x.exactLength - (k + 1)) + 1) :
    HasDigits (k + 1) (gridPoint (x.exactLength - (k + 1)) c) := by
  obtain ⟨dropped, hdropped⟩ : ∃ dropped, x.exactLength - (k + 1) = dropped := ⟨_, rfl⟩
  rw [hdropped] at hc ⊢
  have hle : c ≤ 10 ^ (k + 1) := by
    have hlt : x.exactCoefficient < 10 ^ (k + 1 + dropped) := by
      refine (Text.length_digits_le_iff (by omega)).1 ?_
      unfold exactLength at hdropped
      omega
    rw [Nat.pow_add, ← Nat.div_lt_iff_lt_mul (Nat.pow_pos (by decide))] at hlt
    omega
  rcases Nat.lt_or_ge c (10 ^ (k + 1)) with hlt | hge
  · refine ⟨c, ((0 + dropped : Nat) : Int) - (exactPlaces : Nat), hlt, ?_⟩
    rw [mul_zpow_eq_gridPoint, Nat.pow_zero, Nat.mul_one]
  · -- one digit more, but they are a one and zeros
    refine ⟨1, ((k + 1 + dropped : Nat) : Int) - (exactPlaces : Nat),
      Nat.one_lt_pow (by omega) (by decide), ?_⟩
    rw [mul_zpow_eq_gridPoint, Nat.one_mul, Nat.le_antisymm hle hge]

/-! ## The shortest decimal -/

/-- The decimal `q` is read as the magnitude of the number. Nothing with fewer digits is, nothing
with as few digits that is lies nearer to it, and of two that lie equally near `q` is the larger. -/
structure Shortest (x : Binary64) (q : Rat) : Prop where
  nearest : NearestEven magnitude q x.rank
  fewest : ∀ p k, NearestEven magnitude p x.rank → HasDigits k p → HasDigits k q
  closest : ∀ p, NearestEven magnitude p x.rank → (∀ k, HasDigits k q → HasDigits k p) →
    |q - abs x.dyadic| ≤ |p - abs x.dyadic|
  tie : ∀ p, NearestEven magnitude p x.rank → (∀ k, HasDigits k q → HasDigits k p) →
    |q - abs x.dyadic| = |p - abs x.dyadic| → p ≤ q

/-- The best point of the first grid of which any point is read as the number. -/
theorem shortest_of_gridBest {c : Nat}
    (hc : c ≤ x.exactCoefficient / 10 ^ (x.exactLength - (k + 1)) + 1)
    (hbest : GridBest x (x.exactLength - (k + 1)) (gridPoint (x.exactLength - (k + 1)) c))
    (hfirst : ∀ j < k, ∀ c, ¬ NearestEven magnitude (gridPoint (x.exactLength - (j + 1)) c) x.rank) :
    Shortest x (gridPoint (x.exactLength - (k + 1)) c) := by
  have hdigits := hasDigits_gridPoint hc
  obtain ⟨q, hq⟩ : ∃ q, gridPoint (x.exactLength - (k + 1)) c = q := ⟨_, rfl⟩
  rw [hq] at hbest hdigits ⊢
  refine ⟨hbest.nearest, fun p m hp hm => ?_, fun p hp hm => ?_, fun p hp hm heq => ?_⟩
  · rcases Nat.lt_or_ge k m with hmany | hfew
    · exact hdigits.mono hmany
    · cases m with
      | zero =>
        -- then the number is zero, and so is the best point
        rw [hm.eq_zero, ← gridPoint_zero (x.exactLength - (k + 1))] at hp
        have hrank : x.rank = 0 := by
          rw [gridPoint_zero, ← magnitude_zero] at hp
          exact hp.unique magnitude_strictMono (nearestEven_self magnitude_strictMono 0)
        have hle := hbest.le 0 hp
        rw [gridPoint_zero, hrank, magnitude_zero, sub_zero, sub_zero, abs_zero] at hle
        rw [abs_nonpos_iff.1 hle]
        exact hasDigits_zero 0
      | succ m =>
        obtain ⟨c, hc, -⟩ := exists_gridPoint hp hm
        exact absurd hc (hfirst m hfew c)
  · obtain ⟨c, hc, hle, -⟩ := exists_gridPoint hp (hm _ hdigits)
    rw [abs_dyadic_eq_magnitude]
    exact (hbest.le c hc).trans hle
  · obtain ⟨c, hc, hle, hsame⟩ := exists_gridPoint hp (hm _ hdigits)
    rw [abs_dyadic_eq_magnitude] at heq
    have hge := hbest.le c hc
    rw [hsame (le_antisymm hle (heq ▸ hge))]
    exact hbest.tie c hc (le_antisymm hge (heq ▸ hle))

theorem findSome?_range {α : Type} {f : Nat → Option α} {n : Nat} {a : α}
    (h : (List.range n).findSome? f = some a) : ∃ k < n, f k = some a ∧ ∀ j < k, f j = none := by
  induction n with
  | zero => cases h
  | succ n ih =>
    rw [List.range_succ, List.findSome?_append, Option.or_eq_some_iff] at h
    rcases h with h | ⟨hnone, h⟩
    · obtain ⟨k, hk, hfound, hbefore⟩ := ih h
      exact ⟨k, by omega, hfound, hbefore⟩
    · rw [List.findSome?_singleton] at h
      exact ⟨n, Nat.lt_succ_self n, h, fun j hj =>
        List.findSome?_eq_none_iff.1 hnone j (List.mem_range.2 hj)⟩

/-- The search for the shortest decimal ends with a neighbour of the exact value. -/
theorem neighbour?_of_shortest (hx : x.isFinite) (hd : x.shortest = d) :
    ∃ k, x.neighbour? (x.exactLength - (k + 1)) = some d ∧
      ∀ j < k, x.neighbour? (x.exactLength - (j + 1)) = none := by
  simp only [shortest] at hd
  cases hfound : (List.range digitLimit).findSome? fun k =>
      x.neighbour? ((Text.digits x.exactCoefficient).length - (k + 1)) with
  | none =>
    obtain ⟨c, hc⟩ := exists_gridPoint_digitLimit x
    have hnone : x.neighbour? (x.exactLength - digitLimit) = none :=
      List.findSome?_eq_none_iff.1 hfound 16 (List.mem_range.2 (by decide))
    exact absurd hc (not_nearest_of_neighbour? hx hnone c)
  | some d' =>
    rw [hfound, Option.getD_some] at hd
    obtain ⟨k, -, hk, hbefore⟩ := findSome?_range hfound
    exact ⟨k, hd ▸ hk, hbefore⟩

/-- The decimal that is written for a finite number is the shortest, and no zero at its end could be
left out. -/
theorem shortest_spec (hx : x.isFinite) (hd : x.shortest = d) :
    Shortest x (decimalValue d) ∧ (d.2 ≠ 0 → d.1 % 10 ≠ 0) := by
  obtain ⟨k, hk, hbefore⟩ := neighbour?_of_shortest hx hd
  obtain ⟨c, hc, rfl, hbest⟩ := gridBest_of_neighbour? hx hk
  constructor
  · rw [decimalValue_truncated]
    exact shortest_of_gridBest hc hbest fun j hj => not_nearest_of_neighbour? hx (hbefore j hj)
  · exact Decimal.dropZeros_mod _ _

/-- How a number that is not NaN is written: the shortest decimal as a numeral without needless zeros
at either end, or a word, after a sign if the sign bit is set. -/
structure Written (x : Binary64) (s : List Char) : Prop where
  infinite : x.isInfinite → s = withSign x.isNegative ['i', 'n', 'f']
  finite : x.isFinite → ∃ whole fraction coefficient,
    s = withSign x.isNegative (Decimal.spell whole fraction) ∧
      Decimal.Numeral whole fraction coefficient ∧ (fraction ≠ [] → coefficient % 10 ≠ 0) ∧
      x.Shortest (coefficient / 10 ^ fraction.length)

theorem written_toText (x : Binary64) : x.Written x.toText := by
  refine ⟨toText_of_isInfinite, fun hx => ?_⟩
  obtain ⟨d, hd⟩ : ∃ d, x.shortest = d := ⟨_, rfl⟩
  obtain ⟨hshortest, hzeros⟩ := shortest_spec hx hd
  obtain ⟨whole, fraction, hspell, hlength, hnumeral⟩ := Decimal.exists_numeral d.1 d.2
  refine ⟨whole, fraction, d.1, ?_, hnumeral, fun hne => hzeros ?_, ?_⟩
  · rw [toText_of_isFinite hx hd, hspell]
  · rw [← hlength]
    exact fun hnil => hne (List.length_eq_zero_iff.1 hnil)
  · rw [hlength]
    exact hshortest

end Binary64

end Worksheet
