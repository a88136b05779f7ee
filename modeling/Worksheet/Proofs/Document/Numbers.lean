import Mathlib
import Worksheet.Proofs.Document.Contents
import Worksheet.Proofs.Document.Reentry
import Worksheet.Proofs.Number.Display
import Worksheet.Proofs.Number.Shortest

/-!
Cells with numbers.

A formula sees such a cell exactly or not at all: as the integer that the number is, if it is one of
64 bits, and otherwise not (`resolve_number`). What a user has to type for the cell is the shortest
decimal that is read as the number, and this is read as the number with the same bits, and never as
anything else (`cellInput_number`).
-/

namespace Worksheet

namespace Binary64

variable {x : Binary64}

/-- A number outside of the range, or that is no integer, has no 64-bit integer that it equals. -/
theorem toInt64?_eq_none (h : x.isFinite = false ∨ (∀ k : Int, x.dyadic ≠ k) ∨
    x.dyadic < -int64End ∨ int64End ≤ x.dyadic) : x.toInt64? = none := by
  by_contra hsome
  obtain ⟨v, hv⟩ := Option.ne_none_iff_exists'.1 hsome
  obtain ⟨hfinite, k, hk, hlow, hhigh⟩ := isInt64_of_toInt64? hv
  rw [toRat_eq_dyadic] at hk
  rcases h with h | h | h | h
  · rw [hfinite] at h
    cases h
  · exact h k hk
  · rw [hk] at h
    have : k < -int64End := by exact_mod_cast h
    omega
  · rw [hk] at h
    have : int64End ≤ k := by exact_mod_cast h
    omega

end Binary64

namespace Value

theorem resolve_number_eq_ok_iff_toInt64? {x : Binary64} {v : Int64} :
    (Value.number x).resolve = .ok v ↔ x.toInt64? = some v := by
  rw [resolve]
  cases x.toInt64? with
  | none => constructor <;> intro h <;> cases h
  | some k => rw [Except.ok.injEq, Option.some.injEq]

theorem resolve_number_eq_ok_iff {x : Binary64} {v : Int64} :
    (Value.number x).resolve = .ok v ↔ x.isFinite ∧ x.dyadic = v.toInt := by
  rw [resolve_number_eq_ok_iff_toInt64?, Binary64.toInt64?_eq_some_iff, Binary64.toRat_eq_dyadic]

theorem resolve_number_eq_error {x : Binary64} (h : x.toInt64? = none) :
    (Value.number x).resolve = .error (String.ofList x.toText ++ " is not an integer") := by
  rw [resolve, h]

end Value

namespace Document

variable {d : Document} {name cell : String} {x : Binary64}

/-! ## What formulas see -/

/-- A number that is kept as a value is seen by formulas as the integer `k` if it is finite, its exact
value is `k` and `k` is in the range of 64 bits, and only then. If it is no number, infinite, not
whole or out of range, then it is not seen at all. This is what the comparison with the ends of the
range does: the conversion behind it never has to cut off. -/
theorem resolve_number (h : d.values[cell]? = some (.number x)) :
    (∀ k : Int, (∃ v : Int64, (d.valueAt cell).resolve = .ok v ∧ v.toInt = k) ↔
      x.isFinite ∧ x.dyadic = k ∧ FitsInt64 k) ∧
    (x.isNaN ∨ x.isInfinite ∨ (∀ k : Int, x.dyadic ≠ k) ∨
        x.dyadic < -int64End ∨ int64End ≤ x.dyadic →
      (d.valueAt cell).resolve = .error (String.ofList x.toText ++ " is not an integer")) ∧
    ∀ v : Int64, (d.valueAt cell).resolve = .ok v ↔ x.saturated? = some v := by
  rw [valueAt_of_getElem? h]
  refine ⟨fun k => ⟨?_, ?_⟩, fun hbad => Value.resolve_number_eq_error (Binary64.toInt64?_eq_none ?_),
    fun v => by rw [Binary64.saturated?_eq_toInt64?, Value.resolve_number_eq_ok_iff_toInt64?]⟩
  · rintro ⟨v, hv, rfl⟩
    obtain ⟨hfinite, hvalue⟩ := Value.resolve_number_eq_ok_iff.1 hv
    exact ⟨hfinite, hvalue, fitsInt64_toInt v⟩
  · rintro ⟨hfinite, hvalue, hrange⟩
    have hk : (Int64.ofInt k).toInt = k := Int64.toInt_ofInt_of_le hrange.1 hrange.2
    exact ⟨Int64.ofInt k, Value.resolve_number_eq_ok_iff.2 ⟨hfinite, by rw [hk, hvalue]⟩, hk⟩
  · rcases hbad with hnan | hinfinite | hbad
    · rw [Binary64.isNaN_iff] at hnan
      rw [← Bool.not_eq_true, Binary64.isFinite_iff]
      exact .inl fun h => h hnan.1
    · rw [Binary64.isInfinite_iff] at hinfinite
      rw [← Bool.not_eq_true, Binary64.isFinite_iff]
      exact .inl fun h => h hinfinite.1
    · exact .inr hbad

/-- Negative zero, the least integer, the number next to the end of the range, and the end. -/
def ends : List Action :=
  [.content .sorted "A1" (.number ⟨0x8000000000000000⟩),
    .content .sorted "A2" (.number ⟨0xC3E0000000000000⟩),
    .content .sorted "A3" (.number ⟨0x43DFFFFFFFFFFFFF⟩),
    .content .sorted "A4" (.number ⟨0x43E0000000000000⟩)]

theorem resolve_number_ends :
    (run {} ends).values["A1"]? = some (.number ⟨0x8000000000000000⟩) ∧
      (∃ v : Int64, ((run {} ends).valueAt "A1").resolve = .ok v ∧ v.toInt = 0) ∧
    (run {} ends).values["A2"]? = some (.number ⟨0xC3E0000000000000⟩) ∧
      (∃ v : Int64, ((run {} ends).valueAt "A2").resolve = .ok v ∧ v.toInt = -int64End) ∧
    (run {} ends).values["A3"]? = some (.number ⟨0x43DFFFFFFFFFFFFF⟩) ∧
      (∃ v : Int64, ((run {} ends).valueAt "A3").resolve = .ok v ∧ v.toInt = int64End - 1024) ∧
    (run {} ends).values["A4"]? = some (.number ⟨0x43E0000000000000⟩) ∧
      int64End ≤ (⟨0x43E0000000000000⟩ : Binary64).dyadic ∧
      ((run {} ends).valueAt "A4").resolve = .error "9223372036854776000 is not an integer" := by
  have hA1 : (run {} ends).values["A1"]? = some (.number ⟨0x8000000000000000⟩) := by cbv
  have hA2 : (run {} ends).values["A2"]? = some (.number ⟨0xC3E0000000000000⟩) := by cbv
  have hA3 : (run {} ends).values["A3"]? = some (.number ⟨0x43DFFFFFFFFFFFFF⟩) := by cbv
  have hA4 : (run {} ends).values["A4"]? = some (.number ⟨0x43E0000000000000⟩) := by cbv
  have hvalue : ∀ {x : Binary64} {v : Int64}, x.toInt64? = some v → x.isFinite ∧ x.dyadic = v.toInt := by
    intro x v h
    rw [← Binary64.toRat_eq_dyadic]
    exact Binary64.toInt64?_eq_some_iff.1 h
  have hbeyond : int64End ≤ (⟨0x43E0000000000000⟩ : Binary64).dyadic := by
    have hx : (⟨0x43E0000000000000⟩ : Binary64).isFinite := by decide +kernel
    have hwhole : (⟨0x43E0000000000000⟩ : Binary64).whole? = some (2 ^ 63) := by decide +kernel
    have hpositive : (⟨0x43E0000000000000⟩ : Binary64).isNegative = false := by decide +kernel
    rw [Binary64.dyadic_eq, hpositive, if_neg Bool.false_ne_true,
      (Binary64.whole?_eq_some_iff_abs hx).1 hwhole, int64End_eq]
    norm_num
  have htext : (⟨0x43E0000000000000⟩ : Binary64).toText = "9223372036854776000".toList := by
    decide +kernel
  have hzero := hvalue (x := ⟨0x8000000000000000⟩) (v := 0) (by decide +kernel)
  have hleast := hvalue (x := ⟨0xC3E0000000000000⟩) (v := Int64.minValue) (by decide +kernel)
  have hnext := hvalue (x := ⟨0x43DFFFFFFFFFFFFF⟩) (v := 9223372036854774784) (by decide +kernel)
  refine ⟨hA1, (resolve_number hA1).1 0 |>.2 ⟨hzero.1, hzero.2, by decide, by decide⟩,
    hA2, (resolve_number hA2).1 _ |>.2 ⟨hleast.1, hleast.2, by decide, by decide⟩,
    hA3, (resolve_number hA3).1 _ |>.2 ⟨hnext.1, hnext.2, by decide, by decide⟩, hA4, hbeyond, ?_⟩
  rw [(resolve_number hA4).2.1 (.inr (.inr (.inr (.inr hbeyond)))), htext]
  decide

/-! ## What is typed for a cell -/

/-- What stands for a cell with a number that is not NaN is the shortest decimal that is read as the
number, or the word for infinity, and it is read as a number with the same bits. It is not empty, not
a formula, not in quotes, and nothing is trimmed off. -/
theorem cellInput_number (hnan : x.isNaN = false) (hcontent : d.content name = .ok (.number x)) :
    ∃ input, d.cellInput name = .ok input ∧ x.Written input.toList ∧
      d.parseInput input = .ok (.number x) ∧ Binary64.parse? input.toList = some x ∧
      input.toList ≠ [] ∧ input.toList.head? ≠ some '=' ∧ Input.isQuoted input.toList = false ∧
      Text.trim input.toList = input.toList := by
  refine ⟨String.ofList x.toText, ?_, ?_, Input.parse_number _ hnan, ?_⟩
  · rw [cellInput, hcontent]
    rfl
  · rw [String.toList_ofList]
    exact x.written_toText
  · rw [String.toList_ofList]
    refine ⟨Binary64.parse?_toText hnan, ?_, Input.head?_toText_ne hnan, Input.isQuoted_toText hnan,
      Input.trim_toText hnan⟩
    intro hempty
    have hnothing : Binary64.parse? [] = none := by decide
    have hparse := Binary64.parse?_toText hnan
    rw [hempty, hnothing] at hparse
    cases hparse

/-- The number nearest to -0.1. -/
def tenth : List Action := [.content .sorted "a1" (.number ⟨0xBFB999999999999A⟩)]

theorem cellInput_number_tenth :
    (⟨0xBFB999999999999A⟩ : Binary64).isNaN = false ∧
      (run {} tenth).content "A1" = .ok (.number ⟨0xBFB999999999999A⟩) ∧
      (run {} tenth).cellInput "A1" = .ok "-0.1" ∧
      (⟨0xBFB999999999999A⟩ : Binary64).Written "-0.1".toList ∧
      (run {} tenth).parseInput "-0.1" = .ok (.number ⟨0xBFB999999999999A⟩) := by
  have hnan : (⟨0xBFB999999999999A⟩ : Binary64).isNaN = false := by decide +kernel
  have hcontent : (run {} tenth).content "A1" = .ok (.number ⟨0xBFB999999999999A⟩) := by cbv
  have htext : (⟨0xBFB999999999999A⟩ : Binary64).toText = "-0.1".toList := by decide +kernel
  have hinput : (run {} tenth).cellInput "A1" = .ok "-0.1" := by
    rw [cellInput, hcontent, Except.map, Input.ofContent, htext, String.ofList_toList]
  obtain ⟨input, hinput', hwritten, hparse, -⟩ := cellInput_number hnan hcontent
  rw [hinput, Except.ok.injEq] at hinput'
  subst hinput'
  exact ⟨hnan, hcontent, hinput, hwritten, hparse⟩

end Document

end Worksheet
