import Mathlib.Order.WellFounded
import Worksheet.Proofs.Formula.Text
import Worksheet.Proofs.Sheet.Edit
import Worksheet.Value

/-!
The values of the cells of a sheet, from its contents alone.

References in a consistent sheet are well founded (`wellFounded_refersTo`): there are finitely many
and no loop. `Sheet.valueOf` goes down along them. It is the only assignment of values in which each
cell has the value of its content (`valueOf_eq`, `eq_valueOf`).
-/

namespace Worksheet

open Relation

/-- The value of a content depends on nothing but the values of what it refers to. -/
theorem Value.ofContent_congr {values values' : String → Value} {c : Content}
    (h : ∀ name ∈ c.references, values name = values' name) :
    Value.ofContent values c = Value.ofContent values' c := by
  cases c with
  | number x => rfl
  | text s => rfl
  | formula f =>
    have hlookup : ∀ name ∈ f.references, (values name).resolve = (values' name).resolve :=
      fun name hname => congrArg Value.resolve (h name (Std.ExtTreeSet.mem_toList.2 hname))
    rw [Value.ofContent, Value.ofContent, Formula.evaluate_congr f hlookup]

theorem Value.isEmpty_iff {v : Value} : v.isEmpty ↔ v = empty := by
  cases v with
  | empty => simp [isEmpty]
  | number _ | integer _ | text _ | error _ => simp [isEmpty]

/-- Only an empty content has no value. -/
theorem Value.isEmpty_ofContent (values : String → Value) (c : Content) :
    (Value.ofContent values c).isEmpty = c.isEmpty := by
  cases c with
  | number x => rfl
  | text s =>
    rw [Value.ofContent, Content.isEmpty]
    cases s.isEmpty <;> rfl
  | formula f =>
    rw [Value.ofContent]
    split <;> rfl

/-- A relation without loops that holds of finitely many pairs is well founded. -/
theorem wellFounded_of_acyclic {α : Type*} [DecidableEq α] {r : α → α → Prop} (E : Finset (α × α))
    (hE : ∀ u v, r u v → (u, v) ∈ E) (hr : ∀ a, ¬ TransGen r a a) : WellFounded r := by
  classical
  -- what lies before a point grows with every step
  let before (v : α) : Finset α := (E.image Prod.fst).filter fun u => TransGen r u v
  refine Subrelation.wf (r := InvImage (· < ·) fun v => (before v).card) ?_
    (InvImage.wf _ Nat.lt_wfRel.wf)
  intro u v huv
  refine Finset.card_lt_card ((Finset.ssubset_iff_of_subset fun a ha => ?_).2 ⟨u, ?_, ?_⟩)
  · rw [Finset.mem_filter] at ha ⊢
    exact ⟨ha.1, ha.2.tail huv⟩
  · rw [Finset.mem_filter]
    exact ⟨Finset.mem_image_of_mem Prod.fst (hE u v huv), .single huv⟩
  · rw [Finset.mem_filter]
    exact fun hu => hr u hu.2

namespace Sheet

variable {s : Sheet}

theorem wellFounded_refersTo (hs : s.Consistent) : WellFounded s.RefersTo := by
  obtain ⟨E, _, href⟩ := hs.represents
  refine wellFounded_of_acyclic E (fun u v h => (href u v).2 h) fun a haa => ?_
  exact hs.acyclic a (edge_eq_refersTo hs ▸ haa)

/-- The values of the cells, by recursion along the references in the contents. -/
noncomputable def valueOf (s : Sheet) (hwf : WellFounded s.RefersTo) : String → Value :=
  open Classical in
  hwf.fix fun cell values =>
    Value.ofContent
      (fun name => if hname : s.RefersTo name cell then values name hname else .empty)
      (s.contentAt cell)

/-- The value of a cell is that of its content, with the values of the other cells. -/
theorem valueOf_eq (hwf : WellFounded s.RefersTo) (cell : String) :
    s.valueOf hwf cell = Value.ofContent (s.valueOf hwf) (s.contentAt cell) := by
  rw [valueOf, hwf.fix_eq]
  refine Value.ofContent_congr fun name hname => ?_
  exact dif_pos hname

/-- Nothing else has this property. -/
theorem eq_valueOf (hwf : WellFounded s.RefersTo) {values : String → Value}
    (hvalues : ∀ cell, values cell = Value.ofContent values (s.contentAt cell)) (cell : String) :
    values cell = s.valueOf hwf cell := by
  induction cell using hwf.induction with
  | _ cell ih =>
    rw [hvalues, valueOf_eq]
    exact Value.ofContent_congr fun name hname => ih name hname

end Sheet

end Worksheet
