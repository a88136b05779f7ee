import Worksheet.Toml.Reader
import Worksheet.Text

/-!
What readers make of a text whose front is known.

Each lemma says of one reader that it takes what stands in front of the text and leaves the rest, or
that it refuses. Readers in a row are run one after the other (`bind_eq`). A loop takes a row of
items, one in each round, and then stops (`loop_rounds`): as no item is empty, there cannot be more
rounds than a loop may have.
-/

namespace Worksheet.Toml

namespace Reader

variable {α β σ : Type} {p q : Reader α} {s t rest : List Char} {a : α}

/-! ## Readers in a row -/

theorem bind_eq (h : p s = some (a, rest)) (f : α → Reader β) : (p >>= f) s = f a rest := by
  show (p s).bind (fun r => f r.1 r.2) = f a rest
  rw [h]
  rfl

theorem bind_eq_none (h : p s = none) (f : α → Reader β) : (p >>= f) s = none := by
  show (p s).bind (fun r => f r.1 r.2) = none
  rw [h]
  rfl

/-- What two readers in a row take, the first of them takes a part of. -/
theorem exists_of_bind {f : α → Reader β} {b : β} (h : (p >>= f) s = some (b, rest)) :
    ∃ a s', p s = some (a, s') ∧ f a s' = some (b, rest) := by
  obtain ⟨⟨a, s'⟩, hp, hf⟩ := Option.bind_eq_some_iff.1
    (show (p s).bind (fun r => f r.1 r.2) = some (b, rest) from h)
  exact ⟨a, s', hp, hf⟩

theorem bind_eq_none_of_forall {f : α → Reader β}
    (h : ∀ a s', p s = some (a, s') → f a s' = none) : (p >>= f) s = none :=
  Option.bind_eq_none_iff.2 fun r hr => h r.1 r.2 hr

theorem orElse_eq (h : p s = some (a, rest)) : (p <|> q) s = some (a, rest) := by
  show (p s <|> q s) = some (a, rest)
  rw [h]
  rfl

theorem orElse_of_none (h : p s = none) : (p <|> q) s = q s := by
  show (p s <|> q s) = q s
  rw [h]
  rfl

theorem discard_eq (h : p s = some (a, rest)) : (discard p) s = some ((), rest) := by
  show (p s).bind (fun r => some ((), r.2)) = some ((), rest)
  rw [h]
  rfl

theorem exists_of_discard (h : (discard p) s = some ((), rest)) : ∃ a, p s = some (a, rest) := by
  obtain ⟨⟨a, s'⟩, hp, hrest⟩ := Option.bind_eq_some_iff.1
    (show (p s).bind (fun r => some ((), r.2)) = some ((), rest) from h)
  cases hrest
  exact ⟨a, hp⟩

theorem discard_of_none (h : p s = none) : (discard p) s = none := by
  show (p s).bind (fun r => some ((), r.2)) = none
  rw [h]
  rfl

theorem attempt_eq (h : p s = some (a, rest)) : attempt p s = some (some a, rest) := by
  rw [attempt, h]

theorem attempt_of_none (h : p s = none) : attempt p s = some (none, s) := by
  rw [attempt, h]

theorem pure_eq (a : α) (s : List Char) : (pure a : Reader α) s = some (a, s) :=
  rfl

theorem ensure_eq {b : Bool} (h : b) (s : List Char) : ensure b s = some ((), s) :=
  if_pos h

theorem peek_eq (s : List Char) : peek s = some (s.head?, s) :=
  rfl

/-! ## Characters and runs of them -/

theorem satisfying_cons {f : Char → Bool} {c : Char} (hc : f c) (s : List Char) :
    satisfying f (c :: s) = some (c, s) :=
  if_pos hc

theorem satisfying_of_head? {f : Char → Bool} (h : ∀ c ∈ s.head?, f c = false) :
    satisfying f s = none := by
  cases s with
  | nil => rfl
  | cons c s => rw [satisfying, h c rfl, if_neg Bool.false_ne_true]

theorem eq_cons_of_satisfying {f : Char → Bool} {c : Char} (h : satisfying f s = some (c, rest)) :
    s = c :: rest ∧ f c := by
  cases s with
  | nil => cases h
  | cons d s =>
    rw [satisfying] at h
    split at h
    · next hd =>
      cases h
      exact ⟨rfl, hd⟩
    · cases h

theorem char_cons (c : Char) (s : List Char) : char c (c :: s) = some ((), s) :=
  discard_eq (satisfying_cons (beq_self_eq_true c) s)

theorem char_of_head? {c : Char} (h : s.head? ≠ some c) : char c s = none := by
  refine discard_of_none (satisfying_of_head? fun d hd => ?_)
  rw [beq_eq_false_iff_ne]
  rintro rfl
  exact h hd

theorem skip_cons (c : Char) (s : List Char) : skip c (c :: s) = some (true, s) := by
  show (attempt (char c) (c :: s)).bind (fun r => some (r.1.isSome, r.2)) = some (true, s)
  rw [attempt_eq (char_cons c s)]
  rfl

theorem skip_of_head? {c : Char} (h : s.head? ≠ some c) : skip c s = some (false, s) := by
  show (attempt (char c) s).bind (fun r => some (r.1.isSome, r.2)) = some (false, s)
  rw [attempt_of_none (char_of_head? h)]
  rfl

theorem takeWhile_append {f : Char → Bool} (ht : ∀ c ∈ t, f c) (hs : ∀ c ∈ s.head?, f c = false) :
    takeWhile f (t ++ s) = some (t, s) := by
  obtain ⟨htake, hdrop⟩ := Text.takeWhile_run ht s hs
  rw [takeWhile, htake, hdrop]

theorem skipWhile_append {f : Char → Bool} (ht : ∀ c ∈ t, f c) (hs : ∀ c ∈ s.head?, f c = false) :
    skipWhile f (t ++ s) = some ((), s) := by
  rw [skipWhile, (Text.takeWhile_run ht s hs).2]

/-! ## Loops -/

variable {ι : Type} {step : σ → Reader (Round σ α)} {spell : ι → List Char}

theorem loopWithin_rounds (next : σ → ι → σ) {items : List ι} (hne : ∀ i ∈ items, spell i ≠ [])
    (hround : ∀ i ∈ items, ∀ state s,
      step state (spell i ++ s) = some (.again (next state i), s))
    {state : σ} (hstop : step (items.foldl next state) s = some (.stop a, rest))
    {bound : List Char} (hbound : (items.flatMap spell ++ s).length ≤ bound.length) :
    loopWithin step bound state (items.flatMap spell ++ s) = some (a, rest) := by
  induction items generalizing state bound with
  | nil =>
    rw [List.foldl_nil] at hstop
    unfold loopWithin
    rw [List.flatMap_nil, List.nil_append, hstop]
  | cons i items ih =>
    have hpos : 0 < (spell i).length := List.length_pos_iff.2 (hne i List.mem_cons_self)
    rw [List.flatMap_cons, List.append_assoc] at hbound ⊢
    rw [List.length_append] at hbound
    obtain ⟨b, bound', rfl⟩ := List.exists_cons_of_length_pos (l := bound) (by omega)
    rw [List.length_cons] at hbound
    unfold loopWithin
    rw [hround i List.mem_cons_self]
    exact ih (fun k hk => hne k (List.mem_cons_of_mem i hk))
      (fun k hk => hround k (List.mem_cons_of_mem i hk)) hstop (by omega)

/-- A loop takes items one after the other, if each of them makes for a round and is not empty, and
ends where the next round stops. -/
theorem loop_rounds (next : σ → ι → σ) {items : List ι} (hne : ∀ i ∈ items, spell i ≠ [])
    (hround : ∀ i ∈ items, ∀ state s,
      step state (spell i ++ s) = some (.again (next state i), s))
    {state : σ} (hstop : step (items.foldl next state) s = some (.stop a, rest)) :
    loop step state (items.flatMap spell ++ s) = some (a, rest) :=
  loopWithin_rounds next hne hround hstop (Nat.le_refl _)

/-- A loop that stops at once. -/
theorem loop_stop {state : σ} (hstop : step state s = some (.stop a, rest)) :
    loop step state s = some (a, rest) := by
  unfold loop loopWithin
  rw [hstop]

/-- Single characters that are accepted are taken, up to a place where the reader refuses. -/
theorem many_append {p : Reader Char} (ht : ∀ c ∈ t, ∀ s, p (c :: s) = some (c, s))
    (hs : p s = none) : many p (t ++ s) = some (t, s) := by
  have htext : t ++ s = t.flatMap (fun c => [c]) ++ s := by simp
  have htaken : t.foldl (fun taken c => c :: taken) [] = t.reverse := by simp
  unfold many
  rw [htext]
  refine loop_rounds (fun taken c => c :: taken) (fun c _ => List.cons_ne_nil c [])
    (fun c hc taken s' => ?_) ?_
  · rw [List.singleton_append, bind_eq (attempt_eq (ht c hc s'))]
    rfl
  · rw [htaken, bind_eq (attempt_of_none hs)]
    show some (Round.stop t.reverse.reverse, s) = some (Round.stop t, s)
    rw [List.reverse_reverse]

end Reader

end Worksheet.Toml
