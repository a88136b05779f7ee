import Worksheet.Token

/-!
From text to tokens. The operators and parentheses cut the text into pieces; a piece, less the
blanks around it, is nothing, a number or a variable. Every token found is well formed.
-/

namespace Worksheet.Token

/-- The token that a cutting character stands for. -/
def mark? : Char → Option Token
  | '(' => some left
  | ')' => some right
  | '+' => some (operator .add)
  | '-' => some (operator .sub)
  | '*' => some (operator .mul)
  | '/' => some (operator .div)
  | _ => none

/-- The text before the first mark, and each mark with the text that follows it. -/
structure Pieces where
  first : List Char
  marked : List (Token × List Char)

namespace Pieces

/-- Puts one more character in front. -/
def cons (c : Char) (p : Pieces) : Pieces :=
  match mark? c with
  | some mark => { first := [], marked := (mark, p.first) :: p.marked }
  | none => { p with first := c :: p.first }

def ofText (s : List Char) : Pieces :=
  s.foldr cons { first := [], marked := [] }

end Pieces

/-- The token that a trimmed piece spells; the empty piece spells none. -/
def ofWord (word : List Char) : Except SyntaxError (List Token) :=
  if word.isEmpty then .ok []
  else if Text.isNumeral word then .ok [number (String.ofList word)]
  else if isVariableText word then .ok [var (String.ofList word)]
  else .error (.illegalToken (String.ofList word))

/-- The token in a piece between two marks, if there is anything but blanks in it. -/
def ofPiece (piece : List Char) : Except SyntaxError (List Token) :=
  ofWord (Text.trim piece)

/-- A mark and the token in the piece after it. -/
def ofMarked (marked : Token × List Char) : Except SyntaxError (List Token) :=
  (ofPiece marked.2).map (marked.1 :: ·)

/-- The tokens of an expression, or the first piece that is none. -/
def scan (s : String) : Except SyntaxError (List Token) := do
  let pieces := Pieces.ofText s.toList
  let first ← ofPiece pieces.first
  let rest ← pieces.marked.mapM ofMarked
  return first ++ rest.flatten

theorem wellFormed_of_mark? {c : Char} {t : Token} (h : mark? c = some t) : t.WellFormed := by
  unfold mark? at h
  split at h <;> simp_all [WellFormed] <;> subst h <;> trivial

theorem wellFormed_of_ofPiece {piece : List Char} {ts : List Token} (h : ofPiece piece = .ok ts) :
    ∀ t ∈ ts, t.WellFormed := by
  unfold ofPiece ofWord at h
  split at h
  · cases h; simp
  · split at h
    · cases h; simp_all [WellFormed]
    · split at h
      · cases h; simp_all [WellFormed]
      · cases h

theorem wellFormed_of_ofText {s : List Char} :
    ∀ m ∈ (Pieces.ofText s).marked, m.1.WellFormed := by
  induction s with
  | nil => simp [Pieces.ofText]
  | cons c s ih =>
    have hcons : Pieces.ofText (c :: s) = (Pieces.ofText s).cons c := rfl
    rw [hcons, Pieces.cons]
    split
    · next mark hmark =>
      intro m hm
      rcases List.mem_cons.1 hm with rfl | hm
      · exact wellFormed_of_mark? hmark
      · exact ih m hm
    · exact ih

theorem wellFormed_of_ofMarked {m : Token × List Char} (hm : m.1.WellFormed) {ts : List Token}
    (h : ofMarked m = .ok ts) : ∀ t ∈ ts, t.WellFormed := by
  unfold ofMarked at h
  cases hp : ofPiece m.2 with
  | error e => simp [hp, Except.map] at h
  | ok us =>
    simp only [hp, Except.map, Except.ok.injEq] at h
    subst h
    intro t ht
    rcases List.mem_cons.1 ht with rfl | ht
    · exact hm
    · exact wellFormed_of_ofPiece hp t ht

theorem wellFormed_of_mapM {ms : List (Token × List Char)} (hms : ∀ m ∈ ms, m.1.WellFormed)
    {rest : List (List Token)} (h : ms.mapM ofMarked = .ok rest) :
    ∀ t ∈ rest.flatten, t.WellFormed := by
  induction ms generalizing rest with
  | nil =>
    rw [List.mapM_nil] at h
    cases h
    simp
  | cons m ms ih =>
    rw [List.mapM_cons] at h
    cases hm : ofMarked m with
    | error e => simp [hm, bind, Except.bind] at h
    | ok ts =>
      cases hr : ms.mapM ofMarked with
      | error e => simp [hm, hr, bind, Except.bind] at h
      | ok us =>
        simp only [hm, hr, bind, Except.bind, pure, Except.pure, Except.ok.injEq] at h
        subst h
        intro t ht
        rw [List.flatten_cons, List.mem_append] at ht
        rcases ht with ht | ht
        · exact wellFormed_of_ofMarked (hms m (by simp)) hm t ht
        · exact ih (fun m hm => hms m (by simp [hm])) hr t ht

/-- Numbers and variables that are found are spelled as such. -/
theorem wellFormed_of_scan {s : String} {ts : List Token} (h : scan s = .ok ts) :
    ∀ t ∈ ts, t.WellFormed := by
  unfold scan at h
  simp only [bind, Except.bind, pure, Except.pure] at h
  cases hf : ofPiece (Pieces.ofText s.toList).first with
  | error e => simp [hf] at h
  | ok first =>
    cases hr : (Pieces.ofText s.toList).marked.mapM ofMarked with
    | error e => simp [hf, hr] at h
    | ok rest =>
      simp only [hf, hr, Except.ok.injEq] at h
      subst h
      intro t ht
      rcases List.mem_append.1 ht with ht | ht
      · exact wellFormed_of_ofPiece hf t ht
      · exact wellFormed_of_mapM wellFormed_of_ofText hr t ht

end Worksheet.Token
