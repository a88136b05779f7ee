import Worksheet.Proofs.Token.Spacing

/-!
What a text is scanned to.

`Token.Spells ts s` says that the text `s` is a spelling of the tokens `ts`: their texts with blanks
around them, each spelled as it should be, and no two operands side by side. Scanning finds the
tokens that are spelled. If the text spells none, the answer is the leftmost of the pieces between
its marks that is not blank and, less the blanks around it, neither a numeral nor a variable
(`scan_lexical`).

A text is a run without marks, or such a run, a mark and another text (`mark_induction`). Scanning
follows this form (`scan_of_markless`, `scan_append_mark`), and so do the pieces of a text
(`pieceAt_of_markless`, `pieceAt_append_mark`).
-/

namespace Worksheet

/-- Trimming takes off blanks only. -/
theorem Text.exists_trim (s : List Char) :
    ∃ left right, IsBlanks left ∧ IsBlanks right ∧ s = left ++ (trim s ++ right) := by
  let rest := s.dropWhile isBlank
  refine ⟨s.takeWhile isBlank, (rest.reverse.takeWhile isBlank).reverse, ?_, ?_, ?_⟩
  · exact List.all_eq_true.1 List.all_takeWhile
  · intro c hc
    exact List.all_eq_true.1 List.all_takeWhile c (List.mem_reverse.1 hc)
  · have hrest : trim s ++ (rest.reverse.takeWhile isBlank).reverse = rest := by
      rw [trim, ← List.reverse_append, List.takeWhile_append_dropWhile, List.reverse_reverse]
    rw [hrest, List.takeWhile_append_dropWhile]

namespace Token

variable {l s before piece : List Char} {c : Char} {t : Token} {ts : List Token}

/-! ## Texts between marks -/

/-- There is no mark in the text. -/
def Markless (l : List Char) : Prop :=
  ∀ c ∈ l, mark? c = none

/-- A text is a run without marks, or such a run, a mark and another text. -/
@[elab_as_elim]
theorem mark_induction {motive : List Char → Prop} (last : ∀ l, Markless l → motive l)
    (step : ∀ l c t s, Markless l → mark? c = some t → motive s → motive (l ++ c :: s))
    (s : List Char) : motive s := by
  have hfrom : ∀ l, Markless l → motive (l ++ s) := by
    induction s with
    | nil =>
      intro l hl
      rw [List.append_nil]
      exact last l hl
    | cons c s ih =>
      intro l hl
      cases hc : mark? c with
      | some t => exact step l c t s hl hc (ih [] fun c hc => absurd hc List.not_mem_nil)
      | none =>
        have hlc : Markless (l ++ [c]) := by
          intro d hd
          rcases List.mem_append.1 hd with hd | hd
          · exact hl d hd
          · rw [List.mem_singleton.1 hd, hc]
        have := ih (l ++ [c]) hlc
        rwa [List.append_assoc] at this
  exact hfrom [] fun c hc => absurd hc List.not_mem_nil

/-- `piece` is the part of the text between two marks, or between a mark and an end, and `before`
all that stands in front of it. -/
structure PieceAt (s before piece : List Char) : Prop where
  begins : ∀ c ∈ before.getLast?, mark? c ≠ none
  markless : Markless piece
  ends : ∃ after, s = before ++ (piece ++ after) ∧ ∀ c ∈ after.head?, mark? c ≠ none

theorem pieceAt_of_markless (hl : Markless l) :
    PieceAt l before piece ↔ before = [] ∧ piece = l := by
  constructor
  · rintro ⟨hbegins, -, after, rfl, hends⟩
    have hbefore : before = [] := by
      by_contra hne
      have hlast := List.getLast_mem hne
      exact hbegins _ (List.getLast?_eq_some_getLast hne) (hl _ (List.mem_append_left _ hlast))
    have hafter : after = [] := by
      rcases after with _ | ⟨c, after⟩
      · rfl
      · exact absurd (hl c (by simp)) (hends c rfl)
    simp [hbefore, hafter]
  · rintro ⟨rfl, rfl⟩
    exact ⟨by simp, hl, [], by simp, by simp⟩

/-- The first piece ends at the first mark; the others are those of the text behind it. -/
theorem pieceAt_append_mark (hl : Markless l) (hc : mark? c = some t) :
    PieceAt (l ++ c :: s) before piece ↔
      (before = [] ∧ piece = l) ∨ ∃ start, before = l ++ c :: start ∧ PieceAt s start piece := by
  have hmark : mark? c ≠ none := by simp [hc]
  constructor
  · rintro ⟨hbegins, hpiece, after, htext, hends⟩
    rcases List.eq_nil_or_concat before with rfl | ⟨init, d, rfl⟩
    · -- the piece neither ends before the mark nor reaches beyond it
      rw [List.nil_append] at htext
      rcases append_cons_split htext with ⟨m, hm, hrest⟩ | ⟨start, hpiece', -⟩
      · rcases m with _ | ⟨d, m⟩
        · exact .inl ⟨rfl, by simpa using hm.symm⟩
        · exact absurd (hl d (by simp [hm])) (hends d (by simp [hrest]))
      · exact absurd (hpiece c (by simp [hpiece'])) hmark
    · have hd : mark? d ≠ none := hbegins d (by simp)
      rcases append_cons_split htext with ⟨m, hm, -⟩ | ⟨start, hbefore, rfl⟩
      · exact absurd (hl d (by simp [hm])) hd
      · refine .inr ⟨start, hbefore, fun e he => hbegins e ?_, hpiece, after, rfl, hends⟩
        rw [hbefore]
        simp [List.getLast?_cons, Option.mem_def.1 he]
  · rintro (⟨rfl, rfl⟩ | ⟨start, rfl, hbegins, hpiece, after, rfl, hends⟩)
    · exact ⟨by simp, hl, c :: s, by simp, by simpa using hmark⟩
    · refine ⟨fun e he => ?_, hpiece, after, by simp, hends⟩
      rcases hstart : start.getLast? with _ | d
      · simp [List.getLast?_cons, hstart] at he
        exact he ▸ hmark
      · simp [List.getLast?_cons, hstart] at he
        exact he ▸ hbegins d hstart

/-! ## Scanning from mark to mark -/

theorem scan_of_markless (hl : Markless l) : scan (String.ofList l) = ofPiece l := by
  have hpieces : Pieces.ofText l = { first := l, marked := [] } := by
    simpa [Pieces.ofText] using ofText_append hl []
  rw [scan, String.toList_ofList, hpieces]
  cases ofPiece l with
  | ok first => simp [bind, Except.bind, pure, Except.pure]
  | error e => rfl

theorem scan_append_mark (hl : Markless l) (hc : mark? c = some t) :
    scan (String.ofList (l ++ c :: s)) = do
      let first ← ofPiece l
      let rest ← scan (String.ofList s)
      return first ++ t :: rest := by
  have hpieces : Pieces.ofText (l ++ c :: s) =
      { first := l, marked := (t, (Pieces.ofText s).first) :: (Pieces.ofText s).marked } := by
    rw [ofText_append hl, ofText_mark hc, List.append_nil]
  rw [scan, scan, String.toList_ofList, String.toList_ofList, hpieces, List.mapM_cons, ofMarked]
  cases ofPiece l with
  | error e => rfl
  | ok first =>
    cases ofPiece (Pieces.ofText s).first with
    | error e => rfl
    | ok second =>
      cases (Pieces.ofText s).marked.mapM ofMarked with
      | error e => rfl
      | ok rest => simp [bind, Except.bind, pure, Except.pure, Except.map]

/-- A text with a mark in it is scanned on both sides of the mark. -/
theorem scan_append_mark_eq_ok (hl : Markless l) (hc : mark? c = some t)
    (h : scan (String.ofList (l ++ c :: s)) = .ok ts) :
    ∃ first rest, ofPiece l = .ok first ∧ scan (String.ofList s) = .ok rest ∧
      ts = first ++ t :: rest := by
  rw [scan_append_mark hl hc] at h
  cases hfirst : ofPiece l with
  | error e => rw [hfirst] at h; cases h
  | ok first =>
    cases hrest : scan (String.ofList s) with
    | error e => rw [hfirst, hrest] at h; cases h
    | ok rest =>
      rw [hfirst, hrest] at h
      exact ⟨first, rest, rfl, rfl, (Except.ok.inj h).symm⟩

theorem scan_append_mark_eq_error {e : SyntaxError} (hl : Markless l) (hc : mark? c = some t)
    (h : scan (String.ofList (l ++ c :: s)) = .error e) :
    ofPiece l = .error e ∨
      (∃ first, ofPiece l = .ok first) ∧ scan (String.ofList s) = .error e := by
  rw [scan_append_mark hl hc] at h
  cases hfirst : ofPiece l with
  | error e' => rw [hfirst] at h; exact .inl h
  | ok first =>
    cases hrest : scan (String.ofList s) with
    | error e' => rw [hfirst, hrest] at h; exact .inr ⟨⟨first, rfl⟩, h⟩
    | ok rest => rw [hfirst, hrest] at h; cases h

/-! ## What is found -/

/-- The text is a spelling of the tokens. -/
structure Spells (ts : List Token) (s : List Char) : Prop where
  spaced : Spaced ts s
  wellFormed : ∀ t ∈ ts, t.WellFormed
  separated : Separated ts

theorem Spaced.blanks_append {blanks : List Char} (hblanks : Text.IsBlanks blanks)
    (h : Spaced ts s) : Spaced ts (blanks ++ s) := by
  have hboth : ∀ {more : List Char}, Text.IsBlanks more → Text.IsBlanks (blanks ++ more) := by
    intro more hmore c hc
    exact (List.mem_append.1 hc).elim (hblanks c) (hmore c)
  cases h with
  | nil hmore => exact .nil (hboth hmore)
  | cons t hmore rest =>
    rw [← List.append_assoc]
    exact .cons t (hboth hmore) rest

theorem Spaced.append {us : List Token} {s' : List Char} (h : Spaced ts s) (h' : Spaced us s') :
    Spaced (ts ++ us) (s ++ s') := by
  induction h with
  | nil hblanks => exact h'.blanks_append hblanks
  | cons t hblanks _ ih =>
    rw [List.append_assoc, List.append_assoc]
    exact .cons t hblanks ih

/-- A piece holds at most one token, an operand. -/
theorem ofPiece_eq_ok (h : ofPiece piece = .ok ts) :
    Spaced ts piece ∧ (ts = [] ∨ ∃ t, ts = [t] ∧ t.isOperand) := by
  obtain ⟨left, right, hleft, hright, hpiece⟩ := Text.exists_trim piece
  have hblank : Spaced [] right := .nil hright
  rw [hpiece]
  unfold ofPiece ofWord at h
  split at h
  · next hempty =>
    cases h
    rw [List.isEmpty_iff.1 hempty]
    exact ⟨hblank.blanks_append hleft, .inl rfl⟩
  · split at h
    · cases h
      have := Spaced.cons (.number (String.ofList (Text.trim piece))) hleft hblank
      exact ⟨by simpa [text] using this, .inr ⟨_, rfl, rfl⟩⟩
    · split at h
      · cases h
        have := Spaced.cons (.var (String.ofList (Text.trim piece))) hleft hblank
        exact ⟨by simpa [text] using this, .inr ⟨_, rfl, rfl⟩⟩
      · cases h

theorem text_of_mark? (hc : mark? c = some t) : t.text.toList = [c] ∧ t.isOperand = false := by
  unfold mark? at hc
  split at hc <;> cases hc <;> exact ⟨rfl, rfl⟩

theorem spaced_of_scan (s : List Char) {ts : List Token} (h : scan (String.ofList s) = .ok ts) :
    Spaced ts s ∧ Separated ts := by
  induction s using mark_induction generalizing ts with
  | last l hl =>
    rw [scan_of_markless hl] at h
    obtain ⟨hspaced, rfl | ⟨t, rfl, -⟩⟩ := ofPiece_eq_ok h
    · exact ⟨hspaced, .nil⟩
    · exact ⟨hspaced, .singleton t⟩
  | step l c t s hl hc ih =>
    obtain ⟨first, rest, hfirst, hrest, rfl⟩ := scan_append_mark_eq_ok hl hc h
    obtain ⟨hspaced, hsep⟩ := ih hrest
    obtain ⟨htext, hop⟩ := text_of_mark? hc
    have hmark : Spaced (t :: rest) (c :: s) := by
      have := Spaced.cons t (fun d hd => absurd hd List.not_mem_nil) hspaced
      rwa [htext] at this
    -- a mark is no operand, so that it separates what stands on its two sides
    have hsep' : Separated (t :: rest) := hsep.cons fun u _ hboth => by simp [hop] at hboth
    obtain ⟨hpiece, rfl | ⟨u, rfl, -⟩⟩ := ofPiece_eq_ok hfirst
    · exact ⟨hpiece.append hmark, hsep'⟩
    · exact ⟨hpiece.append hmark, List.isChain_cons_cons.2 ⟨by simp [hop], hsep'⟩⟩

/-- The tokens that are found are those that the text spells. -/
theorem scan_eq_ok_iff {s : String} : scan s = .ok ts ↔ Spells ts s.toList := by
  constructor
  · intro h
    obtain ⟨hspaced, hsep⟩ := spaced_of_scan s.toList (by rwa [String.ofList_toList])
    exact ⟨hspaced, wellFormed_of_scan h, hsep⟩
  · rintro ⟨hspaced, hspelled, hsep⟩
    exact scan_of_spaced hspaced hspelled hsep

/-! ## What is illegal -/

/-- There is something in the piece, and it is neither a numeral nor a variable. -/
structure IsIllegal (piece : List Char) : Prop where
  nonempty : Text.trim piece ≠ []
  not_numeral : Text.isNumeral (Text.trim piece) = false
  not_variable : isVariableText (Text.trim piece) = false

/-- The leftmost illegal piece of a text, and all that stands in front of it. -/
structure LeftmostIllegal (s before piece : List Char) : Prop where
  pieceAt : PieceAt s before piece
  illegal : IsIllegal piece
  leftmost : ∀ before' piece', PieceAt s before' piece' → IsIllegal piece' →
    before.length ≤ before'.length

theorem ofPiece_eq_error_iff {e : SyntaxError} :
    ofPiece piece = .error e ↔
      IsIllegal piece ∧ e = .illegalToken (String.ofList (Text.trim piece)) := by
  unfold ofPiece ofWord
  constructor
  · intro h
    split at h
    · cases h
    · next hempty =>
      split at h
      · cases h
      · next hnumeral =>
        split at h
        · cases h
        · next hvar =>
          cases h
          exact ⟨⟨by simpa using hempty, by simpa using hnumeral, by simpa using hvar⟩, rfl⟩
  · rintro ⟨⟨hne, hnumeral, hvar⟩, rfl⟩
    simp [hne, hnumeral, hvar]

/-- A piece from which tokens are read is not illegal. -/
theorem not_isIllegal_of_ofPiece (h : ofPiece piece = .ok ts) : ¬ IsIllegal piece := by
  intro hillegal
  rw [ofPiece_eq_error_iff.2 ⟨hillegal, rfl⟩] at h
  cases h

/-- Nothing in a text that is scanned is illegal. -/
theorem not_isIllegal_of_scan (s : List Char) {ts : List Token}
    (h : scan (String.ofList s) = .ok ts) {before piece : List Char}
    (hpiece : PieceAt s before piece) : ¬ IsIllegal piece := by
  induction s using mark_induction generalizing ts before with
  | last l hl =>
    rw [scan_of_markless hl] at h
    obtain ⟨-, rfl⟩ := (pieceAt_of_markless hl).1 hpiece
    exact not_isIllegal_of_ofPiece h
  | step l c t s hl hc ih =>
    obtain ⟨first, rest, hfirst, hrest, -⟩ := scan_append_mark_eq_ok hl hc h
    rcases (pieceAt_append_mark hl hc).1 hpiece with ⟨-, rfl⟩ | ⟨start, -, hstart⟩
    · exact not_isIllegal_of_ofPiece hfirst
    · exact ih hrest hstart

theorem leftmostIllegal_of_scan (s : List Char) {e : SyntaxError}
    (h : scan (String.ofList s) = .error e) :
    ∃ before piece, LeftmostIllegal s before piece ∧
      e = .illegalToken (String.ofList (Text.trim piece)) := by
  induction s using mark_induction generalizing e with
  | last l hl =>
    rw [scan_of_markless hl] at h
    obtain ⟨hillegal, he⟩ := ofPiece_eq_error_iff.1 h
    exact ⟨[], l, ⟨(pieceAt_of_markless hl).2 ⟨rfl, rfl⟩, hillegal, by simp⟩, he⟩
  | step l c t s hl hc ih =>
    rcases scan_append_mark_eq_error hl hc h with hfirst | ⟨⟨first, hfirst⟩, hrest⟩
    · obtain ⟨hillegal, he⟩ := ofPiece_eq_error_iff.1 hfirst
      exact ⟨[], l, ⟨(pieceAt_append_mark hl hc).2 (.inl ⟨rfl, rfl⟩), hillegal, by simp⟩, he⟩
    · obtain ⟨start, piece, ⟨hpiece, hillegal, hleftmost⟩, he⟩ := ih hrest
      refine ⟨l ++ c :: start, piece, ⟨?_, hillegal, ?_⟩, he⟩
      · exact (pieceAt_append_mark hl hc).2 (.inr ⟨start, rfl, hpiece⟩)
      · -- the first piece is legal, and in front of the others there is the same text more
        intro before' piece' hpiece' hillegal'
        rcases (pieceAt_append_mark hl hc).1 hpiece' with ⟨-, rfl⟩ | ⟨start', rfl, hstart'⟩
        · exact absurd hillegal' (not_isIllegal_of_ofPiece hfirst)
        · have := hleftmost start' piece' hstart' hillegal'
          simp only [List.length_append, List.length_cons]
          omega

/-- A piece is known by what stands in front of it. -/
theorem PieceAt.eq_takeWhile (h : PieceAt s before piece) :
    piece = (s.drop before.length).takeWhile fun c => (mark? c).isNone := by
  obtain ⟨after, rfl, hends⟩ := h.ends
  have hafter : after.takeWhile (fun c => (mark? c).isNone) = [] := by
    rcases after with _ | ⟨c, after⟩
    · rfl
    · simp [hends c rfl]
  have hpiece : ∀ c ∈ piece, (mark? c).isNone = true := fun c hc => by simp [h.markless c hc]
  rw [List.drop_left, List.takeWhile_append_of_pos hpiece, hafter, List.append_nil]

theorem LeftmostIllegal.unique {before' piece' : List Char} (h : LeftmostIllegal s before piece)
    (h' : LeftmostIllegal s before' piece') : piece = piece' := by
  have hlength : before.length = before'.length :=
    Nat.le_antisymm (h.leftmost _ _ h'.pieceAt h'.illegal) (h'.leftmost _ _ h.pieceAt h.illegal)
  rw [h.pieceAt.eq_takeWhile, h'.pieceAt.eq_takeWhile, hlength]

/-- Scanning finds the tokens that a text spells. Of a text that spells none, it names the leftmost
piece between two marks, less the blanks around it, that is neither empty nor a number nor a
variable. -/
theorem scan_lexical (s : String) :
    (∀ ts, scan s = .ok ts ↔ Spells ts s.toList) ∧
    ∀ e, scan s = .error e ↔ ∃ before piece, LeftmostIllegal s.toList before piece ∧
      e = .illegalToken (String.ofList (Text.trim piece)) := by
  refine ⟨fun ts => scan_eq_ok_iff, fun e => ⟨fun h => ?_, ?_⟩⟩
  · exact leftmostIllegal_of_scan s.toList (by rwa [String.ofList_toList])
  · rintro ⟨before, piece, hleftmost, rfl⟩
    cases hscan : scan s with
    | ok ts =>
      rw [← String.ofList_toList (s := s)] at hscan
      exact absurd hleftmost.illegal (not_isIllegal_of_scan s.toList hscan hleftmost.pieceAt)
    | error e =>
      rw [← String.ofList_toList (s := s)] at hscan
      obtain ⟨before', piece', hleftmost', rfl⟩ := leftmostIllegal_of_scan s.toList hscan
      rw [hleftmost.unique hleftmost']

/-- Blanks end no piece, and of two illegal pieces the first is reported. -/
example : scan "a1 + 7 b2 * $" = .error (.illegalToken "7 b2") := by
  rfl

end Token

end Worksheet
