import Worksheet.Proofs.Number.Numeral
import Worksheet.Proofs.Toml.Reader
import Worksheet.Toml.Document

/-!
Documents that are written row by row.

A `Row` is a line with all its blanks and its comment: it has nothing on it, or a header, or a key
with a text or a natural number. The rows of a document are read as the lines that they stand for
(`lines_rows`), wherever the blanks and comments are.

The readers of keys and values take as much as they can. So each lemma on them says what the text
may go on with: behind a value that is a blank, a comment or the end of the line (`isStop`).
-/

namespace Worksheet.Toml

open Reader

/-! ## Rows -/

/-- A value that stands on a row: a text without escapes in quotes, or a natural number. -/
inductive Scalar where
  | text (s : String)
  | natural (n : Nat)

namespace Scalar

def item : Scalar → Item
  | text s => .text s
  | natural n => .integer (Int64.ofInt n)

def spell : Scalar → List Char
  | text s => '"' :: (s.toList ++ ['"'])
  | natural n => Text.digits n

def WellFormed : Scalar → Prop
  | text s => ∀ c ∈ s.toList, isBasic c
  | natural n => FitsInt64 n

end Scalar

/-- A key that needs no quotes. -/
def IsBareKey (s : String) : Prop :=
  s.toList ≠ [] ∧ ∀ c ∈ s.toList, isBareKeyChar c

/-- What a row says. -/
inductive Clause where
  | header (name : String)
  | entry (key : String) (value : Scalar)

namespace Clause

def line : Clause → Line
  | header name => .table { path := [], last := name }
  | entry key value => .entry { path := [], last := key } value.item

def spell : Clause → List Char
  | header name => '[' :: (name.toList ++ [']'])
  | entry key value => key.toList ++ [' ', '=', ' '] ++ value.spell

def WellFormed : Clause → Prop
  | header name => IsBareKey name
  | entry key value => IsBareKey key ∧ value.WellFormed

end Clause

/-- The end of a row: a comment, if there is one, and the end of the line. -/
structure Ending where
  comment : Option (List Char)
  carriage : Bool

namespace Ending

def newline (e : Ending) : List Char :=
  if e.carriage then ['\r', '\n'] else ['\n']

def spell (e : Ending) : List Char :=
  e.comment.elim e.newline fun remark => '#' :: (remark ++ e.newline)

def WellFormed (e : Ending) : Prop :=
  ∀ remark ∈ e.comment, ∀ c ∈ remark, isPlain c

end Ending

/-- A row: blanks, what it says, if anything, more blanks, and its end. -/
structure Row where
  indent : List Char
  clause : Option Clause
  gap : List Char
  ending : Ending

namespace Row

def spell (r : Row) : List Char :=
  r.indent ++ r.clause.elim [] Clause.spell ++ r.gap ++ r.ending.spell

structure WellFormed (r : Row) : Prop where
  indent : ∀ c ∈ r.indent, isBlank c
  clause : ∀ c ∈ r.clause, c.WellFormed
  gap : ∀ c ∈ r.gap, isBlank c
  ending : r.ending.WellFormed

end Row

/-! ## Ends of rows -/

/-- What may stand behind a value. -/
def isStop (c : Char) : Bool :=
  isBlank c || c == '#' || c == '\r' || c == '\n'

theorem eq_of_isStop {c : Char} (h : isStop c) :
    c = ' ' ∨ c = '\t' ∨ c = '#' ∨ c = '\r' ∨ c = '\n' := by
  simpa [isStop, isBlank, or_assoc] using h

variable {s rest : List Char}

theorem head?_newline (e : Ending) (s : List Char) :
    (e.newline ++ s).head? = some '\r' ∨ (e.newline ++ s).head? = some '\n' := by
  unfold Ending.newline
  split
  · exact .inl rfl
  · exact .inr rfl

theorem head?_ending (e : Ending) (s : List Char) :
    (e.spell ++ s).head? = some '#' ∨ (e.spell ++ s).head? = some '\r' ∨
      (e.spell ++ s).head? = some '\n' := by
  unfold Ending.spell
  cases e.comment with
  | none => exact .inr (head?_newline e s)
  | some remark => exact .inl rfl

theorem isStop_of_head? (e : Ending) {gap : List Char} (hgap : ∀ c ∈ gap, isBlank c)
    (s : List Char) : ∀ c ∈ (gap ++ e.spell ++ s).head?, isStop c := by
  intro c hc
  cases gap with
  | nil =>
    rw [List.nil_append] at hc
    rcases head?_ending e s with h | h | h <;> rw [h] at hc <;> cases hc <;> rfl
  | cons b gap =>
    cases hc
    rw [isStop, hgap c List.mem_cons_self]
    rfl

theorem newline_append (e : Ending) (s : List Char) :
    newline (e.newline ++ s) = some ((), s) := by
  unfold newline Ending.newline
  split
  · show (skip '\r' >>= fun _ => char '\n') ('\r' :: '\n' :: s) = _
    rw [bind_eq (skip_cons _ _), char_cons]
  · show (skip '\r' >>= fun _ => char '\n') ('\n' :: s) = _
    rw [bind_eq (skip_of_head? (by simp)), char_cons]

theorem blanks_append {gap : List Char} (hgap : ∀ c ∈ gap, isBlank c)
    (hs : ∀ c ∈ s.head?, isBlank c = false) : blanks (gap ++ s) = some ((), s) :=
  skipWhile_append hgap hs

theorem not_isBlank_ending (e : Ending) (s : List Char) :
    ∀ c ∈ (e.spell ++ s).head?, isBlank c = false := by
  intro c hc
  rcases head?_ending e s with h | h | h <;> rw [h] at hc <;> cases hc <;> rfl

theorem lineEnd_append {e : Ending} (he : e.WellFormed) {gap : List Char}
    (hgap : ∀ c ∈ gap, isBlank c) (s : List Char) :
    lineEnd (gap ++ (e.spell ++ s)) = some ((), s) := by
  have hnewline : (newline <|> endOfText) (e.newline ++ s) = some ((), s) :=
    orElse_eq (newline_append e s)
  unfold lineEnd
  rw [bind_eq (blanks_append hgap (not_isBlank_ending e s))]
  unfold Ending.spell
  cases hcomment : e.comment with
  | none =>
    have hnone : comment (e.newline ++ s) = none := by
      refine bind_eq_none (char_of_head? ?_) _
      rcases head?_newline e s with h | h <;> rw [h] <;> decide
    rw [Option.elim_none, bind_eq (attempt_of_none hnone)]
    exact hnewline
  | some remark =>
    have htaken : comment ('#' :: (remark ++ (e.newline ++ s))) = some ((), e.newline ++ s) := by
      unfold comment
      rw [bind_eq (char_cons _ _)]
      refine skipWhile_append (he remark hcomment) fun c hc => ?_
      rcases head?_newline e s with h | h <;> rw [h] at hc <;> cases hc <;> decide
    rw [Option.elim_some, List.cons_append, List.append_assoc, bind_eq (attempt_eq htaken)]
    exact hnewline

/-! ## Keys -/

/-- What no bare key goes on with. -/
theorem not_isBareKeyChar_of_isBlank {c : Char} (h : isBlank c) : isBareKeyChar c = false := by
  rw [isBlank, Bool.or_eq_true, beq_iff_eq, beq_iff_eq] at h
  rcases h with rfl | rfl <;> decide

theorem not_isBlank_of_isBareKeyChar {c : Char} (h : isBareKeyChar c) : isBlank c = false := by
  rw [← Bool.not_eq_true]
  intro hblank
  rw [not_isBareKeyChar_of_isBlank hblank] at h
  cases h

theorem IsBareKey.exists_head? {name : String} (h : IsBareKey name) (s : List Char) :
    ∃ c, isBareKeyChar c ∧ (name.toList ++ s).head? = some c := by
  obtain ⟨c, rest, hcons⟩ := List.exists_cons_of_ne_nil h.1
  exact ⟨c, h.2 c (by rw [hcons]; exact List.mem_cons_self), by rw [hcons]; rfl⟩

theorem IsBareKey.not_isBlank {name : String} (h : IsBareKey name) (s : List Char) :
    ∀ c ∈ (name.toList ++ s).head?, isBlank c = false := by
  obtain ⟨c, hc, hhead⟩ := h.exists_head? s
  rw [hhead]
  rintro _ ⟨⟩
  exact not_isBlank_of_isBareKeyChar hc

theorem keyPart_append {name : String} (hname : IsBareKey name)
    (hs : ∀ c ∈ s.head?, isBareKeyChar c = false) :
    keyPart (name.toList ++ s) = some (name, s) := by
  obtain ⟨c, hc, hhead⟩ := hname.exists_head? s
  unfold keyPart
  rw [bind_eq (peek_eq _), hhead]
  generalize hread : some c = o
  split
  · cases hread
    exact absurd hc (by decide)
  · cases hread
    exact absurd hc (by decide)
  · rw [bind_eq (takeWhile_append hname.2 hs), bind_eq (ensure_eq (by simpa using hname.1) s),
      String.ofList_toList]
    rfl

/-- A bare key, perhaps with blanks behind it, up to a character that is neither a part of it nor a
dot. -/
theorem key_append {name : String} (hname : IsBareKey name) (gap : List Char)
    (hgap : ∀ c ∈ gap, isBlank c)
    (hs : ∀ c ∈ s.head?, isBareKeyChar c = false ∧ isBlank c = false ∧ c ≠ '.') :
    key (name.toList ++ (gap ++ s)) = some ({ path := [], last := name }, s) := by
  have hbefore : blanks (name.toList ++ (gap ++ s)) = some ((), name.toList ++ (gap ++ s)) :=
    blanks_append (List.forall_mem_nil _) (hname.not_isBlank (gap ++ s))
  have hpart : keyPart (name.toList ++ (gap ++ s)) = some (name, gap ++ s) := by
    refine keyPart_append hname fun c hc => ?_
    cases gap with
    | nil => exact (hs c hc).1
    | cons b gap =>
      cases hc
      exact not_isBareKeyChar_of_isBlank (hgap c List.mem_cons_self)
  have hafter : blanks (gap ++ s) = some ((), s) := blanks_append hgap fun c hc => (hs c hc).2.1
  have hdot : skip '.' s = some (false, s) := skip_of_head? fun h => (hs '.' h).2.2 rfl
  unfold key
  rw [bind_eq (loop_stop (a := { path := [], last := name }) ?_)]
  · exact bind_eq (ensure_eq rfl s) _
  · rw [bind_eq hbefore, bind_eq hpart, bind_eq hafter, bind_eq hdot]
    rfl

/-! ## Values -/

/-- Two quotes that no third one follows begin no text on several lines. -/
theorem not_startsWith_quotes {t : List Char} (ht : ∀ c ∈ t, isBasic c) (hs : s.head? ≠ some '"') :
    ['"', '"', '"'].isPrefixOf ('"' :: (t ++ '"' :: s)) = false := by
  have hhead : ∀ c ∈ t, ('"' == c) = false := by
    intro c hc
    rw [beq_eq_false_iff_ne]
    rintro rfl
    exact absurd (ht _ hc) (by decide)
  cases t with
  | nil =>
    cases s with
    | nil => rfl
    | cons c s =>
      have : ('"' == c) = false := beq_eq_false_iff_ne.2 fun h => hs (congrArg some h.symm)
      simp [List.isPrefixOf, this]
  | cons c t => simp [List.isPrefixOf, hhead c List.mem_cons_self]

theorem text_append {t : String} (ht : ∀ c ∈ t.toList, isBasic c) (hs : s.head? ≠ some '"') :
    text ('"' :: (t.toList ++ '"' :: s)) = some (t, s) := by
  have hmulti : startsWith "\"\"\"" ('"' :: (t.toList ++ '"' :: s)) =
      some (false, '"' :: (t.toList ++ '"' :: s)) :=
    congrArg (fun b => some (b, _)) (not_startsWith_quotes ht hs)
  have hliteral : startsWith "\'\'\'" ('"' :: (t.toList ++ '"' :: s)) =
      some (false, '"' :: (t.toList ++ '"' :: s)) := rfl
  have hpart : ∀ c ∈ t.toList, ∀ s, basicPart (c :: s) = some (c, s) :=
    fun c hc s => orElse_eq (satisfying_cons (ht c hc) s)
  have hstop : basicPart ('"' :: s) = none := by
    unfold basicPart
    rw [orElse_of_none (satisfying_of_head? (by rintro _ ⟨⟩; rfl))]
    exact bind_eq_none (char_of_head? (by simp)) _
  unfold text
  rw [bind_eq hmulti, if_neg Bool.false_ne_true, bind_eq hliteral, if_neg Bool.false_ne_true]
  refine orElse_eq ?_
  unfold basicText singleLine
  rw [bind_eq (char_cons _ _), bind_eq (many_append hpart hstop), bind_eq (char_cons _ _),
    String.ofList_toList]
  rfl

/-- Behind the digits in front there is neither a hyphen nor a colon. -/
def NoMark (s : List Char) : Prop :=
  ∀ c ∈ (s.dropWhile Char.isDigit).head?, c ≠ '-' ∧ c ≠ ':'

theorem NoMark.digits {l : List Nat} {ds : List Char} (h : NoMark s)
    (hread : (l.mapM fun _ => satisfying Char.isDigit) s = some (ds, rest)) : NoMark rest := by
  induction l generalizing s ds with
  | nil =>
    cases hread
    exact h
  | cons _ l ih =>
    rw [List.mapM_cons] at hread
    obtain ⟨c, s', hc, hnext⟩ := exists_of_bind hread
    obtain ⟨ds', s'', hl, hpure⟩ := exists_of_bind hnext
    cases hpure
    refine ih ?_ hl
    obtain ⟨rfl, hdigit⟩ := eq_cons_of_satisfying hc
    rw [NoMark, List.dropWhile_cons_of_pos hdigit] at h
    exact h

theorem NoMark.fixedDigits {n low high v : Nat} (h : NoMark s)
    (hread : fixedDigits n low high s = some (v, rest)) : NoMark rest := by
  unfold Toml.fixedDigits at hread
  obtain ⟨ds, s', hds, hnext⟩ := exists_of_bind hread
  obtain ⟨_, s'', hensure, hpure⟩ := exists_of_bind hnext
  cases hpure
  rw [ensure] at hensure
  split at hensure
  · cases hensure
    exact h.digits hds
  · cases hensure

theorem NoMark.char_eq_none (h : NoMark s) : char '-' s = none ∧ char ':' s = none := by
  have hhead : ∀ c, c.isDigit = false → s.head? = some c → c ≠ '-' ∧ c ≠ ':' := by
    intro c hc hs
    obtain ⟨r, rfl⟩ := List.head?_eq_some_iff.1 hs
    refine h c ?_
    rw [List.dropWhile_cons_of_neg (by simp [hc])]
    rfl
  exact ⟨char_of_head? fun hs => (hhead '-' (by decide) hs).1 rfl,
    char_of_head? fun hs => (hhead ':' (by decide) hs).2 rfl⟩

/-- So there is no date and no time of day. -/
theorem NoMark.moment_eq_none (h : NoMark s) : moment s = none := by
  have hdate : date s = none := by
    unfold date
    exact bind_eq_none_of_forall fun _ _ hyear => bind_eq_none (h.fixedDigits hyear).char_eq_none.1 _
  have hminute : hourAndMinute s = none := by
    unfold hourAndMinute
    refine bind_eq_none_of_forall fun _ s' hhour => bind_eq_none ?_ _
    obtain ⟨v, hv⟩ := exists_of_discard hhour
    exact (h.fixedDigits hv).char_eq_none.2
  have htime : time s = none := by
    unfold time
    exact bind_eq_none hminute _
  unfold moment textOf
  rw [orElse_of_none (bind_eq_none hdate _), htime]
  rfl

/-- Digits do not begin with the mark of a base. -/
theorem not_startsWith_mark {ds : List Char} (hne : ds ≠ []) (hds : ∀ c ∈ ds, c.isDigit) {m : Char}
    (hm : m.isDigit = false) (hs : s.head? ≠ some m) :
    ['0', m].isPrefixOf (ds ++ s) = false := by
  obtain ⟨d, ds, rfl⟩ := List.exists_cons_of_ne_nil hne
  have hhead : (ds ++ s).head? ≠ some m := by
    cases ds with
    | nil => exact hs
    | cons e ds =>
      rintro ⟨⟩
      rw [hds m (by simp)] at hm
      cases hm
  rw [← Bool.not_eq_true, List.isPrefixOf_iff_prefix]
  rintro ⟨r, hr⟩
  exact hhead (congrArg List.head? (List.cons_eq_cons.1 hr).2).symm

theorem not_hasDoubleUnderscore {ds : List Char} (hds : ∀ c ∈ ds, c ≠ '_') :
    hasDoubleUnderscore ds = false := by
  induction ds with
  | nil => rfl
  | cons c ds ih =>
    have hc : c ≠ '_' := hds c List.mem_cons_self
    rw [hasDoubleUnderscore]
    · exact ih fun d hd => hds d (List.mem_cons_of_mem c hd)
    · rintro _ rfl
      exact fun _ => hc rfl

theorem not_isDigit_of_isStop {c : Char} (h : isStop c) : c.isDigit = false := by
  rcases eq_of_isStop h with rfl | rfl | rfl | rfl | rfl <;> decide

theorem beq_of_isDigit {c d : Char} (hc : c.isDigit) (hd : d.isDigit = false) :
    (c == d) = false := by
  rw [beq_eq_false_iff_ne]
  rintro rfl
  rw [hc] at hd
  cases hd

theorem digitRun_append {ds : List Char} (hne : ds ≠ []) (hds : ∀ c ∈ ds, c.isDigit)
    (hs : ∀ c ∈ s.head?, isStop c) : digitRun Char.isDigit (ds ++ s) = some (ds, s) := by
  have hunderscore : ∀ c ∈ ds, c ≠ '_' := by
    rintro c hc rfl
    exact absurd (hds _ hc) (by decide)
  have htaken : takeWhile (fun c => c.isDigit || c == '_') (ds ++ s) = some (ds, s) := by
    refine takeWhile_append (fun c hc => by rw [hds c hc]; rfl) fun c hc => ?_
    rcases eq_of_isStop (hs c hc) with rfl | rfl | rfl | rfl | rfl <;> decide
  have hform : (!ds.isEmpty && ds.head? != some '_' && ds.getLast? != some '_' &&
      !hasDoubleUnderscore ds) = true := by
    have hfirst : ds.head? ≠ some '_' := fun h => hunderscore _ (List.mem_of_mem_head? h) rfl
    have hlast : ds.getLast? ≠ some '_' := fun h => hunderscore _ (List.mem_of_getLast? h) rfl
    simp [hne, hfirst, hlast, not_hasDoubleUnderscore hunderscore]
  have hfilter : ds.filter (· != '_') = ds :=
    List.filter_eq_self.2 fun c hc => bne_iff_ne.2 (hunderscore c hc)
  unfold digitRun
  rw [bind_eq htaken, bind_eq (ensure_eq hform s), hfilter]
  rfl

theorem boundedInteger_eq {n : Int} (hn : FitsInt64 n) (s : List Char) :
    boundedInteger n s = some (Int64.ofInt n, s) := by
  have hvalue : toInt64? n = some (Int64.ofInt n) :=
    toInt64?_eq_some_iff.2 (Int64.toInt_ofInt_of_le hn.1 hn.2)
  rw [boundedInteger, hvalue]
  rfl

theorem isDigit_of_head?_digits (n : Nat) (s : List Char) :
    ∀ c ∈ (Text.digits n ++ s).head?, c.isDigit := by
  obtain ⟨d, ds, hcons⟩ := List.exists_cons_of_length_pos (Text.length_digits_pos n)
  rw [hcons]
  rintro _ ⟨⟩
  exact Text.isDigit_of_mem_digits (by rw [hcons]; exact List.mem_cons_self)

theorem decimalNumber_append {n : Nat} (hn : FitsInt64 n) (hs : ∀ c ∈ s.head?, isStop c) :
    decimalNumber (Text.digits n ++ s) = some (.integer (Int64.ofInt n), s) := by
  have hne : Text.digits n ≠ [] := List.ne_nil_of_length_pos (Text.length_digits_pos n)
  have hds : ∀ c ∈ Text.digits n, c.isDigit := fun c hc => Text.isDigit_of_mem_digits hc
  have hhead := isDigit_of_head?_digits n s
  have hsign : sign (Text.digits n ++ s) = some ([], Text.digits n ++ s) := by
    unfold sign
    rw [bind_eq (attempt_of_none (satisfying_of_head? fun c hc => ?_))]
    · rfl
    · rw [beq_of_isDigit (hhead c hc) (by decide), beq_of_isDigit (hhead c hc) (by decide)]
      rfl
  have hzeros : ((Text.digits n).length == 1 || (Text.digits n).head? != some '0') = true := by
    by_cases hzero : (Text.digits n).head? = some '0'
    · rw [Text.digits_of_leading_zero hzero]
      rfl
    · rw [bne_iff_ne.2 hzero, Bool.or_true]
  have hfraction : fraction s = some ([], s) := by
    have hdot : s.head? ≠ some '.' := fun h => absurd (hs _ h) (by decide)
    unfold fraction
    rw [bind_eq (skip_of_head? hdot)]
    rfl
  have hexponent : exponent s = some ([], s) := by
    unfold exponent
    rw [bind_eq (attempt_of_none (satisfying_of_head? fun c hc => ?_))]
    · rfl
    · rcases eq_of_isStop (hs c hc) with rfl | rfl | rfl | rfl | rfl <;> decide
  unfold decimalNumber
  rw [bind_eq hsign, bind_eq (digitRun_append hne hds hs), bind_eq (ensure_eq hzeros s),
    bind_eq hfraction, bind_eq hexponent]
  show (boundedInteger (Text.ofDigits (Text.digits n)) >>= fun k => pure (Item.integer k)) s = _
  rw [Text.ofDigits_digits, bind_eq (boundedInteger_eq hn s)]
  rfl

theorem natural_append {n : Nat} (hn : FitsInt64 n) (hs : ∀ c ∈ s.head?, isStop c) :
    number (Text.digits n ++ s) = some (.integer (Int64.ofInt n), s) := by
  have hmark : ∀ m, m.isDigit = false → isStop m = false →
      ['0', m].isPrefixOf (Text.digits n ++ s) = false := by
    intro m hm hstop
    refine not_startsWith_mark (List.ne_nil_of_length_pos (Text.length_digits_pos n))
      (fun c hc => Text.isDigit_of_mem_digits hc) hm fun h => ?_
    rw [hs m h] at hstop
    cases hstop
  have hstart : ∀ w, w.toList.isPrefixOf (Text.digits n ++ s) = false →
      startsWith w (Text.digits n ++ s) = some (false, Text.digits n ++ s) := by
    intro w hw
    rw [startsWith, hw]
  unfold number
  rw [bind_eq (hstart "0x" (hmark 'x' (by decide) (by decide))), if_neg Bool.false_ne_true,
    bind_eq (hstart "0o" (hmark 'o' (by decide) (by decide))), if_neg Bool.false_ne_true,
    bind_eq (hstart "0b" (hmark 'b' (by decide) (by decide))), if_neg Bool.false_ne_true]
  exact orElse_eq (decimalNumber_append hn hs)

theorem noMark_digits {n : Nat} (hs : ∀ c ∈ s.head?, isStop c) : NoMark (Text.digits n ++ s) := by
  have hrest : ∀ c ∈ s.head?, c.isDigit = false := fun c hc => not_isDigit_of_isStop (hs c hc)
  rw [NoMark, (Text.takeWhile_run (fun c hc => Text.isDigit_of_mem_digits hc) s hrest).2]
  intro c hc
  rcases eq_of_isStop (hs c hc) with rfl | rfl | rfl | rfl | rfl <;> decide

/-- A value, with something behind it that no value goes on with. -/
theorem value_append {v : Scalar} (hv : v.WellFormed) (hs : ∀ c ∈ s.head?, isStop c) (depth : Nat) :
    value depth (v.spell ++ s) = some (v.item, s) := by
  have hvalue : ∀ array table : Reader Item,
      valueWith array table (v.spell ++ s) = some (v.item, s) := by
    intro array table
    unfold valueWith
    rw [bind_eq (peek_eq _)]
    cases v with
    | text t =>
      have hquote : s.head? ≠ some '"' := fun h => absurd (hs _ h) (by decide)
      have hspell : (Scalar.text t).spell ++ s = '"' :: (t.toList ++ '"' :: s) := by
        simp [Scalar.spell]
      rw [hspell]
      show (text >>= fun t => pure (Item.text t)) ('"' :: (t.toList ++ '"' :: s)) = _
      rw [bind_eq (text_append hv hquote)]
      rfl
    | natural n =>
      have hdigit := isDigit_of_head?_digits n s
      rw [Scalar.spell]
      generalize (Text.digits n ++ s).head? = o at hdigit ⊢
      split
      case h_7 =>
        rw [orElse_of_none (bind_eq_none (noMark_digits hs).moment_eq_none _)]
        exact natural_append hv hs
      -- none of the other characters that a value begins with is a digit
      all_goals exact absurd (hdigit _ rfl) (by decide)
  cases depth with
  | zero => exact hvalue _ _
  | succ depth => exact hvalue _ _

theorem not_isBlank_value (v : Scalar) (s : List Char) :
    ∀ c ∈ (v.spell ++ s).head?, isBlank c = false := by
  cases v with
  | text t =>
    rintro _ ⟨⟩
    rfl
  | natural n =>
    intro c hc
    rw [isBlank, beq_of_isDigit (isDigit_of_head?_digits n s c hc) (by decide),
      beq_of_isDigit (isDigit_of_head?_digits n s c hc) (by decide)]
    rfl

/-! ## Lines -/

theorem header_append {name : String} (hname : IsBareKey name) {gap : List Char}
    (hgap : ∀ c ∈ gap, isBlank c) {e : Ending} (he : e.WellFormed) (s : List Char) :
    header ('[' :: (name.toList ++ ']' :: (gap ++ (e.spell ++ s)))) =
      some (.table { path := [], last := name }, s) := by
  have hsingle : (name.toList ++ ']' :: (gap ++ (e.spell ++ s))).head? ≠ some '[' := by
    obtain ⟨c, hc, hhead⟩ := hname.exists_head? (']' :: (gap ++ (e.spell ++ s)))
    rw [hhead]
    rintro ⟨⟩
    exact absurd hc (by decide)
  have hkey : key (name.toList ++ ']' :: (gap ++ (e.spell ++ s))) =
      some ({ path := [], last := name }, ']' :: (gap ++ (e.spell ++ s))) := by
    refine key_append hname [] (List.forall_mem_nil _) ?_
    rintro _ ⟨⟩
    decide
  unfold header
  rw [bind_eq (char_cons _ _), bind_eq (skip_of_head? hsingle), if_neg Bool.false_ne_true]
  rw [bind_eq hkey, bind_eq (char_cons _ _), bind_eq (pure_eq _ _)]
  exact bind_eq (lineEnd_append he hgap s) _

theorem entry_append {k : String} (hk : IsBareKey k) {v : Scalar} (hv : v.WellFormed)
    {gap : List Char} (hgap : ∀ c ∈ gap, isBlank c) {e : Ending} (he : e.WellFormed)
    (s : List Char) :
    entry (k.toList ++ ([' ', '=', ' '] ++ (v.spell ++ (gap ++ (e.spell ++ s))))) =
      some (.entry { path := [], last := k } v.item, s) := by
  have hspace : ∀ c ∈ [' '], isBlank c := List.forall_mem_singleton.2 rfl
  have hkey : key (k.toList ++ ([' '] ++ '=' :: ([' '] ++ (v.spell ++ (gap ++ (e.spell ++ s)))))) =
      some ({ path := [], last := k }, '=' :: ([' '] ++ (v.spell ++ (gap ++ (e.spell ++ s))))) := by
    refine key_append hk [' '] hspace ?_
    rintro _ ⟨⟩
    decide
  have hblank : blanks ([' '] ++ (v.spell ++ (gap ++ (e.spell ++ s)))) =
      some ((), v.spell ++ (gap ++ (e.spell ++ s))) :=
    blanks_append hspace (not_isBlank_value v _)
  have hvalue := value_append hv (isStop_of_head? e hgap s) (nestingLimit - 1)
  rw [List.append_assoc] at hvalue
  unfold entry
  show (key >>= _) (k.toList ++ ([' '] ++ '=' :: ([' '] ++ (v.spell ++ (gap ++ (e.spell ++ s)))))) = _
  rw [bind_eq hkey, bind_eq (char_cons _ _), bind_eq hblank, bind_eq hvalue,
    bind_eq (lineEnd_append he hgap s)]
  rfl

/-! ## Rows and lines -/

variable {r : Row}

theorem Row.spell_ne_nil (r : Row) : r.spell ≠ [] := by
  have hnewline : r.ending.newline ≠ [] := by
    unfold Ending.newline
    split <;> exact List.cons_ne_nil _ _
  have hending : r.ending.spell ≠ [] := by
    unfold Ending.spell
    cases r.ending.comment with
    | none => exact hnewline
    | some remark => exact List.cons_ne_nil _ _
  exact List.append_ne_nil_of_right_ne_nil _ hending

theorem spell_nothing (h : r.clause = none) (s : List Char) :
    r.spell ++ s = (r.indent ++ r.gap) ++ (r.ending.spell ++ s) := by
  simp [Row.spell, h]

theorem spell_header {name : String} (h : r.clause = some (.header name)) (s : List Char) :
    r.spell ++ s =
      r.indent ++ '[' :: (name.toList ++ ']' :: (r.gap ++ (r.ending.spell ++ s))) := by
  simp [Row.spell, h, Clause.spell]

theorem spell_entry {k : String} {v : Scalar} (h : r.clause = some (.entry k v)) (s : List Char) :
    r.spell ++ s = r.indent ++
      (k.toList ++ ([' ', '=', ' '] ++ (v.spell ++ (r.gap ++ (r.ending.spell ++ s))))) := by
  simp [Row.spell, h, Clause.spell]

theorem Row.WellFormed.isBlank_append (hr : r.WellFormed) : ∀ c ∈ r.indent ++ r.gap, isBlank c := by
  intro c hc
  rcases List.mem_append.1 hc with hc | hc
  · exact hr.indent c hc
  · exact hr.gap c hc

theorem nextLine_nothing (hr : r.WellFormed) (hclause : r.clause = none) (taken : List Line)
    (s : List Char) : nextLine taken (r.spell ++ s) = some (.again taken, s) := by
  have hend := lineEnd_append hr.ending (List.forall_mem_nil _) s
  rw [List.nil_append] at hend
  unfold nextLine
  rw [spell_nothing hclause, bind_eq (blanks_append hr.isBlank_append (not_isBlank_ending _ s)),
    bind_eq (peek_eq _)]
  unfold Ending.spell at hend ⊢
  cases hcomment : r.ending.comment with
  | none =>
    rw [Option.elim_none]
    have hnewline := newline_append r.ending s
    rcases head?_newline r.ending s with h | h <;> rw [h] <;> exact bind_eq hnewline _
  | some remark =>
    rw [hcomment] at hend
    exact bind_eq hend _

theorem nextLine_header (hr : r.WellFormed) {name : String}
    (hclause : r.clause = some (.header name)) (taken : List Line) (s : List Char) :
    nextLine taken (r.spell ++ s) = some (.again ((Clause.header name).line :: taken), s) := by
  have hname : IsBareKey name := hr.clause _ hclause
  unfold nextLine
  rw [spell_header hclause, bind_eq (blanks_append hr.indent (by rintro _ ⟨⟩; rfl)),
    bind_eq (peek_eq _)]
  exact bind_eq (header_append hname hr.gap hr.ending s) _

theorem nextLine_entry (hr : r.WellFormed) {k : String} {v : Scalar}
    (hclause : r.clause = some (.entry k v)) (taken : List Line) (s : List Char) :
    nextLine taken (r.spell ++ s) = some (.again ((Clause.entry k v).line :: taken), s) := by
  obtain ⟨hk, hv⟩ : IsBareKey k ∧ v.WellFormed := hr.clause _ hclause
  have hentry := entry_append hk hv hr.gap hr.ending s
  -- from here on it only matters that the key comes first
  rw [spell_entry hclause]
  generalize [' ', '=', ' '] ++ (v.spell ++ (r.gap ++ (r.ending.spell ++ s))) = t at hentry ⊢
  obtain ⟨c, hc, hhead⟩ := hk.exists_head? t
  unfold nextLine
  rw [bind_eq (blanks_append hr.indent (hk.not_isBlank t)), bind_eq (peek_eq _), hhead]
  generalize hread : some c = o
  split
  case h_1 => cases hread
  case h_6 => exact bind_eq hentry _
  all_goals cases hread; exact absurd hc (by decide)

/-- A row makes for one round of the loop over the lines. -/
theorem nextLine_append (hr : r.WellFormed) (taken : List Line) (s : List Char) :
    nextLine taken (r.spell ++ s) =
      some (.again ((r.clause.map Clause.line).toList ++ taken), s) := by
  cases hclause : r.clause with
  | none => exact nextLine_nothing hr hclause taken s
  | some c =>
    cases c with
    | header name => exact nextLine_header hr hclause taken s
    | entry k v => exact nextLine_entry hr hclause taken s

/-- The last line that has been taken comes first. -/
theorem foldl_lines (rows : List Row) (taken : List Line) :
    rows.foldl (fun taken r => (r.clause.map Clause.line).toList ++ taken) taken =
      ((rows.filterMap Row.clause).map Clause.line).reverse ++ taken := by
  induction rows generalizing taken with
  | nil => rfl
  | cons r rows ih =>
    rw [List.foldl_cons, ih, List.filterMap_cons]
    cases r.clause with
    | none => rfl
    | some c => simp

/-- The lines of a document are those of its rows, without those that say nothing. -/
theorem lines_rows {rows : List Row} (hrows : ∀ r ∈ rows, r.WellFormed) :
    lines (rows.flatMap Row.spell) = some ((rows.filterMap Row.clause).map Clause.line, []) := by
  have htext : rows.flatMap Row.spell = rows.flatMap Row.spell ++ [] := (List.append_nil _).symm
  unfold lines
  rw [htext]
  refine loop_rounds (fun taken r => (r.clause.map Clause.line).toList ++ taken)
    (fun r _ => r.spell_ne_nil) (fun r hr taken s => nextLine_append (hrows r hr) taken s) ?_
  rw [foldl_lines, List.append_nil]
  exact congrArg (fun ls => some (Round.stop ls, [])) (List.reverse_reverse _)

/-- A row does not begin with a byte order mark. -/
theorem Row.WellFormed.head?_ne (hr : r.WellFormed) (s : List Char) :
    (r.spell ++ s).head? ≠ some '\ufeff' := by
  have hblank : ∀ {gap t : List Char}, (∀ c ∈ gap, isBlank c) → t.head? ≠ some '\ufeff' →
      (gap ++ t).head? ≠ some '\ufeff' := by
    intro gap t hgap ht
    cases gap with
    | nil => exact ht
    | cons b gap =>
      rintro ⟨⟩
      exact absurd (hgap _ List.mem_cons_self) (by decide)
  cases hclause : r.clause with
  | none =>
    rw [spell_nothing hclause]
    refine hblank hr.isBlank_append ?_
    rcases head?_ending r.ending s with h | h | h <;> rw [h] <;> decide
  | some c =>
    cases c with
    | header name =>
      rw [spell_header hclause]
      refine hblank hr.indent ?_
      rintro ⟨⟩
    | entry k v =>
      obtain ⟨hk, -⟩ : IsBareKey k ∧ v.WellFormed := hr.clause _ hclause
      rw [spell_entry hclause]
      refine hblank hr.indent ?_
      obtain ⟨d, hd, hhead⟩ :=
        hk.exists_head? ([' ', '=', ' '] ++ (v.spell ++ (r.gap ++ (r.ending.spell ++ s))))
      rw [hhead]
      rintro ⟨⟩
      exact absurd hd (by decide)

theorem head?_rows_ne {rows : List Row} (hrows : ∀ r ∈ rows, r.WellFormed) :
    (rows.flatMap Row.spell).head? ≠ some '\ufeff' := by
  cases rows with
  | nil => rintro ⟨⟩
  | cons r rows => exact (hrows r List.mem_cons_self).head?_ne _

end Worksheet.Toml
