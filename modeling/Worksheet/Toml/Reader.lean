/-!
Readers: functions that take something from the front of a text and leave the rest, or refuse. With
them, what stands between the parts of a document: blanks, ends of lines and comments.
-/

namespace Worksheet.Toml

/-- A reader of an `α`; a reader that refuses takes nothing. -/
abbrev Reader := StateT (List Char) Option

namespace Reader

variable {α σ : Type}

def satisfying (p : Char → Bool) : Reader Char
  | c :: s => if p c then some (c, s) else none
  | [] => none

def char (c : Char) : Reader Unit :=
  discard (satisfying (· == c))

def word (w : String) : Reader Unit := fun s =>
  if w.toList.isPrefixOf s then some ((), s.drop w.length) else none

/-- The longest run of such characters; it may be empty. -/
def takeWhile (p : Char → Bool) : Reader (List Char) := fun s =>
  some (s.takeWhile p, s.dropWhile p)

def skipWhile (p : Char → Bool) : Reader Unit := fun s =>
  some ((), s.dropWhile p)

/-- The next character, which is not taken. -/
def peek : Reader (Option Char) := fun s =>
  some (s.head?, s)

def startsWith (w : String) : Reader Bool := fun s =>
  some (w.toList.isPrefixOf s, s)

def endOfText : Reader Unit := fun s =>
  if s.isEmpty then some ((), s) else none

/-- What `p` takes, or nothing if it refuses. -/
def attempt (p : Reader α) : Reader (Option α) := fun s =>
  match p s with
  | some (a, rest) => some (some a, rest)
  | none => some (none, s)

/-- Does the text go on with this character? If so, it is taken. -/
def skip (c : Char) : Reader Bool :=
  Option.isSome <$> attempt (char c)

def ensure (b : Bool) : Reader Unit := fun s =>
  if b then some ((), s) else none

/-- What a step of a loop leads to: another round, or the end. -/
inductive Round (σ α : Type) where
  | again (state : σ)
  | stop (result : α)

/-- Repeats a step, at most once more than `bound` has characters. -/
def loopWithin (step : σ → Reader (Round σ α)) (bound : List Char) (state : σ) (s : List Char) :
    Option (α × List Char) :=
  match step state s, bound with
  | some (.stop a, rest), _ => some (a, rest)
  | some (.again state, rest), _ :: bound => loopWithin step bound state rest
  | some (.again _, _), [] => none
  | none, _ => none
termination_by structural bound

/-- Repeats a step. Every round but the last must take something, so there are no more rounds than
characters, and one to stop. -/
def loop (step : σ → Reader (Round σ α)) (state : σ) : Reader α := fun s =>
  loopWithin step s state s

/-- Applies `p` until it refuses. -/
def many (p : Reader α) : Reader (List α) :=
  loop
    (fun taken => do
      match ← attempt p with
      | some a => return .again (a :: taken)
      | none => return .stop taken.reverse)
    []

/-- What `p` takes, as text. -/
def textOf (p : Reader Unit) : Reader (List Char) := fun s =>
  (p s).map fun (_, rest) => (s.take (s.length - rest.length), rest)

end Reader

open Reader

/-- The characters that comments and texts may hold: no control characters except the tab. -/
def isPlain (c : Char) : Bool :=
  c == '\t' || (0x20 ≤ c.toNat && c.toNat ≤ 0x7E) || 0x80 ≤ c.toNat

def isBlank (c : Char) : Bool :=
  c == ' ' || c == '\t'

def blanks : Reader Unit :=
  skipWhile isBlank

/-- A line feed, perhaps after a carriage return. -/
def newline : Reader Unit := do
  let _ ← skip '\r'
  char '\n'

def comment : Reader Unit := do
  char '#'
  skipWhile isPlain

/-- What may follow the last part of a line. -/
def lineEnd : Reader Unit := do
  blanks
  let _ ← attempt comment
  newline <|> endOfText

/-- Blanks, ends of lines and comments inside an array. -/
def layout : Reader Unit := do
  blanks
  let _ ← many do
    let _ ← attempt comment
    newline
    blanks

end Worksheet.Toml
