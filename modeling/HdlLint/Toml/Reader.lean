/-! # Reading characters

A reader takes characters off the front of a text, or fails. A failed reader takes nothing. -/

namespace HdlLint.Toml

abbrev Reader := StateT (List Char) Option

namespace Reader

variable {α : Type}

/-- The next character, which is not taken. -/
def peek? : Reader (Option Char) := do return (← get).head?

/-- Takes a character that satisfies `p`. -/
def satisfy (p : Char → Bool) : Reader Char := do
  match ← get with
  | c :: cs => if p c then set cs; return c else failure
  | [] => failure

/-- Takes the character `c`. -/
def char (c : Char) : Reader Unit := do
  let _ ← satisfy (· == c)

/-- Takes the characters of a word. -/
def word : List Char → Reader Unit
  | [] => pure ()
  | c :: cs => do
    char c
    word cs

/-- Takes as many characters as satisfy `p`. -/
def takeWhile (p : Char → Bool) : Reader (List Char) :=
  modifyGet fun cs => (cs.takeWhile p, cs.dropWhile p)

/-- Succeeds at the end of the text. -/
def atEnd : Reader Unit := do
  guard (← get).isEmpty

/-- Reads what `p` reads, or nothing. -/
def optional (p : Reader α) : Reader (Option α) :=
  (some <$> p) <|> pure none

/-- Reads at most `n` times. -/
def upTo (p : Reader α) : Nat → Reader (List α)
  | 0 => pure []
  | n + 1 => do
    match ← optional p with
    | none => return []
    | some a => return a :: (← upTo p n)

/-- Reads as often as possible. A reader that takes something each time can succeed no more often
than there are characters. -/
def many (p : Reader α) : Reader (List α) := do
  upTo p (← get).length

/-- Reads exactly `n` times. -/
def times (p : Reader α) : Nat → Reader (List α)
  | 0 => pure []
  | n + 1 => do
    let a ← p
    return a :: (← times p n)

/-- Reads once or more, with a separator in between. -/
def separated (p : Reader α) (separator : Char) : Reader (List α) := do
  let a ← p
  return a :: (← many (do char separator; p))

end Reader

/-! ### Blanks, lines and comments -/

/-- Blanks within a line. -/
def isBlank (c : Char) : Bool := c == ' ' || c == '\t'

/-- Characters that may stand in comments and in quoted text: all but control characters, and the
tab. -/
def isText (c : Char) : Bool := c == '\t' || (c.toNat ≥ 0x20 && c.toNat != 0x7f)

namespace Reader

def blanks : Reader Unit := do
  let _ ← takeWhile isBlank

def newline : Reader Unit := char '\n' <|> word ['\r', '\n']

def comment : Reader Unit := do
  char '#'
  let _ ← takeWhile isText

/-- The end of a line or of the text. -/
def lineEnd : Reader Unit := newline <|> atEnd

/-- What may follow on a line: blanks and a comment. -/
def trailing : Reader Unit := do
  blanks
  let _ ← optional comment
  lineEnd

/-- Blanks, new lines and comments. -/
def gaps : Reader Unit := do
  let _ ← many ((do let _ ← satisfy isBlank) <|> newline <|> comment)

end Reader

end HdlLint.Toml
