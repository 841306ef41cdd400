import HdlLint.Text.Ascii
import HdlLint.Token
import HdlLint.Syntax.Expr
import HdlLint.Syntax.Error

/-! # Reading tokens

A reader walks over the tokens of a text and never goes back. A rule that cannot go on reports
what is wrong and fails; the list of rules around it then skips to a token from which it can go
on, so one fault does not hide the rest of the text. The walk ends at the token `eof`, which is
never passed. -/

namespace HdlLint.Syntax

/-- How far a text has been read, and what has been found wrong with it. -/
structure ParseState where
  /-- The tokens already passed, the last one first. -/
  passed : List Token
  /-- The tokens still to be read. -/
  rest : List Token
  /-- The faults reported, the last one first. -/
  reported : List Diagnostic
  deriving Inhabited

namespace ParseState

def init (tokens : List Token) : ParseState := ⟨[], tokens, []⟩

/-- The kind of the token `n` places ahead; `eof` past the end. -/
def kindAt (s : ParseState) (n : Nat) : TokenKind :=
  (s.rest[n]?).elim .eof Token.kind

def kind (s : ParseState) : TokenKind := s.kindAt 0

/-- The token at hand; past the end, the last one. -/
def token? (s : ParseState) : Option Token :=
  s.rest.head? <|> s.passed.head?

def span (s : ParseState) : Span :=
  s.token?.elim .nowhere Token.span

def text (s : ParseState) : String :=
  s.token?.elim "" Token.text

/-- The span of the token passed last. -/
def lastSpan (s : ParseState) : Span :=
  s.passed.head?.elim s.span Token.span

/-- Passes the token at hand, unless it is the end. -/
def advance (s : ParseState) : ParseState :=
  match s.rest with
  | [] => s
  | t :: ts => if t.kind = .eof then s else { s with passed := t :: s.passed, rest := ts }

def report (s : ParseState) (d : Diagnostic) : ParseState :=
  { s with reported := d :: s.reported }

/-- How a message names the token at hand. -/
def found (s : ParseState) : String :=
  if s.kind.isWord then "`" ++ s.text ++ "`" else s.kind.describe

/-- An upper bound on the number of tokens that can still be passed, plus one. -/
def budget (s : ParseState) : Nat := s.rest.length + 1

end ParseState

/-- A rule: it reads some tokens and gives a value, or reports a fault and fails where it stands. -/
abbrev Parse := OptionT (StateM ParseState)

namespace Parse

/-- Reports a fault and fails. -/
def fail {α : Type} (e : SyntaxError) (span : Span) : Parse α := do
  modify (·.report (e.toDiagnostic span))
  failure

/-- Fails because something else should stand here. -/
def expected {α : Type} (what : String) : Parse α := do
  let s ← get
  fail (.expected what s.found) s.span

/-- Fails because what stands here is not analysed. -/
def unsupported {α : Type} (what : String) : Parse α := do
  let s ← get
  fail (.unsupported what) s.span

/-- Runs a rule that may fail, and tells by `none` that it did. -/
def attempt {α : Type} (p : Parse α) : Parse (Option α) :=
  OptionT.mk (do return some (← p.run))

def kind : Parse TokenKind := return (← get).kind

def kindAt (n : Nat) : Parse TokenKind := return (← get).kindAt n

def span : Parse Span := return (← get).span

def text : Parse String := return (← get).text

def lastSpan : Parse Span := return (← get).lastSpan

def advance : Parse Unit := modify ParseState.advance

/-- Whether the token at hand is of the given kind. -/
def atKind (k : TokenKind) : Parse Bool := return (← get).kind == k

/-- Passes a token of the given kind, if it stands here. -/
def eat (k : TokenKind) : Parse Bool := do
  if ← atKind k then
    advance
    return true
  else
    return false

/-- Passes a token of the given kind, which must stand here, and gives its span. -/
def expect (k : TokenKind) : Parse Span := do
  let s ← get
  if s.kind == k then
    advance
    return s.span
  else
    expected k.describe

def eatWord (w : Keyword) : Parse Bool := eat (.keyword w)

def eatSign (s : Symbol) : Parse Bool := eat (.symbol s)

def expectWord (w : Keyword) : Parse Span := expect (.keyword w)

def expectSign (s : Symbol) : Parse Span := expect (.symbol s)

def atWord (w : Keyword) : Parse Bool := atKind (.keyword w)

def atSign (s : Symbol) : Parse Bool := atKind (.symbol s)

/-- A name, which must stand here. -/
def ident : Parse Ident := do
  let s ← get
  if s.kind == .identifier then
    advance
    return ⟨Ascii.lower s.text, s.span⟩
  else
    expected "identifier"

def name : Parse String := return (← ident).name

/-- Passes a name, if one stands here. -/
def eatName : Parse Unit := do
  let _ ← eat .identifier

/-- Whether a range goes on here. -/
def atDirection : Parse Bool := do
  let k ← kind
  return k == .keyword .kwTo || k == .keyword .kwDownto

/-- Whether a label stands here: a name and a colon. -/
def atLabel : Parse Bool := do
  let s ← get
  return s.kind == .identifier && s.kindAt 1 == .symbol .colon

/-- Gives a rule as much fuel as there are tokens left, which is enough for one that passes a token
before each step. -/
def fueled {α : Type} (p : Nat → Parse α) : Parse α := do
  p (← get).budget

/-- After one item: more items, each led by `sep`. -/
def moreAt {α : Type} (sep : Symbol) (item : Parse α) : Nat → Parse (List α)
  | 0 => return []
  | n + 1 => do
    if ← eatSign sep then
      let a ← item
      let more ← moreAt sep item n
      return a :: more
    else
      return []

/-- One item or more, divided by `sep`. -/
def separated {α : Type} (sep : Symbol) (item : Parse α) : Parse (List α) := do
  let first ← item
  let more ← fueled (moreAt sep item)
  return first :: more

/-- One name or more, divided by commas. -/
def names : Parse (List String) := separated .comma name

/-- The end of a construct after `end`: its word and its name, both left out at will, and `;`. -/
def finishEnd (w : Keyword) : Parse Unit := do
  let _ ← eatWord w
  eatName
  let _ ← expectSign .semicolon

/-! ### Skipping after a fault -/

/-- Passes tokens until `stop` holds or the text ends. -/
def skipUntilAt (stop : ParseState → Bool) : Nat → Parse Unit
  | 0 => return ()
  | n + 1 => do
    let s ← get
    if s.kind == .eof || stop s then
      return ()
    else
      advance
      skipUntilAt stop n

def skipUntil (stop : ParseState → Bool) : Parse Unit :=
  fueled (skipUntilAt stop)

/-- Skips past the next `;`. -/
def skipSentence : Parse Unit := do
  skipUntil fun s => s.kind == .symbol .semicolon
  let _ ← eatSign .semicolon

/-- Skips past the next `end` followed by `w`, and past the `;` after it. -/
def skipPastEnd (w : Keyword) : Parse Unit := do
  skipUntil fun s => s.kind == .keyword .kwEnd && s.kindAt 1 == .keyword w
  if (← get).kind == .eof then
    return ()
  else
    advance
    skipSentence

/-- The words with which a design unit, or a clause between units, starts. -/
def startsUnit (s : ParseState) : Bool :=
  s.passed.head?.all (fun t => t.kind != .keyword .kwEnd) &&
    (s.kind == .keyword .kwEntity || s.kind == .keyword .kwArchitecture ||
      s.kind == .keyword .kwPackage || s.kind == .keyword .kwLibrary || s.kind == .keyword .kwUse)

/-- Skips at least one token, and on to the next start of a unit. -/
def skipToUnit : Parse Unit := do
  advance
  skipUntil startsUnit

end Parse

end HdlLint.Syntax
