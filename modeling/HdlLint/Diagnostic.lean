import HdlLint.Text.Ascii
import HdlLint.Source

/-! # Diagnostics

A diagnostic is a problem that stops the analysis of a text or of a unit: a fault in the written
text or a design that cannot be elaborated. It is not subject to the settings. -/

namespace HdlLint

/-- How grave a problem is. Only errors make a run fail. -/
inductive Severity where
  | warning
  | error
  deriving DecidableEq, Repr, Inhabited

namespace Severity

def word : Severity → String
  | .warning => "warning"
  | .error => "error"

/-- The graver problem has the greater rank. -/
def rank : Severity → Nat
  | .warning => 0
  | .error => 1

/-- The word, set in yellow or red on a colour terminal. -/
def paint (color : Bool) (s : Severity) : String :=
  if color then
    match s with
    | .warning => "\x1b[1;33m" ++ s.word ++ "\x1b[0m"
    | .error => "\x1b[1;31m" ++ s.word ++ "\x1b[0m"
  else s.word

end Severity

/-- The letter of a diagnostic's code. -/
inductive Category where
  | error
  | warning
  deriving DecidableEq, Repr, Inhabited

namespace Category

def letter : Category → String
  | .error => "E"
  | .warning => "W"

def word : Category → String
  | .error => "Error"
  | .warning => "Warning"

end Category

/-- The code by which a kind of problem is known. -/
structure Code where
  category : Category
  number : Nat
  deriving DecidableEq, Repr, Inhabited

namespace Code

def error (number : Nat) : Code := ⟨.error, number⟩

/-- The letter and the number in at least three digits. -/
def text (c : Code) : String :=
  c.category.letter ++ Ascii.padLeft 3 '0' (toString c.number)

end Code

/-- A problem with the place where it was found. -/
structure Diagnostic where
  severity : Severity
  code : Code
  message : String
  span : Span
  notes : List String := []
  help : List String := []
  deriving DecidableEq, Repr, Inhabited

namespace Diagnostic

/-- An error without footnotes. -/
def error (code : Code) (message : String) (span : Span) : Diagnostic :=
  { severity := .error, code, message, span }

def isError (d : Diagnostic) : Bool := d.severity == .error

/-- The lines that quote the source: the place, the line, and carets under the span. -/
def quote (d : Diagnostic) (sources : Sources) : String :=
  match sources.file? d.span.file with
  | none => ""
  | some f =>
    let (line, column) := f.lineColumn d.span.start
    let number := toString line
    let gutter := Ascii.times number.length ' '
    let indent := Ascii.times (column - 1) ' '
    let carets := Ascii.times (max (d.span.stop - d.span.start) 1) '^'
    "  --> " ++ (sources.location d.span).text ++ "\n" ++
      gutter ++ " |\n" ++ number ++ " | " ++ f.lineAt d.span.start ++ "\n" ++
      gutter ++ " | " ++ indent ++ carets ++ "\n"

/-- The diagnostic as it is shown on a terminal. -/
def render (d : Diagnostic) (sources : Sources) (color : Bool) : String :=
  d.severity.paint color ++ "[" ++ d.code.text ++ "]: " ++ d.message ++ "\n" ++ d.quote sources ++
    String.join (d.notes.map fun note => "   = note: " ++ note ++ "\n") ++
    String.join (d.help.map fun help => "   = help: " ++ help ++ "\n")

end Diagnostic

/-- Diagnostics held for later, with the number of errors among all that ever came in. -/
structure Collector where
  held : List Diagnostic := []
  errors : Nat := 0
  deriving Inhabited

namespace Collector

def emit (c : Collector) (d : Diagnostic) : Collector :=
  ⟨c.held ++ [d], if d.isError then c.errors + 1 else c.errors⟩

def extend (c : Collector) (ds : List Diagnostic) : Collector :=
  ds.foldl emit c

/-- Hands out what is held. The number of errors stays. -/
def take (c : Collector) : List Diagnostic × Collector :=
  (c.held, { c with held := [] })

def hasErrors (c : Collector) : Bool := c.errors > 0

end Collector

end HdlLint
