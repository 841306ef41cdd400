import HdlLint.Diagnostic

/-! # Faults of a design text -/

namespace HdlLint

/-- What is wrong with a written text. -/
inductive SyntaxError where
  | unterminatedComment
  | unterminatedString
  | unterminatedBased
  | unexpectedCharacter
  | expected (what found : String)
  | literalRange
  | missingLabel
  | unsupported (what : String)
  | choiceList
  deriving DecidableEq, Repr, Inhabited

namespace SyntaxError

/-- `E100` for characters that form no token, `E101` for tokens that form no sentence, `E103` for
sentences of the language that are not analysed. -/
def code : SyntaxError → Code
  | .unterminatedComment | .unterminatedString | .unterminatedBased | .unexpectedCharacter => .error 100
  | .expected .. | .literalRange | .missingLabel => .error 101
  | .unsupported _ | .choiceList => .error 103

def message : SyntaxError → String
  | .unterminatedComment => "unterminated block comment"
  | .unterminatedString => "unterminated string literal"
  | .unterminatedBased => "unterminated based literal"
  | .unexpectedCharacter => "unexpected character"
  | .expected what found => s!"expected {what}, found {found}"
  | .literalRange => "integer literal out of range"
  | .missingLabel => "instantiations and generate statements need a label"
  | .unsupported what => s!"{what} is not supported"
  | .choiceList => "aggregate choice lists are not supported"

def toDiagnostic (e : SyntaxError) (span : Span) : Diagnostic :=
  .error e.code e.message span

end SyntaxError

end HdlLint
