import HdlLint.Text.Ascii
import HdlLint.Toml.Reader

/-! # Quoted text -/

namespace HdlLint.Toml

namespace Reader

/-- The character that a number of hexadecimal digits stands for. -/
def unicode (digits : Nat) : Reader Char := do
  let ds ← times (satisfy fun c => (Ascii.digitValue c).isSome) digits
  match Ascii.number? 16 ds with
  | some n => if n.isValidChar then return Char.ofNat n else failure
  | none => failure

/-- The character that an escape stands for. -/
def escape : Reader Char := do
  char '\\'
  match ← satisfy fun _ => true with
  | 'b' => return '\x08'
  | 'f' => return '\x0c'
  | 'n' => return '\n'
  | 'r' => return '\r'
  | 't' => return '\t'
  | '\\' => return '\\'
  | '\x22' => return '\x22'
  | 'u' => unicode 4
  | 'U' => unicode 8
  | _ => failure

/-- Characters between double quotes that stand for themselves. -/
def plain : Reader Char := satisfy fun c => isText c && c != '\x22' && c != '\\'

/-- Text between double quotes, on one line. -/
def basicText : Reader String := do
  char '\x22'
  let cs ← many (plain <|> escape)
  char '\x22'
  return String.ofList cs

/-- Text between single quotes, on one line. There are no escapes. -/
def literalText : Reader String := do
  char '\x27'
  let cs ← takeWhile fun c => isText c && c != '\x27'
  char '\x27'
  return String.ofList cs

/-- A backslash at the end of a line, which joins it with the next line that is not blank. -/
def joint : Reader Unit := do
  char '\\'
  blanks
  newline
  let _ ← many ((do let _ ← satisfy isBlank) <|> newline)

/-- One or two quotes inside a text of several lines. -/
def innerQuotes (quote : Char) : Reader (List Char) := do
  let qs ← takeWhile (· == quote)
  guard (qs.length == 1 || qs.length == 2)
  return qs

/-- The three quotes that end a text of several lines, after at most two that belong to it. -/
def closingQuotes (quote : Char) : Reader (List Char) := do
  let qs ← takeWhile (· == quote)
  guard (3 ≤ qs.length && qs.length ≤ 5)
  return qs.drop 3

/-- Text of several lines between three quotes. A new line right after the opening does not count. -/
def lines (quote : Char) (content : Reader (List Char)) : Reader String := do
  word [quote, quote, quote]
  let _ ← optional newline
  let parts ← many (content <|> innerQuotes quote)
  let last ← closingQuotes quote
  return String.ofList (parts.flatten ++ last)

/-- A new line, however it is written. -/
def lineFeed : Reader (List Char) := do
  newline
  return ['\n']

/-- Text of several lines between double quotes. -/
def basicLines : Reader String :=
  lines '\x22' ((do return [← plain]) <|> (do joint; return []) <|> (do return [← escape]) <|> lineFeed)

/-- Text of several lines between single quotes. -/
def literalLines : Reader String :=
  lines '\x27' ((do return [← satisfy fun c => isText c && c != '\x27']) <|> lineFeed)

/-- Quoted text of any kind. -/
def text : Reader String := basicLines <|> basicText <|> literalLines <|> literalText

end Reader

end HdlLint.Toml
