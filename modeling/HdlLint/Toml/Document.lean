import HdlLint.Toml.Text
import HdlLint.Toml.Number
import HdlLint.Toml.Date
import HdlLint.Toml.Table

/-! # Settings files -/

namespace HdlLint.Toml

/-- Lists and tables are nested less deep than this, and dotted keys have fewer parts. -/
def nestingLimit : Nat := 80

namespace Reader

def isBareKey (c : Char) : Bool := c.isAlphanum || c == '-' || c == '_'

/-- A key without quotes. -/
def bareKey : Reader String := do
  let cs ← takeWhile isBareKey
  guard !cs.isEmpty
  return String.ofList cs

/-- The parts of a dotted key: those before the last one, and the last one. -/
def key : Reader (List String × String) := do
  let parts ← separated
    (do blanks; let k ← basicText <|> literalText <|> bareKey; blanks; return k) '.'
  guard (parts.length < nestingLimit)
  match parts.getLast? with
  | some last => return (parts.dropLast, last)
  | none => failure

/-- A key with its value. -/
def assignment (value : Reader Value) : Reader Assignment := do
  let (path, k) ← key
  char '='
  blanks
  return ⟨path, k, ← value⟩

def truth : Reader Value :=
  (do word ['t', 'r', 'u', 'e']; return .bool true) <|>
    (do word ['f', 'a', 'l', 's', 'e']; return .bool false)

def scalar : Reader Value :=
  (Value.str <$> text) <|> truth <|> (do moment; return .datetime) <|> number

/-- A list over several lines. A comma may follow the last element. -/
def array (element : Reader Value) : Reader Value := do
  char '['
  let elements ← optional do
    let es ← separated (do gaps; let e ← element; gaps; return e) ','
    let _ ← optional (char ',')
    return es
  gaps
  char ']'
  return .array (elements.getD [])

/-- A table on one line. -/
def inlineTable (value : Reader Value) : Reader Value := do
  char '\x7b'
  let entries ← optional (separated (do let a ← assignment value; blanks; return a) ',')
  blanks
  char '\x7d'
  match Table.empty.insertAll (entries.getD []) with
  | some t => return t.toValue
  | none => failure

/-- A value in which lists and tables are nested at most `n` deep. -/
def value : Nat → Reader Value
  | 0 => scalar
  | n + 1 => array (value n) <|> inlineTable (value n) <|> scalar

/-- A value as it stands in a file. -/
def fileValue : Reader Value := value (nestingLimit - 1)

end Reader

/-- A line of a settings file. -/
inductive Line where
  | blank
  | assignment (a : Assignment)
  | header (h : Header)
  deriving Inhabited

namespace Reader

def header : Reader Header :=
  (do
    word ['[', '[']
    let (path, k) ← key
    word [']', ']']
    trailing
    return ⟨path, k, true⟩) <|>
  (do
    char '['
    let (path, k) ← key
    char ']'
    trailing
    return ⟨path, k, false⟩)

def line : Reader Line := do
  let l ← (do comment; lineEnd; return .blank) <|> (.header <$> header) <|>
    (do newline; return .blank) <|>
    (do let a ← assignment fileValue; trailing; return .assignment a)
  blanks
  return l

/-- The lines of a whole file. There may be a byte order mark in front. -/
def file : Reader (List Line) := do
  let _ ← optional (char '\ufeff')
  blanks
  let ls ← many line
  atEnd
  return ls

end Reader

/-- The assignments up to the first header, and the sections. -/
def sections : List Line → List Assignment × List (Header × List Assignment)
  | [] => ([], [])
  | .blank :: ls => sections ls
  | .assignment a :: ls =>
    let (front, rest) := sections ls
    (a :: front, rest)
  | .header h :: ls =>
    let (body, rest) := sections ls
    ([], (h, body) :: rest)

/-- Puts the sections of a file together. -/
def build (lines : List Line) : Option Table := do
  let (front, rest) := sections lines
  let root ← Table.empty.insertAll front
  rest.foldlM (fun t (h, body) => t.addSection h body) root

/-- The table that a file describes. -/
def parse (text : String) : Option Value := do
  let (lines, _) ← Reader.file.run text.toList
  return (← build lines).toValue

end HdlLint.Toml
