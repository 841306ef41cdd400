import HdlLint.Text.Ascii
import HdlLint.Toml.Value
import HdlLint.Toml.Reader

/-! # Numbers -/

namespace HdlLint.Toml

/-- Integers are words of sixty-four bits. -/
def isWord (n : Int) : Bool := -9223372036854775808 ≤ n && n ≤ 9223372036854775807

/-- Numbers from here on are nearer to infinity than to the greatest binary number of sixty-four
bits. -/
def floatLimit : Nat := Nat.pow 2 1024 - Nat.pow 2 970

/-- Whether `digits` times the given power of ten is too great for a binary number. Powers far from
the limit are told apart by their size alone. -/
def overflows (digits : Nat) (exponent : Int) : Bool :=
  let size : Int := (toString digits).length + exponent
  if digits = 0 || size < 300 then false
  else if size > 320 then true
  else if exponent ≥ 0 then digits * Nat.pow 10 exponent.toNat ≥ floatLimit
  else digits ≥ floatLimit * Nat.pow 10 (-exponent).toNat

namespace Reader

/-- Digits, of which single underscores may stand in between. -/
def digits (isDigit : Char → Bool) : Reader (List Char) := do
  let first ← satisfy isDigit
  let rest ← many (do let _ ← optional (char '_'); satisfy isDigit)
  return first :: rest

def isNegative : Reader Bool := do
  match ← optional (satisfy fun c => c == '+' || c == '-') with
  | some c => return c == '-'
  | none => return false

/-- The number in a base, as digits spell it. -/
def valueOf (base : Nat) (ds : List Char) : Nat := (Ascii.number? base ds).getD 0

/-- A number in base sixteen, eight or two. -/
def based (mark : Char) (base : Nat) : Reader Value := do
  word ['0', mark]
  let ds ← digits fun c => (Ascii.digitValue c).any (· < base)
  let n := valueOf base ds
  if isWord n then return .int n else failure

def special : Reader Value := do
  let _ ← isNegative
  word ['i', 'n', 'f'] <|> word ['n', 'a', 'n']
  return .float

def fraction : Reader (List Char) := do
  char '.'
  digits Char.isDigit

def exponent : Reader Int := do
  let _ ← satisfy fun c => c == 'e' || c == 'E'
  let negative ← isNegative
  let n := valueOf 10 (← digits Char.isDigit)
  return if negative then -(n : Int) else n

/-- A decimal number. It has no leading zeros, and if it has a fraction or an exponent it must not be
too great; there is no such limit below. -/
def decimal : Reader Value := do
  let negative ← isNegative
  let whole ← digits Char.isDigit
  guard (whole.length == 1 || whole.head? != some '0')
  match ← optional fraction, ← optional exponent with
  | none, none =>
    let n : Int := valueOf 10 whole
    let n := if negative then -n else n
    if isWord n then return .int n else failure
  | frac, exp =>
    let frac := frac.getD []
    guard (negative || !overflows (valueOf 10 (whole ++ frac)) (exp.getD 0 - frac.length))
    return .float

def number : Reader Value :=
  based 'x' 16 <|> based 'o' 8 <|> based 'b' 2 <|> special <|> decimal

end Reader

end HdlLint.Toml
