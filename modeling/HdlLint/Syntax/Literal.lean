import HdlLint.Text.Ascii

/-! # The value of an integer literal

A literal is decimal, such as `1_000` or `2e3`, or based, such as `16#ff#`. Underscores only group
digits. Values are those of a signed word of 64 bits. -/

namespace HdlLint.Syntax.Literal

/-- The largest value of a signed word of 64 bits. -/
def maxInt : Nat := 9223372036854775807

/-- A natural number that is at most `bound`. -/
def atMost (bound n : Nat) : Option Nat :=
  if n ≤ bound then some n else none

/-- The largest base whose digits are known. -/
def maxBase : Nat := 16

/-- `digits` in base `base`, for a base from two to sixteen. -/
def based? (base digits : List Char) : Option Nat := do
  let b ← Ascii.number? 10 base
  if 2 ≤ b ∧ b ≤ maxBase then (Ascii.number? b digits).bind (atMost maxInt) else none

/-- A power of ten larger than this one is out of range. -/
def maxExponent : Nat := 18

/-- `mantissa` times ten to the power `exponent`. A power of ten that is out of range makes the
literal out of range, also for a mantissa of zero. -/
def scaled? (mantissa exponent : List Char) : Option Nat := do
  let m ← (Ascii.number? 10 mantissa).bind (atMost maxInt)
  let e ← Ascii.number? 10 exponent
  if e ≤ maxExponent then atMost maxInt (m * Nat.pow 10 e) else none

/-- The text before the first character of a kind, and the text after it. -/
def splitAt? (p : Char → Bool) (cs : List Char) : Option (List Char × List Char) :=
  match cs.dropWhile (fun c => !p c) with
  | [] => none
  | _ :: rest => some (cs.takeWhile (fun c => !p c), rest)

/-- The text without the characters `c` at its end. -/
def trimEnd (c : Char) (cs : List Char) : List Char :=
  (cs.reverse.dropWhile (· = c)).reverse

/-- The value of an integer literal as it was written; `none` if it is out of range. -/
def value? (text : List Char) : Option Nat :=
  let cs := text.filter (· ≠ '_')
  match splitAt? (· = '#') cs with
  | some (base, rest) => based? base (trimEnd '#' rest)
  | none =>
    match splitAt? (fun c => c = 'e' || c = 'E') cs with
    | some (mantissa, exponent) => scaled? mantissa (exponent.dropWhile (· = '+'))
    | none => (Ascii.number? 10 cs).bind (atMost maxInt)

end HdlLint.Syntax.Literal
