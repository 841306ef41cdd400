/-! # ASCII text

Names of a design are compared without regard to the case of their letters, and only the letters
`A` to `Z` have two cases. The predicates here are the character classes of the language. -/

namespace HdlLint.Ascii

/-- The text with every capital `A` to `Z` replaced by its small letter. -/
def lower (s : String) : String :=
  String.ofList (s.toList.map Char.toLower)

/-- Two texts are the same up to the case of the letters `A` to `Z`. -/
def sameLetters (s t : String) : Bool :=
  lower s == lower t

/-- Blanks between tokens: space, tab, line feed, form feed and carriage return. -/
def isBlank (c : Char) : Bool :=
  c == ' ' || c == '\t' || c == '\n' || c == '\x0c' || c == '\r'

/-- A word starts with a letter. -/
def isWordStart (c : Char) : Bool :=
  c.isAlpha

/-- A word goes on with letters, digits and underscores. -/
def isWordRest (c : Char) : Bool :=
  c.isAlphanum || c == '_'

/-- Decimal digits, and the underscores that may group them. -/
def isDigitRest (c : Char) : Bool :=
  c.isDigit || c == '_'

/-- The value of a digit in a base up to sixteen. -/
def digitValue (c : Char) : Option Nat :=
  if c.isDigit then some (c.toNat - '0'.toNat)
  else if 'a' ≤ c ∧ c ≤ 'f' then some (c.toNat - 'a'.toNat + 10)
  else if 'A' ≤ c ∧ c ≤ 'F' then some (c.toNat - 'A'.toNat + 10)
  else none

/-- Digits of a based literal, and the underscores that may group them. -/
def isBasedRest (c : Char) : Bool :=
  (digitValue c).isSome || c == '_'

/-- The number that a non-empty list of digits denotes in `base`. -/
def number? (base : Nat) : List Char → Option Nat
  | [] => none
  | digits => digits.foldl (fun acc c => do
      let n ← acc
      let d ← digitValue c
      if d < base then some (n * base + d) else none) (some 0)

/-- `s` filled up with `fill` on the left to at least `width` characters. -/
def padLeft (width : Nat) (fill : Char) (s : String) : String :=
  String.ofList (List.replicate (width - s.length) fill) ++ s

/-- `s` filled up with blanks on the right to at least `width` characters. -/
def padRight (width : Nat) (s : String) : String :=
  s ++ String.ofList (List.replicate (width - s.length) ' ')

/-- `c` written `n` times. -/
def times (n : Nat) (c : Char) : String :=
  String.ofList (List.replicate n c)

end HdlLint.Ascii
