/-! # Data as JSON text -/

namespace HdlLint

/-- Data for another program. The members of an object keep their order. -/
inductive Json where
  | num (n : Int)
  | str (s : String)
  | arr (elements : List Json)
  | obj (members : List (String × Json))
  deriving Inhabited

namespace Json

/-- A hexadecimal digit in small letters. -/
def hexDigit (n : Nat) : Char :=
  if n < 10 then Char.ofNat ('0'.toNat + n) else Char.ofNat ('a'.toNat + (n - 10))

/-- A character inside a quoted text. Only quotes, backslashes and control characters are escaped. -/
def escape (c : Char) : List Char :=
  if c = '\x22' then ['\\', '\x22']
  else if c = '\\' then ['\\', '\\']
  else if c = '\n' then ['\\', 'n']
  else if c = '\r' then ['\\', 'r']
  else if c = '\t' then ['\\', 't']
  else if c = '\x08' then ['\\', 'b']
  else if c = '\x0c' then ['\\', 'f']
  else if c.toNat < 32 then ['\\', 'u', '0', '0', hexDigit (c.toNat / 16), hexDigit (c.toNat % 16)]
  else [c]

def quote (s : String) : String :=
  "\"" ++ String.ofList (s.toList.flatMap escape) ++ "\""

/-- A new line at a depth; each level is indented by two blanks. -/
def newline (depth : Nat) : String :=
  "\n" ++ String.ofList (List.replicate (2 * depth) ' ')

mutual

/-- The text of a value that stands at a depth. -/
def prettyAt (depth : Nat) : Json → String
  | .num n => toString n
  | .str s => quote s
  | .arr [] => "[]"
  | .arr (x :: xs) =>
    "[" ++ newline (depth + 1) ++ prettyAt (depth + 1) x ++ elementsAt (depth + 1) xs ++
      newline depth ++ "]"
  | .obj [] => "\x7b\x7d"
  | .obj ((k, x) :: xs) =>
    "\x7b" ++ newline (depth + 1) ++ quote k ++ ": " ++ prettyAt (depth + 1) x ++
      membersAt (depth + 1) xs ++ newline depth ++ "\x7d"

/-- The further elements of an array. -/
def elementsAt (depth : Nat) : List Json → String
  | [] => ""
  | x :: xs => "," ++ newline depth ++ prettyAt depth x ++ elementsAt depth xs

/-- The further members of an object. -/
def membersAt (depth : Nat) : List (String × Json) → String
  | [] => ""
  | (k, x) :: xs => "," ++ newline depth ++ quote k ++ ": " ++ prettyAt depth x ++ membersAt depth xs

end

/-- The text of a value, one element or member a line. -/
def pretty (j : Json) : String := prettyAt 0 j

end Json

end HdlLint
