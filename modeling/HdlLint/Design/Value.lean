import HdlLint.Syntax.Expr

/-! # Constants of a design -/

namespace HdlLint.Design

/-- The value of a constant. -/
inductive Value where
  | int (n : Int)
  | bool (b : Bool)
  | char (c : Char)
  /-- A string or bit string, as it was written. -/
  | str (text : String)
  | enumeration (literal : String)
  /-- A value that is not followed: an array, a record, the result of a function. -/
  | composite
  deriving DecidableEq, Repr, Inhabited

namespace Value

def int? : Value → Option Int
  | .int n => some n
  | _ => none

def bool? : Value → Option Bool
  | .bool b => some b
  | _ => none

/-- The kinds of values that messages tell apart. -/
def kindName : Value → String
  | .int _ => "integer"
  | .bool _ => "boolean"
  | .char _ => "character"
  | .str _ => "string"
  | .enumeration _ => "enumeration literal"
  | .composite => "composite value"

/-- Whether two values are of one kind. -/
def sameKind : Value → Value → Bool
  | .int _, .int _ => true
  | .bool _, .bool _ => true
  | .char _, .char _ => true
  | .str _, .str _ => true
  | .enumeration _, .enumeration _ => true
  | .composite, .composite => true
  | _, _ => false

/-- How a message names a value that does not fit: numbers and truth values by themselves, others
by their kind. -/
def describe : Value → String
  | .int n => toString n
  | .bool b => if b then "true" else "false"
  | v => v.kindName

end Value

end HdlLint.Design
