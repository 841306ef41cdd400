/-! # Values of a settings file

The settings file is written in TOML. -/

namespace HdlLint.Toml

inductive Value where
  | str (text : String)
  | int (n : Int)
  /-- A number with a fraction or an exponent. No setting takes one, so its value is not kept. -/
  | float
  | bool (b : Bool)
  /-- A date, a time or both. No setting takes one, so its value is not kept. -/
  | datetime
  | array (elements : List Value)
  /-- Each key occurs once. -/
  | table (entries : List (String × Value))
  deriving Inhabited

namespace Value

/-- Whether a value is a list or a table without members. -/
def isEmpty : Value → Bool
  | .array [] => true
  | .table [] => true
  | _ => false

end Value

end HdlLint.Toml
