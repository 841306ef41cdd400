import HdlLint.Text.Blank
import HdlLint.Diagnostic

/-! # Rules of design discipline -/

namespace HdlLint

inductive Rule where
  | sensitivityIncomplete
  | latchInferred
  | clockedProcessImpure
  | registerDualDriven
  deriving DecidableEq, Repr, Inhabited

namespace Rule

/-- The rules in the order in which they are applied and listed. -/
def all : List Rule :=
  [.sensitivityIncomplete, .latchInferred, .clockedProcessImpure, .registerDualDriven]

/-- The place of a rule in the list of rules. -/
def rank : Rule → Nat
  | .sensitivityIncomplete => 0
  | .latchInferred => 1
  | .clockedProcessImpure => 2
  | .registerDualDriven => 3

/-- The word by which reports name a rule. -/
def id : Rule → String
  | .sensitivityIncomplete => "SENSITIVITY_INCOMPLETE"
  | .latchInferred => "LATCH_INFERRED"
  | .clockedProcessImpure => "CLOCKED_PROCESS_IMPURE"
  | .registerDualDriven => "REGISTER_DUAL_DRIVEN"

/-- The word by which settings usually name a rule. -/
def name : Rule → String
  | .sensitivityIncomplete => "sensitivity-incomplete"
  | .latchInferred => "latch-inferred"
  | .clockedProcessImpure => "clocked-process-impure"
  | .registerDualDriven => "register-dual-driven"

def description : Rule → String
  | .sensitivityIncomplete => "combinational process reads a signal missing from its sensitivity list"
  | .latchInferred => "combinational process does not assign a signal on every path"
  | .clockedProcessImpure => "clocked process assigns a signal outside its clock-edge guard"
  | .registerDualDriven => "register is also assigned by a combinational process"

def defaultSeverity : Rule → Severity
  | .clockedProcessImpure => .warning
  | .sensitivityIncomplete | .latchInferred | .registerDualDriven => .error

/-- The rule that a text names: its id in letters of any case, or its name. -/
def ofText? (text : String) : Option Rule :=
  let wanted := Blank.trim text
  all.find? fun r => Ascii.sameLetters r.id wanted || r.name == wanted

/-- What is said of a text that names no rule. -/
def unknownMessage (text : String) : String := "unknown rule '" ++ text ++ "'"

end Rule

end HdlLint
