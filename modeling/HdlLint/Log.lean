import HdlLint.Text.Ascii

/-! # Messages on the progress of a run -/

namespace HdlLint

/-- How much a message matters. -/
inductive LogLevel where
  | debug
  | info
  | warn
  deriving DecidableEq, Repr, Inhabited

namespace LogLevel

def word : LogLevel → String
  | .debug => "debug"
  | .info => "info"
  | .warn => "warn"

def rank : LogLevel → Nat
  | .debug => 0
  | .info => 1
  | .warn => 2

end LogLevel

structure LogEvent where
  level : LogLevel
  message : String
  deriving DecidableEq, Repr, Inhabited

namespace LogEvent

def debug (message : String) : LogEvent := ⟨.debug, message⟩

def info (message : String) : LogEvent := ⟨.info, message⟩

def warn (message : String) : LogEvent := ⟨.warn, message⟩

/-- The line that is shown. -/
def text (e : LogEvent) : String :=
  "[" ++ Ascii.padRight 5 e.level.word ++ "] " ++ e.message ++ "\n"

/-- Whether an event matters at least as much as a level. -/
def isShown (least : LogLevel) (e : LogEvent) : Bool := least.rank ≤ e.level.rank

end LogEvent

end HdlLint
