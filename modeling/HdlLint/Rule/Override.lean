import HdlLint.Rule.Levels

/-! # Levels given on the command line

A rule that is named on the command line has the level it is given there, whatever the settings say
of it. -/

namespace HdlLint

/-- The lists that a rule can be put on. -/
inductive RuleLevel where
  | deny
  | allow
  | warn
  deriving DecidableEq, Repr, Inhabited

namespace RuleLevel

def word : RuleLevel → String
  | .deny => "deny"
  | .allow => "allow"
  | .warn => "warn"

end RuleLevel

/-- A text on the command line that names no rule. -/
structure UnknownRule where
  level : RuleLevel
  text : String
  deriving DecidableEq, Repr, Inhabited

namespace UnknownRule

def message (e : UnknownRule) : String :=
  "--" ++ e.level.word ++ ": " ++ Rule.unknownMessage e.text

end UnknownRule

namespace RuleLevels

/-- A list without the texts that name a rule. -/
def without (entries : List String) (r : Rule) : List String :=
  entries.filter fun e => Rule.ofText? e != some r

/-- Takes a rule off all lists. -/
def clear (l : RuleLevels) (r : Rule) : RuleLevels :=
  ⟨without l.deny r, without l.allow r, without l.warn r⟩

/-- Puts a rule at the end of a list, and on no other. -/
def put (l : RuleLevels) (level : RuleLevel) (r : Rule) : RuleLevels :=
  let l := l.clear r
  match level with
  | .deny => { l with deny := l.deny ++ [r.id] }
  | .allow => { l with allow := l.allow ++ [r.id] }
  | .warn => { l with warn := l.warn ++ [r.id] }

/-- Puts the rules that texts name on a list, one after the other. -/
def putAll (level : RuleLevel) : List String → RuleLevels → Except UnknownRule RuleLevels
  | [], l => .ok l
  | e :: es, l =>
    match Rule.ofText? e with
    | none => .error ⟨level, e⟩
    | some r => putAll level es (l.put level r)

/-- The levels of the settings, changed by those of the command line. Of two lists that name one rule
the later one counts: `deny`, then `allow`, then `warn`. -/
def override (settings flags : RuleLevels) : Except UnknownRule RuleLevels := do
  let l ← putAll .deny flags.deny settings
  let l ← putAll .allow flags.allow l
  putAll .warn flags.warn l

end RuleLevels

end HdlLint
