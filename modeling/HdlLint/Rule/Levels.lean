import HdlLint.Rule

/-! # How grave a breach of each rule is -/

namespace HdlLint

/-- The rules whose findings are errors, are left out, or are warnings. Texts that name no rule have
no effect. -/
structure RuleLevels where
  deny : List String := []
  allow : List String := []
  warn : List String := []
  deriving DecidableEq, Repr, Inhabited

namespace RuleLevels

/-- Whether a rule is named in a list. -/
def lists (entries : List String) (r : Rule) : Bool :=
  entries.any fun e => Rule.ofText? e == some r

/-- The severity of a rule's findings; `none` if they are left out. -/
def severity? (l : RuleLevels) (r : Rule) : Option Severity :=
  if lists l.allow r then none
  else if lists l.deny r then some .error
  else if lists l.warn r then some .warning
  else some r.defaultSeverity

/-- The rules whose findings count, with their severity. -/
def enabled (l : RuleLevels) : List (Rule × Severity) :=
  Rule.all.filterMap fun r => (l.severity? r).map (r, ·)

end RuleLevels

end HdlLint
