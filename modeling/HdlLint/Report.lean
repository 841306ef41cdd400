import HdlLint.Finding

/-! # Reports

A report holds the findings of a run in a fixed order. Findings that differ only in their place in
the hierarchy can be merged into one entry. A top unit that cannot be elaborated is a failure, which
is always an error and is never merged. -/

namespace HdlLint

open Design (Path)

/-- A finding with its location and all the paths at which it was made. -/
structure Entry where
  finding : Finding
  location : Location
  /-- The first path and the others, in ascending order. -/
  path : Path
  others : List Path
  deriving DecidableEq, Repr, Inhabited

namespace Entry

def paths (e : Entry) : List Path := e.path :: e.others

/-- Entries are ordered by top unit, first path, location and rule. -/
def compare (a b : Entry) : Ordering :=
  (Ord.compare a.finding.top b.finding.top).then
    ((a.path.compare b.path).then
      ((a.location.compare b.location).then (Ord.compare a.finding.rule.rank b.finding.rule.rank)))

end Entry

/-- A top unit that could not be elaborated. -/
structure Failure where
  top : String
  diagnostic : Diagnostic
  location : Location
  deriving DecidableEq, Repr, Inhabited

structure Report where
  entries : List Entry
  failures : List Failure
  deriving DecidableEq, Repr, Inhabited

/-! ### Merging -/

/-- What the findings of one group have in common. -/
structure RepeatKey where
  top : String
  fingerprint : List UInt8
  deriving DecidableEq, Repr, Inhabited

def Finding.repeatKey (digest : Digest) (f : Finding) : RepeatKey := ⟨f.top, f.fingerprint digest⟩

/-- Findings that differ only in their paths: the first of them, and the paths of the others. -/
structure Repeats where
  key : RepeatKey
  first : Finding
  paths : List Path
  deriving DecidableEq, Repr, Inhabited

/-- Puts a finding into the group with its key, or into a new one at the end. -/
def addRepeat (key : RepeatKey) (f : Finding) : List Repeats → List Repeats
  | [] => [⟨key, f, []⟩]
  | r :: rs =>
    if r.key = key then { r with paths := r.paths ++ [f.path] } :: rs else r :: addRepeat key f rs

/-- The groups of findings, in the order of their first members. -/
def groupRepeats (digest : Digest) (findings : List Finding) : List Repeats :=
  findings.foldl (fun rs f => addRepeat (f.repeatKey digest) f rs) []

/-- Keeps one path of each run of equal ones. -/
def collapseRuns : List Path → List Path
  | [] => []
  | [p] => [p]
  | p :: q :: ps => if p = q then collapseRuns (q :: ps) else p :: collapseRuns (q :: ps)

/-- The entry of a group, which stands at the first of its paths. -/
def Repeats.entry (sources : Sources) (r : Repeats) : Entry :=
  let location := sources.location r.first.span
  match collapseRuns ((r.first.path :: r.paths).mergeSort fun p q => (p.compare q).isLE) with
  | [] => ⟨r.first, location, r.first.path, []⟩
  | p :: ps => ⟨{ r.first with path := p }, location, p, ps⟩

/-! ### Counts -/

/-- Counts one more of the key. The keys stand in the order of their ranks. -/
def countOne {κ : Type} (rank : κ → Nat) (key : κ) : List (κ × Nat) → List (κ × Nat)
  | [] => [(key, 1)]
  | (k, n) :: counts =>
    if rank key < rank k then (key, 1) :: (k, n) :: counts
    else if rank key = rank k then (k, n + 1) :: counts
    else (k, n) :: countOne rank key counts

namespace Report

/-- The numbers of entries by rule and by severity, without those that are zero, and of failures. -/
structure Summary where
  byRule : List (Rule × Nat) := []
  bySeverity : List (Severity × Nat) := []
  failures : Nat := 0
  deriving DecidableEq, Repr, Inhabited

namespace Summary

def add (s : Summary) (e : Entry) : Summary :=
  { s with
    byRule := countOne Rule.rank e.finding.rule s.byRule
    bySeverity := countOne Severity.rank e.finding.severity s.bySeverity }

def tally (entries : List Entry) (failures : Nat) : Summary := entries.foldl add { failures }

def ruleCount (s : Summary) (rule : Rule) : Nat := (s.byRule.lookup rule).getD 0

def severityCount (s : Summary) (severity : Severity) : Nat := (s.bySeverity.lookup severity).getD 0

def errors (s : Summary) : Nat := s.severityCount .error

def warnings (s : Summary) : Nat := s.severityCount .warning

end Summary

/-! ### Building -/

/-- One entry per finding, or per group of findings that differ in their paths only. -/
def entriesOf (digest : Digest) (dedup : Bool) (sources : Sources) (findings : List Finding) :
    List Entry :=
  if dedup then (groupRepeats digest findings).map (Repeats.entry sources)
  else findings.map fun f => ⟨f, sources.location f.span, f.path, []⟩

/-- The report on findings and failures. Equal keys keep their order. -/
def build (dedup : Bool) (sources : Sources) (findings : List Finding)
    (failures : List (String × Diagnostic)) (digest : Digest := id) : Report where
  entries := (entriesOf digest dedup sources findings).mergeSort fun a b => (a.compare b).isLE
  failures := (failures.map fun (top, d) =>
      (⟨top, { d with severity := .error }, sources.location d.span⟩ : Failure)).mergeSort
    fun a b => decide (a.top ≤ b.top)

/-- The report of a run that found nothing. -/
def empty : Report := ⟨[], []⟩

def summary (r : Report) : Summary := .tally r.entries r.failures.length

def ruleCount (r : Report) (rule : Rule) : Nat := r.summary.ruleCount rule

def severityCount (r : Report) (severity : Severity) : Nat := r.summary.severityCount severity

def errors (r : Report) : Nat := r.summary.errors

def warnings (r : Report) : Nat := r.summary.warnings

def hasErrors (r : Report) : Bool := !r.failures.isEmpty || r.errors > 0

/-- Errors make a run fail; warnings do not. -/
def exitCode (r : Report) : Nat := if r.hasErrors then 1 else 0

end Report

end HdlLint
