import HdlLint.Dict
import HdlLint.Rule.Levels
import HdlLint.Analysis
import HdlLint.Toml.Document

/-! # Settings of a project

A settings file is a table of sections. Keys that mean nothing are passed over. A section can also be
written as a list, which then holds the values of its keys in their order. -/

namespace HdlLint

open Toml (Value)

/-- How a report is written. -/
inductive ReportFormat where
  | text
  | json
  deriving DecidableEq, Repr, Inhabited

namespace ReportFormat

def word : ReportFormat → String
  | .text => "text"
  | .json => "json"

def ofWord? (w : String) : Option ReportFormat :=
  if w = "text" then some .text else if w = "json" then some .json else none

end ReportFormat

/-- A value for a generic. -/
inductive GenericSetting where
  | bool (b : Bool)
  | int (n : Int)
  deriving DecidableEq, Repr, Inhabited

namespace GenericSetting

def toValue : GenericSetting → Design.Value
  | .bool b => .bool b
  | .int n => .int n

end GenericSetting

structure ProjectSettings where
  name : Option String := none
  sources : List String := ["src"]
  top : List String := []
  deriving DecidableEq, Repr, Inhabited

structure AnalysisSettings where
  /-- The number of threads; zero leaves it open. It does not change what is found. -/
  jobs : Nat := 0
  maxWritePaths : Nat := Flow.defaultMaxWritePaths
  deriving DecidableEq, Repr, Inhabited

structure ReportSettings where
  format : ReportFormat := .text
  dedup : Bool := true
  deriving DecidableEq, Repr, Inhabited

structure Settings where
  project : ProjectSettings := {}
  analysis : AnalysisSettings := {}
  rules : RuleLevels := {}
  report : ReportSettings := {}
  /-- Values for generics, by top unit and by name. -/
  generics : Dict (Dict GenericSetting) := []
  deriving DecidableEq, Repr, Inhabited

/-- What is wrong with a settings file. -/
inductive SettingsError where
  /-- It is not written as such files are, or a value is of the wrong kind. -/
  | malformed
  | noWritePaths
  | noSources
  | unknownRule (rule list : String)
  deriving DecidableEq, Repr, Inhabited

namespace SettingsError

def message : SettingsError → String
  | .malformed => "failed to parse configuration: invalid TOML"
  | .noWritePaths => "validation error: analysis.max_write_paths must be at least 1"
  | .noSources => "validation error: project.sources must name at least one file or directory"
  | .unknownRule rule list => Rule.unknownMessage rule ++ " in [rules]." ++ list

end SettingsError

/-! ### Values of the right kind -/

namespace Settings

def text? : Value → Option String
  | .str s => some s
  | _ => none

def texts? : Value → Option (List String)
  | .array vs => vs.mapM text?
  | _ => none

def bool? : Value → Option Bool
  | .bool b => some b
  | _ => none

/-- A number that is not negative. -/
def count? : Value → Option Nat
  | .int n => if n ≥ 0 then some n.toNat else none
  | _ => none

/-- A format is given by its word. The word can also be the only key of a table and stand for an
empty list or table. -/
def format? : Value → Option ReportFormat
  | .str s => ReportFormat.ofWord? s
  | .table [(k, v)] => if v.isEmpty then ReportFormat.ofWord? k else none
  | _ => none

def generic? : Value → Option GenericSetting
  | .bool b => some (.bool b)
  | .int n => some (.int n)
  | _ => none

/-- A table whose entries are all of one kind. -/
def dict? {α : Type} (f : Value → Option α) : Value → Option (Dict α)
  | .table es => do
    return .ofList (← es.mapM fun (k, v) => do return (k, ← f v))
  | _ => none

/-! ### Sections -/

/-- The keys of a section, each with what its value changes. -/
abbrev Fields (α : Type) := List (String × (Value → α → Option α))

/-- Reads the entries of a table. -/
def readEntries {α : Type} (fields : Fields α) : List (String × Value) → α → Option α
  | [], a => some a
  | (k, v) :: es, a =>
    match fields.lookup k with
    | none => readEntries fields es a
    | some change => do readEntries fields es (← change v a)

/-- Reads the elements of a list, one per key. -/
def readElements {α : Type} : Fields α → List Value → α → Option α
  | (_, change) :: fields, v :: vs, a => do readElements fields vs (← change v a)
  | _, _, a => some a

/-- Reads a section. A date has no keys that mean something. -/
def readSection {α : Type} (fields : Fields α) (v : Value) (default : α) : Option α :=
  match v with
  | .table es => readEntries fields es default
  | .array vs => readElements fields vs default
  | .datetime => some default
  | _ => none

def projectFields : Fields ProjectSettings :=
  [("name", fun v p => do return { p with name := some (← text? v) }),
    ("sources", fun v p => do return { p with sources := ← texts? v }),
    ("top", fun v p => do return { p with top := ← texts? v })]

def analysisFields : Fields AnalysisSettings :=
  [("jobs", fun v a => do return { a with jobs := ← count? v }),
    ("max_write_paths", fun v a => do return { a with maxWritePaths := ← count? v })]

def ruleFields : Fields RuleLevels :=
  [("deny", fun v r => do return { r with deny := ← texts? v }),
    ("allow", fun v r => do return { r with allow := ← texts? v }),
    ("warn", fun v r => do return { r with warn := ← texts? v })]

def reportFields : Fields ReportSettings :=
  [("format", fun v r => do return { r with format := ← format? v }),
    ("dedup", fun v r => do return { r with dedup := ← bool? v })]

/-- The sections of a settings file. -/
def sections : Fields Settings :=
  [("project", fun v s => do return { s with project := ← readSection projectFields v {} }),
    ("analysis", fun v s => do return { s with analysis := ← readSection analysisFields v {} }),
    ("rules", fun v s => do return { s with rules := ← readSection ruleFields v {} }),
    ("report", fun v s => do return { s with report := ← readSection reportFields v {} }),
    ("generics", fun v s => do return { s with generics := ← dict? (dict? generic?) v })]

/-! ### Whole files -/

/-- The first text that names no rule, and the list in which it stands. -/
def unknownRule? (r : RuleLevels) : Option (String × String) :=
  [("deny", r.deny), ("allow", r.allow), ("warn", r.warn)].findSome? fun (list, entries) =>
    (entries.find? fun e => (Rule.ofText? e).isNone).map (·, list)

/-- What makes no sense in the settings. -/
def fault? (s : Settings) : Option SettingsError :=
  if s.analysis.maxWritePaths = 0 then some .noWritePaths
  else if s.project.sources.isEmpty then some .noSources
  else (unknownRule? s.rules).map fun (rule, list) => .unknownRule rule list

/-- The settings that the table of a file describes. -/
def read? (v : Toml.Value) : Option Settings := readSection sections v {}

/-- The settings that a file describes. -/
def parse (text : String) : Except SettingsError Settings :=
  match (Toml.parse text).bind read? with
  | none => .error .malformed
  | some s =>
    match s.fault? with
    | some e => .error e
    | none => .ok s

/-- The values for the generics of a top unit. Units and generics are named without regard to case;
of several values for one generic the one that is last in the order of the names counts. -/
def genericsFor (s : Settings) (top : String) : Dict GenericSetting :=
  .ofList ((s.generics.filter fun (unit, _) => Ascii.sameLetters unit top).flatMap fun (_, values) =>
    values.map fun (name, v) => (Ascii.lower name, v))

/-- What to analyse according to the settings. -/
def options (s : Settings) : Options where
  tops := s.project.top
  maxWritePaths := s.analysis.maxWritePaths
  rules := s.rules
  dedup := s.report.dedup
  generics := Dict.ofList (s.generics.map fun (unit, _) =>
    (Ascii.lower unit, (s.genericsFor unit).map fun (name, v) => (name, v.toValue)))

end Settings

end HdlLint
