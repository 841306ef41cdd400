import HdlLint.Check
import HdlLint.Report
import HdlLint.Workspace
import HdlLint.Design.Elaborate

/-! # Analysing a library

Each top unit is elaborated and checked for itself. One that cannot be elaborated is reported and
does not stop the others. -/

namespace HdlLint

open Design (Overrides Path)
open Syntax (Library)

/-- What to analyse, and how. -/
structure Options where
  /-- If there are none, the units that no other unit asks for. -/
  tops : List String := []
  maxWritePaths : Nat := Flow.defaultMaxWritePaths
  rules : RuleLevels := {}
  /-- Whether findings that differ only in their paths are merged. -/
  dedup : Bool := true
  /-- The digest by which they are known. By default it keeps all bytes. -/
  digest : Digest := id
  /-- Values for the generics of top units, by the name of the unit in small letters. -/
  generics : List (String × Overrides) := []
  deriving Inhabited

namespace Options

/-- The values for the generics of a top unit. -/
def genericsFor (o : Options) (top : String) : Overrides :=
  (o.generics.lookup (Ascii.lower top)).getD []

/-- The top units to analyse. -/
def topsOf (o : Options) (l : Library) : List String :=
  if o.tops.isEmpty then l.roots else o.tops

end Options

/-- The findings in one instance, by rule. -/
structure InstanceCheck where
  path : Path
  byRule : List (Rule × List Finding)
  deriving Inhabited

namespace InstanceCheck

def findings (c : InstanceCheck) : List Finding := c.byRule.flatMap (·.2)

end InstanceCheck

/-- A top unit that was elaborated and checked. -/
structure TopCheck where
  /-- The number of units in its hierarchy. -/
  units : Nat
  design : Design.Hierarchy
  instances : List InstanceCheck
  deriving Inhabited

namespace TopCheck

def findings (c : TopCheck) : List Finding := c.instances.flatMap (·.findings)

end TopCheck

/-- Checks every instance of a design. -/
def checkHierarchy (o : Options) (h : Design.Hierarchy) : List InstanceCheck :=
  h.instances.map fun i => ⟨i.path, (View.ofInstance h.top o.maxWritePaths i).check o.rules⟩

/-- Elaborates and checks one top unit. -/
def checkTop (l : Library) (o : Options) (top : String) : Design.Result TopCheck := do
  let found ← Design.findTop l top
  let design ← found.elaborate l (o.genericsFor top)
  return ⟨found.graph.units.length, design, checkHierarchy o design⟩

/-- What became of one top unit. -/
structure TopRun where
  /-- As the unit was asked for. -/
  name : String
  result : Design.Result TopCheck
  deriving Inhabited

namespace TopRun

def findings (r : TopRun) : List Finding :=
  match r.result with
  | .ok c => c.findings
  | .error _ => []

def failure? (r : TopRun) : Option (String × Diagnostic) :=
  match r.result with
  | .ok _ => none
  | .error e => some (r.name, e.toDiagnostic)

end TopRun

/-- Elaborates and checks all top units. -/
def checkTops (l : Library) (o : Options) : List TopRun :=
  (o.topsOf l).map fun top => ⟨top, checkTop l o top⟩

/-- The report on what became of the top units. -/
def reportOn (o : Options) (sources : Sources) (runs : List TopRun) : Report :=
  .build o.dedup sources (runs.flatMap (·.findings)) (runs.filterMap (·.failure?)) o.digest

/-- Analyses a library, whatever faults were found while reading it. -/
def analyze (l : Library) (sources : Sources) (o : Options) : Report :=
  reportOn o sources (checkTops l o)

namespace Workspace

/-- Analyses what has been read, unless there are faults in it. -/
def check (w : Workspace) (o : Options) : Report :=
  if w.collector.hasErrors then .empty else analyze w.library w.sources o

/-- The exit code of a run: one if there are faults in what has been read or errors in the report. -/
def exitCode (w : Workspace) (r : Report) : Nat :=
  if w.collector.hasErrors then 1 else r.exitCode

end Workspace

end HdlLint
