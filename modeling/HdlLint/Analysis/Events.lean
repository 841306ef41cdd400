import HdlLint.Log
import HdlLint.Analysis

/-! # What is told about an analysis -/

namespace HdlLint

open Syntax (Library)

/-- Warns of each entity that replaces one with its name. -/
def repeatedEntities (seen : List String) : List Syntax.Entity → List LogEvent
  | [] => []
  | e :: es =>
    if seen.contains e.name then
      .warn ("entity `" ++ e.name ++ "` declared more than once; the last declaration is used") ::
        repeatedEntities seen es
    else repeatedEntities (e.name :: seen) es

/-- Warns of units that are replaced or left out. -/
def libraryEvents (l : Library) : List LogEvent :=
  repeatedEntities [] l.entities ++
    (l.architectures.filter fun a => (l.entity? a.entity).isNone).map fun a =>
      .warn ("architecture `" ++ a.name ++ "` of unknown entity `" ++ a.entity ++ "` ignored")

/-- Tells how many findings the rules made in an instance. -/
def InstanceCheck.events (top : String) (c : InstanceCheck) : List LogEvent :=
  (c.byRule.filter fun (_, fs) => !fs.isEmpty).map fun (r, fs) =>
    .debug (r.id ++ " at `" ++ top ++ "[" ++ c.path.text ++ "]`: " ++ toString fs.length ++
      " finding(s)")

/-- Tells what became of a top unit. -/
def TopRun.events (r : TopRun) : List LogEvent :=
  match r.result with
  | .error e => [.debug ("`" ++ r.name ++ "` failed to elaborate: " ++ e.message)]
  | .ok c =>
    .debug ("elaborated `" ++ r.name ++ "`: " ++ toString c.units ++ " units, " ++
        toString c.design.instances.length ++ " instances, " ++ toString c.design.processCount ++
        " processes") ::
      c.instances.flatMap (·.events c.design.top)

/-- Tells all about an analysis. The library is looked through once for its top units, if none were
asked for, and once for their hierarchies. -/
def analysisEvents (l : Library) (o : Options) (runs : List TopRun) (r : Report) : List LogEvent :=
  let tops := runs.map (·.name)
  let findings := (runs.flatMap (·.findings)).length
  let entries := r.entries.length
  (if o.tops.isEmpty then libraryEvents l else []) ++
    (if tops.isEmpty then
      [.warn "no top unit found: no entity with an architecture is left uninstantiated"]
    else []) ++
    .debug ("analyzing " ++ toString tops.length ++ " top unit(s): " ++ ", ".intercalate tops) ::
    libraryEvents l ++ runs.flatMap (·.events) ++
    [.debug ("report: " ++ toString findings ++ " finding(s) merged into " ++ toString entries ++
      " entr" ++ (if entries = 1 then "y" else "ies"))]

end HdlLint
