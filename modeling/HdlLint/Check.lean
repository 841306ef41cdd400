import HdlLint.Finding
import HdlLint.Rule.Levels
import HdlLint.Design.Instance
import HdlLint.Flow.Summary

/-! # Applying the rules

Each rule looks at one instance at a time, through the summaries of its processes. -/

namespace HdlLint

open Design (SignalId Instance Process)
open HdlLint.Flow (Summary)

/-- An instance as the rules see it. -/
structure View where
  /-- The name of the top unit. -/
  top : String
  inst : Instance
  processes : List (Process × Summary)
  deriving Inhabited

namespace View

/-- The view of an instance, with at most `cap` runs listed per process. -/
def ofInstance (top : String) (cap : Nat) (inst : Instance) : View :=
  ⟨top, inst, inst.processes.toList.map fun p => (p, Flow.summarize cap p)⟩

/-- The name of a signal between backticks. -/
def quoted (v : View) (id : SignalId) : String := "`" ++ v.inst.signalName id ++ "`"

/-- A finding about a process. -/
def ofProcess (v : View) (rule : Rule) (p : Process) (message : String) (span : Span) : Finding :=
  { rule, severity := rule.defaultSeverity, top := v.top, path := p.scope
    origin := .process p.origin.entity p.origin.architecture p.origin.ordinal
    subject := p.name, message, span }

/-- A finding about a signal of the instance. -/
def ofSignal (v : View) (rule : Rule) (id : SignalId) (message : String) (span : Span) : Finding :=
  { rule, severity := rule.defaultSeverity, top := v.top, path := v.inst.path
    origin := .architecture v.inst.entity v.inst.architecture
    subject := v.inst.signalName id, message, span }

/-! ### Signals that do not start the process which reads them -/

def sensitivityOf (v : View) (p : Process) (s : Summary) : List Finding :=
  if s.isClocked || p.sensitivity == .all then []
  else
    (s.reads.filter fun (id, _) => !p.sensitivity.covers id).map fun (id, use) =>
      v.ofProcess .sensitivityIncomplete p
        ("signal " ++ v.quoted id ++ " is read but missing from the sensitivity list") use.span

def sensitivityIncomplete (v : View) : List Finding :=
  v.processes.flatMap fun (p, s) => v.sensitivityOf p s

/-! ### Signals that keep their value on some runs of a process -/

/-- The listed runs on which a signal is not assigned. -/
def latchNotes (s : Summary) (id : SignalId) : List String :=
  (s.pathsWithout id).map (fun p => "not assigned when: " ++ p.text) ++
    (if s.paths.truncated then
      ["only the first " ++ toString s.paths.paths.length ++ " paths were enumerated"]
    else [])

def latchesOf (v : View) (p : Process) (s : Summary) : List Finding :=
  if s.isClocked then []
  else
    s.sometimes.map fun id =>
      { v.ofProcess .latchInferred p
          ("signal " ++ v.quoted id ++ " is not assigned on every path; a latch is inferred")
          ((s.writes.lookup id).getD p.origin.span) with
        notes := latchNotes s id }

def latchInferred (v : View) : List Finding :=
  v.processes.flatMap fun (p, s) => v.latchesOf p s

/-! ### Clocked processes that also assign outside their clock edge -/

def impuritiesOf (v : View) (p : Process) (s : Summary) : List Finding :=
  match s.guard with
  | none => []
  | some g =>
    s.unguarded.map fun (id, span) =>
      v.ofProcess .clockedProcessImpure p
        ("signal " ++ v.quoted id ++ " is assigned outside the edge guard on " ++ v.quoted g.signal)
        span

def clockedProcessImpure (v : View) : List Finding :=
  v.processes.flatMap fun (p, s) => v.impuritiesOf p s

/-! ### Registers that are assigned by a combinational process as well -/

/-- The signals that some clocked process assigns under its clock edge. -/
def registers (v : View) : Flow.SignalSet :=
  v.processes.foldl (fun rs (_, s) => Flow.SignalSet.union rs s.guarded.keys) []

/-- The combinational processes that assign a register: the earliest of their first assignments to it,
and their names. -/
structure Conflict where
  span : Span
  writers : List String
  deriving DecidableEq, Repr, Inhabited

/-- Enters that a process assigns a signal, first at the span. -/
def addWriter (m : Flow.SignalMap Conflict) (id : SignalId) (span : Span) (name : String) :
    Flow.SignalMap Conflict :=
  match m with
  | [] => [(id, ⟨span, [name]⟩)]
  | (x, c) :: rest =>
    if id < x then (id, ⟨span, [name]⟩) :: (x, c) :: rest
    else if id = x then (x, ⟨c.span.earlier span, c.writers ++ [name]⟩) :: rest
    else (x, c) :: addWriter rest id span name

/-- Enters all registers that a process assigns, unless it is clocked. -/
def addWriters (registers : Flow.SignalSet) (m : Flow.SignalMap Conflict) (p : Process) (s : Summary) :
    Flow.SignalMap Conflict :=
  if s.isClocked then m
  else
    s.writes.foldl (fun m (id, span) =>
      if registers.contains id then addWriter m id span p.name else m) m

def conflictsAmong (registers : Flow.SignalSet) (processes : List (Process × Summary)) :
    Flow.SignalMap Conflict :=
  processes.foldl (fun m (p, s) => addWriters registers m p s) []

/-- The processes that assign a signal under their clock edge. -/
def clockedWriters (v : View) (id : SignalId) : List Process :=
  (v.processes.filter fun (_, s) => (s.guarded.lookup id).isSome).map (·.1)

def dualDriver (v : View) (id : SignalId) (c : Conflict) : Finding :=
  { v.ofSignal .registerDualDriven id
      ("register " ++ v.quoted id ++ " is also assigned by a combinational process") c.span with
    notes :=
      (v.clockedWriters id).map (fun p => "registered by clocked process `" ++ p.name ++ "`") ++
        c.writers.map fun name => "assigned by combinational process `" ++ name ++ "`" }

def registerDualDriven (v : View) : List Finding :=
  let registers := v.registers
  if registers.isEmpty then []
  else (conflictsAmong registers v.processes).map fun (id, c) => v.dualDriver id c

/-! ### All rules -/

/-- The findings of a rule, with the severity that it has by default. -/
def findings (v : View) : Rule → List Finding
  | .sensitivityIncomplete => v.sensitivityIncomplete
  | .latchInferred => v.latchInferred
  | .clockedProcessImpure => v.clockedProcessImpure
  | .registerDualDriven => v.registerDualDriven

/-- The findings of each rule that is not left out, with the severity that the rule is given. -/
def check (v : View) (levels : RuleLevels) : List (Rule × List Finding) :=
  levels.enabled.map fun (r, severity) => (r, (v.findings r).map ({ · with severity }))

end View

end HdlLint
