import HdlLint.Flow.Write
import HdlLint.Flow.Path
import HdlLint.Flow.Read
import HdlLint.Flow.Clock

/-! # What the rules need to know of a process -/

namespace HdlLint.Flow

open Design (SignalId Stmt Process)

/-- The number of runs that are listed if the settings say nothing. -/
def defaultMaxWritePaths : Nat := 4096

structure Summary where
  guard : Option ClockGuard
  reads : SignalMap Use
  paths : Enumeration
  always : SignalSet
  sometimes : SignalSet
  writes : SignalMap Span
  /-- The first assignments under the clock edge. -/
  guarded : SignalMap Span
  /-- The first assignments of a clocked process outside its clock edge. -/
  unguarded : SignalMap Span
  deriving Inhabited

namespace Summary

def isClocked (s : Summary) : Bool := s.guard.isSome

/-- The listed runs that do not assign a signal. -/
def pathsWithout (s : Summary) (id : SignalId) : List WritePath :=
  s.paths.paths.filter fun p => !p.written.contains id

end Summary

/-- The assignments in the branch at index `i` and those in the others, for an `if` that is the
whole body. -/
def splitAssignments (i : Nat) (body : List Stmt) :
    List (SignalId × Span) × List (SignalId × Span) :=
  match body with
  | [.ifs branches otherwise _] =>
    ((branches[i]?).elim [] (assignments ·.body),
      branchAssignments (branches.eraseIdx i) ++ otherwise.elim [] assignments)
  | _ => ([], [])

/-- What is to be known of a process, with at most `cap` runs. -/
def summarize (cap : Nat) (p : Process) : Summary :=
  let guard := clockGuard? p
  let (guarded, unguarded) :=
    match guard with
    | some g => splitAssignments g.branch p.body
    | none => ([], [])
  { guard
    reads := reads p.body
    paths := writePaths p.body cap
    always := alwaysWritten p.body
    sometimes := sometimesWritten p.body
    writes := writes p.body
    guarded := .firsts guarded
    unguarded := .firsts unguarded }

end HdlLint.Flow
