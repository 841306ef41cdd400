import HdlLint.Design.Stmt
import HdlLint.Flow.SignalMap

/-! # The runs through a process

Each run is listed with its decisions and with the signals it assigns, up to a given number of runs.
An `if` without `else` and a `case` without `others` can be passed by; that is a run too. -/

namespace HdlLint.Flow

open Design (SignalId Stmt Branch Arm)

/-- What was asked and how it came out: a condition and its truth value, or the subject of a case
and the choices that it met. -/
structure Decision where
  subject : String
  outcome : String
  deriving DecidableEq, Repr, Inhabited

namespace Decision

def text (d : Decision) : String := d.subject ++ "=" ++ d.outcome

def holds (condition : String) : Decision := ⟨condition, "true"⟩

def fails (condition : String) : Decision := ⟨condition, "false"⟩

def isOther (subject : String) : Decision := ⟨subject, "others"⟩

end Decision

/-- A run through some statements. -/
structure WritePath where
  decisions : List Decision := []
  written : SignalSet := []
  deriving DecidableEq, Repr, Inhabited

namespace WritePath

/-- One run, followed by another. -/
def andThen (p q : WritePath) : WritePath :=
  ⟨p.decisions ++ q.decisions, SignalSet.union p.written q.written⟩

/-- A run that starts with some decisions. -/
def after (decisions : List Decision) (p : WritePath) : WritePath :=
  { p with decisions := decisions ++ p.decisions }

def text (p : WritePath) : String :=
  match p.decisions with
  | [] => "<straight-line>"
  | ds => ", ".intercalate (ds.map Decision.text)

end WritePath

/-- Runs in order, and whether some were left out. -/
structure Enumeration where
  paths : List WritePath
  truncated : Bool := false
  deriving DecidableEq, Repr, Inhabited

/-- Runs that are being listed. -/
structure Listing where
  runs : Array WritePath := #[]
  truncated : Bool := false
  deriving Inhabited

namespace Listing

def single (p : WritePath) : Listing := { runs := #[p] }

/-- Adds what `f` makes of each run, as long as there are fewer than `cap`. -/
def extend (cap : Nat) (f : WritePath → WritePath) (out : Listing) : List WritePath → Listing
  | [] => out
  | p :: ps =>
    if out.runs.size < cap then extend cap f { out with runs := out.runs.push (f p) } ps
    else { out with truncated := true }

/-- The runs that go on with one of `right` after one of `left`. -/
def product (cap : Nat) (left right : Listing) : Listing :=
  let next := right.runs.toList
  left.runs.foldl (fun out p => out.extend cap p.andThen next)
    { truncated := left.truncated || right.truncated }

/-- Adds the runs through an alternative, each with the decisions that lead to it. -/
def choose (cap : Nat) (out : Listing) (decisions : List Decision) (alternative : Listing) : Listing :=
  { out with truncated := out.truncated || alternative.truncated }.extend cap (·.after decisions)
    alternative.runs.toList

end Listing

mutual

/-- The runs through a statement. -/
def stmtRuns (cap : Nat) : Stmt → Listing
  | .assign a => .single { written := [a.target] }
  | .ifs branches none _ => branchRuns cap (.single {}) {} [] branches
  | .ifs branches (some body) _ => branchRuns cap (blockRuns cap (.single {}) body) {} [] branches
  | .case _ subject arms none _ => armRuns cap (.single {}) subject {} arms
  | .case _ subject arms (some body) _ => armRuns cap (blockRuns cap (.single {}) body) subject {} arms
  | .null _ => .single {}

/-- The runs in `acc`, continued through a block. -/
def blockRuns (cap : Nat) (acc : Listing) : List Stmt → Listing
  | [] => acc
  | s :: ss => blockRuns cap (acc.product cap (stmtRuns cap s)) ss

/-- Adds the runs through the branches of an `if`, and those on which all its conditions fail. -/
def branchRuns (cap : Nat) (otherwise out : Listing) (failed : List Decision) : List Branch → Listing
  | [] => out.choose cap failed otherwise
  | ⟨_, text, body⟩ :: bs =>
    branchRuns cap otherwise (out.choose cap (failed ++ [.holds text]) (blockRuns cap (.single {}) body))
      (failed ++ [.fails text]) bs

/-- Adds the runs through the arms of a `case`, and those on which none is met. -/
def armRuns (cap : Nat) (others : Listing) (subject : String) (out : Listing) : List Arm → Listing
  | [] => out.choose cap [.isOther subject] others
  | ⟨_, text, body⟩ :: as =>
    armRuns cap others subject (out.choose cap [⟨subject, text⟩] (blockRuns cap (.single {}) body)) as

end

/-- The first runs through the body of a process: `cap` of them, but at least one. -/
def writePaths (body : List Stmt) (cap : Nat) : Enumeration :=
  let all := blockRuns (max cap 1) (.single {}) body
  ⟨all.runs.toList, all.truncated⟩

end HdlLint.Flow
