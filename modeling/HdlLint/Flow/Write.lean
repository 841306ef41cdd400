import HdlLint.Design.Stmt
import HdlLint.Flow.SignalMap

/-! # What a process assigns

A run through the body of a process takes one branch of each `if` and one arm of each `case` that it
meets. A signal is written always if every run assigns it, and sometimes if some runs do and others
do not. -/

namespace HdlLint.Flow

open Design (SignalId Stmt Branch Arm)

mutual

/-- The assignments of a statement with their spans, in the order of the tree: those under `others` come
behind those of the arms, wherever it is written. -/
def stmtAssignments : Stmt → List (SignalId × Span)
  | .assign a => [(a.target, a.span)]
  | .ifs branches none _ => branchAssignments branches
  | .ifs branches (some body) _ => branchAssignments branches ++ assignments body
  | .case _ _ arms none _ => armAssignments arms
  | .case _ _ arms (some body) _ => armAssignments arms ++ assignments body
  | .null _ => []

/-- The assignments of a block. -/
def assignments : List Stmt → List (SignalId × Span)
  | [] => []
  | s :: ss => stmtAssignments s ++ assignments ss

/-- The assignments in the branches of an `if`. -/
def branchAssignments : List Branch → List (SignalId × Span)
  | [] => []
  | ⟨_, _, body⟩ :: bs => assignments body ++ branchAssignments bs

/-- The assignments in the arms of a `case`. -/
def armAssignments : List Arm → List (SignalId × Span)
  | [] => []
  | ⟨_, _, body⟩ :: as => assignments body ++ armAssignments as

end

/-- Each assigned signal with its first assignment. -/
def writes (body : List Stmt) : SignalMap Span := SignalMap.firsts (assignments body)

mutual

/-- The signals that every run through a statement assigns. A statement that may be passed by has
none. -/
def stmtAlwaysWritten : Stmt → SignalSet
  | .assign a => [a.target]
  | .ifs branches (some body) _ => branchesAlwaysWritten branches (alwaysWritten body)
  | .case _ _ arms (some body) _ => armsAlwaysWritten arms (alwaysWritten body)
  | .ifs _ none _ | .case _ _ _ none _ | .null _ => []

/-- The signals that every run through a block assigns. -/
def alwaysWritten : List Stmt → SignalSet
  | [] => []
  | s :: ss => SignalSet.union (stmtAlwaysWritten s) (alwaysWritten ss)

/-- Those of `rest` that every branch assigns on every run. -/
def branchesAlwaysWritten : List Branch → SignalSet → SignalSet
  | [], rest => rest
  | ⟨_, _, body⟩ :: bs, rest => SignalSet.inter (alwaysWritten body) (branchesAlwaysWritten bs rest)

/-- Those of `rest` that every arm assigns on every run. -/
def armsAlwaysWritten : List Arm → SignalSet → SignalSet
  | [], rest => rest
  | ⟨_, _, body⟩ :: as, rest => SignalSet.inter (alwaysWritten body) (armsAlwaysWritten as rest)

end

/-- The signals that some runs assign and others do not. -/
def sometimesWritten (body : List Stmt) : SignalSet :=
  let always := alwaysWritten body
  (writes body).keys.filter fun id => !always.contains id

end HdlLint.Flow
