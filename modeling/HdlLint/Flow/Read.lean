import HdlLint.Design.Stmt
import HdlLint.Flow.SignalMap

/-! # What a process reads -/

namespace HdlLint.Flow

open Design (SignalId Expr Stmt Branch Arm)

/-- The role in which a signal is read. -/
inductive Role where
  | value
  | condition
  | subject
  | choice
  /-- An index or a bound of an assignment's target. -/
  | targetIndex
  deriving DecidableEq, Repr, Inhabited

namespace Role

def word : Role → String
  | .value => "assignment"
  | .condition => "condition"
  | .subject => "case subject"
  | .choice => "case choice"
  | .targetIndex => "target index"

end Role

/-- The place of a statement: its index in its block, then, if it has branches, the index of one of
them, then an index in that branch, and so on. The branch without a condition comes last. -/
abbrev StmtPath := List Nat

namespace StmtPath

/-- One index further. Indices are words of 32 bits. -/
def step (p : StmtPath) (i : Nat) : StmtPath := p ++ [i % 4294967296]

def text (p : StmtPath) : String := ".".intercalate (p.map toString)

end StmtPath

/-- Where and how a signal is read. -/
structure Use where
  stmt : StmtPath
  role : Role
  span : Span
  deriving DecidableEq, Repr, Inhabited

/-- The reads of an expression that stands in a statement in some role. -/
def exprUses (place : StmtPath) (role : Role) (e : Expr) : List (SignalId × Use) :=
  e.signals.map fun (id, span) => (id, ⟨place, role, span⟩)

/-- The reads in the target of an assignment. -/
def selectorUses (place : StmtPath) (s : Option Design.Selector) : List (SignalId × Use) :=
  match s with
  | none => []
  | some s => s.signals.map fun (id, span) => (id, ⟨place, .targetIndex, span⟩)

mutual

/-- The reads of a statement, in the order of the tree. -/
def stmtUses (place : StmtPath) : Stmt → List (SignalId × Use)
  | .assign a => selectorUses place a.selector ++ exprUses place .value a.value
  | .ifs branches none _ => branchUses place 0 branches
  | .ifs branches (some body) _ =>
    branchUses place 0 branches ++ uses (place.step branches.length) 0 body
  | .case subject _ arms none _ => exprUses place .subject subject ++ armUses place 0 arms
  | .case subject _ arms (some body) _ =>
    exprUses place .subject subject ++ armUses place 0 arms ++ uses (place.step arms.length) 0 body
  | .null _ => []

/-- The reads of the statements of a block from index `i` on. -/
def uses (place : StmtPath) (i : Nat) : List Stmt → List (SignalId × Use)
  | [] => []
  | s :: ss => stmtUses (place.step i) s ++ uses place (i + 1) ss

/-- The reads of the branches of an `if` from index `i` on. -/
def branchUses (place : StmtPath) (i : Nat) : List Branch → List (SignalId × Use)
  | [] => []
  | ⟨condition, _, body⟩ :: bs =>
    exprUses place .condition condition ++ uses (place.step i) 0 body ++ branchUses place (i + 1) bs

/-- The reads of the arms of a `case` from index `i` on. -/
def armUses (place : StmtPath) (i : Nat) : List Arm → List (SignalId × Use)
  | [] => []
  | ⟨choices, _, body⟩ :: as =>
    choices.flatMap (exprUses place .choice) ++ uses (place.step i) 0 body ++
      armUses place (i + 1) as

end

/-- Each signal that is read, with its first use. -/
def reads (body : List Stmt) : SignalMap Use := SignalMap.firsts (uses [] 0 body)

end HdlLint.Flow
