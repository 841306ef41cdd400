import HdlLint.Proofs.Occurrence
import HdlLint.Proofs.Preorder

/-!
# First assignments

`stmtAt?` follows a path down a block: the number of a statement, then the number of one of the
blocks under it, then the number of a statement in that block, and so on. Among such paths pre-order
is the order of the tree, and the first assignments that are recorded for a block are the first on
these paths (`records_writes`).
-/

namespace HdlLint

namespace Design.Stmt

/-- The blocks under a statement. The one without a condition comes last. -/
def blocks : Stmt → List (List Stmt)
  | .assign _ | .null _ => []
  | .ifs branches otherwise _ => branches.map (·.body) ++ otherwise.toList
  | .case _ _ arms others _ => arms.map (·.body) ++ others.toList

theorem mem_alternatives_of_mem_blocks {s : Stmt} {b : List Stmt} (h : b ∈ s.blocks) :
    b ∈ s.alternatives := by
  cases s with
  | assign | null => cases h
  | ifs branches otherwise span =>
    cases otherwise <;> simp_all [blocks, alternatives]
  | case subject text arms others span =>
    cases others <;> simp_all [blocks, alternatives]

/-- What the statement itself assigns. -/
def assigned? : Stmt → Option (SignalId × Span)
  | .assign a => some (a.target, a.span)
  | .ifs _ _ _ | .case _ _ _ _ _ | .null _ => none

end Design.Stmt

namespace Flow
open Design

/-- The statement to which a path leads. -/
def stmtAt? : List Stmt → StmtPath → Option Stmt
  | _, [] => none
  | ss, [n] => ss[n]?
  | ss, n :: k :: path => (ss[n]?).bind fun s => (s.blocks[k]?).bind fun b => stmtAt? b path

/-- What the statement at the end of a path assigns. -/
def assignAt? (body : List Stmt) (path : StmtPath) : Option (SignalId × Span) :=
  (stmtAt? body path).bind (·.assigned?)

theorem assignAt?_eq_some {body : List Stmt} {path : StmtPath} {id : SignalId} {span : Span} :
    assignAt? body path = some (id, span) ↔
      ∃ a, stmtAt? body path = some (.assign a) ∧ a.target = id ∧ a.span = span := by
  rw [assignAt?, Option.bind_eq_some_iff]
  constructor
  · rintro ⟨s, hs, h⟩
    cases s with
    | assign a =>
      obtain ⟨rfl, rfl⟩ := Prod.mk.inj (Option.some.inj h)
      exact ⟨a, hs, rfl, rfl⟩
    | ifs | case | null => cases h
  · rintro ⟨a, ha, rfl, rfl⟩
    exact ⟨_, ha, rfl⟩

theorem stmtAssignments_blocks (s : Stmt) :
    stmtAssignments s = s.assigned?.toList ++ s.blocks.flatMap assignments := by
  cases s with
  | assign a => rfl
  | null => rfl
  | ifs branches otherwise span =>
    cases otherwise <;> simp [stmtAssignments, Stmt.assigned?, Stmt.blocks, branchAssignments_eq]
  | case subject text arms others span =>
    cases others <;> simp [stmtAssignments, Stmt.assigned?, Stmt.blocks, armAssignments_eq]

theorem assignments_eq (body : List Stmt) : assignments body = body.flatMap stmtAssignments := by
  induction body with
  | nil => rfl
  | cons s ss ih => rw [assignments, ih, List.flatMap_cons]

/-- The assignments in and under one statement, by the rest of the path. -/
def stmtAssignAt? (s : Stmt) : Address → Option (SignalId × Span) :=
  node s.assigned? (fun b _ => assignAt? b) s.blocks

theorem assignAt?_eq_node (body : List Stmt) :
    assignAt? body = node none (fun s _ => stmtAssignAt? s) body := by
  funext path
  rcases path with - | ⟨n, - | ⟨k, path⟩⟩
  · rfl
  · rfl
  · simp only [assignAt?, stmtAt?, stmtAssignAt?, node, Option.bind_assoc]

theorem preordered_stmtAssignments {s : Stmt}
    (ih : ∀ b ∈ s.blocks, Preordered (assignAt? b) (assignments b)) :
    Preordered (stmtAssignAt? s) (stmtAssignments s) := by
  rw [stmtAssignments_blocks, ← rows_flatMap]
  exact .node fun b k hb => ih b (List.mem_of_getElem? hb)

/-- The assignments are listed in the order of their paths. -/
theorem preordered_assignments (body : List Stmt) :
    Preordered (assignAt? body) (assignments body) := by
  induction body using nested_induction with
  | step body ih =>
    rw [assignAt?_eq_node, assignments_eq, ← rows_flatMap]
    refine .parts fun s n hs => preordered_stmtAssignments fun b hb => ?_
    exact ih s (List.mem_of_getElem? hs) b (Stmt.mem_alternatives_of_mem_blocks hb)

theorem records_writes (body : List Stmt) :
    (writes body).Records fun id path span => assignAt? body path = some (id, span) :=
  (preordered_assignments body).records

end Flow

end HdlLint
