import HdlLint.Proofs.Attribution
import HdlLint.Proofs.Discipline
import HdlLint.Proofs.FirstAssignments

/-!
# First uses

A signal is read where an expression of a statement names it. `readAt?` says what is read at an
address: the number of a statement, the number of one of its pieces (`pieces`), and so on down to a
part of an expression. Pieces and parts are numbered in the order of the tree, so the first use that
is recorded for a signal is the one at the first address (`records_reads`), and its path leads to the
statement in which the signal is named (`stmtAt?_of_readAt?`).

The rule on sensitivity makes one finding for each signal that a combinational process reads and does
not list, at this first use (`View.sensitivityOf_attributed`).
-/

namespace HdlLint.Flow
open Design

/-! ### Expressions -/

/-- The signal that the expression itself names, with the span of the name. -/
def name? : Expr → Option (SignalId × Span)
  | .signal id s | .index id s _ _ | .slice id s _ _ _ | .attribute id s _ _ => some (id, s)
  | .const _ _ | .call _ _ _ | .unary _ _ _ | .binary _ _ _ _ | .aggregate _ _ => none

/-- The signal that is named in an expression at an address. -/
def nameAt? : Expr → Address → Option (SignalId × Span)
  | e, [] => name? e
  | e, k :: a => (e.parts[k]?).bind fun x => nameAt? x a

theorem signalsOfAll_eq (es : List Expr) : Expr.signalsOfAll es = es.flatMap (·.signals) := by
  induction es with
  | nil => rfl
  | cons e es ih => rw [Expr.signalsOfAll, ih, List.flatMap_cons]

theorem signals_eq (e : Expr) : e.signals = (name? e).toList ++ e.parts.flatMap (·.signals) := by
  cases e <;> simp [Expr.signals, name?, Expr.parts, signalsOfAll_eq]

theorem preordered_signals (e : Expr) : Preordered (nameAt? e) e.signals := by
  induction e using Expr.induction_parts with
  | step e ih =>
    have hnode : nameAt? e = node (name? e) (fun x _ => nameAt? x) e.parts := by
      funext a
      cases a <;> rfl
    rw [hnode, signals_eq, ← rows_flatMap]
    exact .node fun x k hx => ih x (List.mem_of_getElem? hx)

/-! ### Statements -/

/-- A piece of a statement. -/
inductive Piece where
  | operand (role : Role) (e : Expr)
  /-- A block, with its number among the blocks under the statement. -/
  | block (number : Nat) (body : List Stmt)

/-- The pieces of a statement in the order of the tree: a selector before the value, a condition
before its branch, the subject of a case before its arms, the choices of an arm before its block, and
the block without a condition last. -/
def pieces : Stmt → List Piece
  | .assign a =>
    (a.selector.elim [] Selector.operands).map (.operand .targetIndex) ++ [.operand .value a.value]
  | .ifs branches otherwise _ =>
    rows (fun b k => [.operand .condition b.condition, .block k b.body]) branches ++
      otherwise.toList.map (.block branches.length)
  | .case subject _ arms others _ =>
    .operand .subject subject ::
      (rows (fun a k => a.choices.map (.operand .choice) ++ [.block k a.body]) arms ++
        others.toList.map (.block arms.length))
  | .null _ => []

/-- The read at an address in a block that stands at a place: the signal, and how it is used. -/
def readAt? : StmtPath → List Stmt → Address → Option (SignalId × Use)
  | place, ss, n :: j :: a =>
    (ss[n]?).bind fun s => ((pieces s)[j]?).bind fun
      | .operand role e => (nameAt? e a).map fun x => (x.1, ⟨place.step n, role, x.2⟩)
      | .block k body => readAt? ((place.step n).step k) body a
  | _, _, _ => none

/-! ### Uses in the order of the tree -/

/-- The reads of a piece of the statement at a place. -/
def pieceUses (place : StmtPath) : Piece → List (SignalId × Use)
  | .operand role e => exprUses place role e
  | .block k body => uses (place.step k) 0 body

/-- The read at an address in a piece of the statement at a place. -/
def pieceReadAt? (place : StmtPath) : Piece → Address → Option (SignalId × Use)
  | .operand role e, a => (nameAt? e a).map fun x => (x.1, ⟨place, role, x.2⟩)
  | .block k body, a => readAt? (place.step k) body a

theorem uses_eq_flatMap (place : StmtPath) (i : Nat) (ss : List Stmt) :
    uses place i ss = (ss.zipIdx i).flatMap fun sn => stmtUses (place.step sn.2) sn.1 := by
  induction ss generalizing i with
  | nil => rfl
  | cons s ss ih => rw [uses, ih, List.zipIdx_cons, List.flatMap_cons]

theorem uses_eq_rows (place : StmtPath) (ss : List Stmt) :
    uses place 0 ss = rows (fun s n => stmtUses (place.step n) s) ss :=
  uses_eq_flatMap place 0 ss

theorem branchUses_eq_flatMap (place : StmtPath) (i : Nat) (bs : List Branch) :
    branchUses place i bs = (bs.zipIdx i).flatMap fun bk =>
      exprUses place .condition bk.1.condition ++ uses (place.step bk.2) 0 bk.1.body := by
  induction bs generalizing i with
  | nil => rfl
  | cons b bs ih =>
    obtain ⟨condition, text, body⟩ := b
    rw [branchUses, ih, List.zipIdx_cons, List.flatMap_cons]

theorem armUses_eq_flatMap (place : StmtPath) (i : Nat) (as : List Arm) :
    armUses place i as = (as.zipIdx i).flatMap fun ak =>
      ak.1.choices.flatMap (exprUses place .choice) ++ uses (place.step ak.2) 0 ak.1.body := by
  induction as generalizing i with
  | nil => rfl
  | cons a as ih =>
    obtain ⟨choices, text, body⟩ := a
    rw [armUses, ih, List.zipIdx_cons, List.flatMap_cons]

theorem selectorUses_eq (place : StmtPath) (s : Option Selector) :
    selectorUses place s = (s.elim [] Selector.operands).flatMap (exprUses place .targetIndex) := by
  rcases s with - | (position | ⟨left, right⟩) <;>
    simp [selectorUses, Selector.signals, Selector.operands, exprUses]

/-- The reads of a statement are those of its pieces, one after the other. -/
theorem stmtUses_eq (place : StmtPath) (s : Stmt) :
    stmtUses place s = (pieces s).flatMap (pieceUses place) := by
  cases s with
  | assign a => simp [stmtUses, pieces, pieceUses, selectorUses_eq, List.flatMap_map]
  | null => rfl
  | ifs branches otherwise span =>
    have hbranches : branchUses place 0 branches =
        (rows (fun b k => [.operand .condition b.condition, .block k b.body]) branches).flatMap
          (pieceUses place) := by
      rw [branchUses_eq_flatMap, flatMap_rows]
      simp [rows, pieceUses]
    cases otherwise <;> simp [stmtUses, pieces, pieceUses, hbranches]
  | case subject text arms others span =>
    have harms : armUses place 0 arms =
        (rows (fun a k => a.choices.map (.operand .choice) ++ [.block k a.body]) arms).flatMap
          (pieceUses place) := by
      rw [armUses_eq_flatMap, flatMap_rows]
      simp [rows, pieceUses, List.flatMap_map]
    cases others <;> simp [stmtUses, pieces, pieceUses, harms]

theorem readAt?_eq_node (place : StmtPath) (body : List Stmt) :
    readAt? place body = node none
      (fun s n => node none (fun piece _ => pieceReadAt? (place.step n) piece) (pieces s)) body := by
  funext a
  rcases a with - | ⟨n, - | ⟨j, a⟩⟩
  · rfl
  · simp [readAt?, node]
  · simp only [readAt?, node]
    congr 1
    funext s
    congr 1
    funext piece
    cases piece <;> rfl

theorem getElem?_append_last {bodies : List (List Stmt)} {last : Option (List Stmt)} {k : Nat}
    {b : List Stmt} (h : bodies[k]? = some b ∨ last = some b ∧ bodies.length = k) :
    (bodies ++ last.toList)[k]? = some b := by
  rcases h with h | ⟨rfl, rfl⟩
  · rw [List.getElem?_append_left (List.getElem?_eq_some_iff.1 h).1, h]
  · simp

/-- A block among the pieces of a statement has its number among the blocks under it. -/
theorem blocks_of_mem_pieces {s : Stmt} {k : Nat} {b : List Stmt} (h : .block k b ∈ pieces s) :
    s.blocks[k]? = some b := by
  cases s with
  | assign a => simp [pieces] at h
  | null => simp [pieces] at h
  | ifs branches otherwise span =>
    refine getElem?_append_last ?_
    rcases List.mem_append.1 h with h | h
    · obtain ⟨branch, i, hbranch, h⟩ := mem_rows.1 h
      obtain ⟨rfl, rfl⟩ : k = i ∧ b = branch.body := by simpa using h
      exact .inl (by rw [List.getElem?_map, hbranch, Option.map_some])
    · exact .inr (by simpa using h)
  | case subject text arms others span =>
    refine getElem?_append_last ?_
    rcases List.mem_append.1 (List.mem_of_ne_of_mem (by simp) h) with h | h
    · obtain ⟨arm, i, harm, h⟩ := mem_rows.1 h
      obtain ⟨rfl, rfl⟩ : k = i ∧ b = arm.body := by simpa using h
      exact .inl (by rw [List.getElem?_map, harm, Option.map_some])
    · exact .inr (by simpa using h)

/-- The uses are listed in the order of their addresses. -/
theorem preordered_uses (place : StmtPath) (body : List Stmt) :
    Preordered (readAt? place body) (uses place 0 body) := by
  induction body using nested_induction generalizing place with
  | step body ih =>
    rw [readAt?_eq_node, uses_eq_rows]
    refine .parts fun s n hs => ?_
    rw [stmtUses_eq, ← rows_flatMap]
    refine .parts fun piece j hpiece => ?_
    cases piece with
    | operand role e => exact (preordered_signals e).map _
    | block k b =>
      have hb := blocks_of_mem_pieces (List.mem_of_getElem? hpiece)
      exact ih s (List.mem_of_getElem? hs) b
        (Stmt.mem_alternatives_of_mem_blocks (List.mem_of_getElem? hb)) _

theorem records_reads (body : List Stmt) :
    (reads body).Records fun id a use => readAt? [] body a = some (id, use) :=
  (preordered_uses [] body).records

/-! ### Following a path -/

/-- An expression of the statement itself has the role and names the signal, with the span. -/
def Names (s : Stmt) (role : Role) (id : SignalId) (span : Span) : Prop :=
  ∃ e, .operand role e ∈ pieces s ∧ ∃ a, nameAt? e a = some (id, span)

/-- A path as it is recorded. -/
def StmtPath.words (path : StmtPath) : StmtPath := path.map (· % 4294967296)

/-- The path of a use leads to the statement in which the signal is named. -/
theorem stmtAt?_of_readAt? {place : StmtPath} {body : List Stmt} {a : Address} {id : SignalId}
    {use : Use} (h : readAt? place body a = some (id, use)) : ∃ (path : StmtPath) (s : Stmt),
      use.stmt = place ++ path.words ∧ stmtAt? body path = some s ∧ Names s use.role id use.span := by
  fun_induction readAt? place body a with
  | case1 place ss n j a ih =>
    obtain ⟨s, hs, h⟩ := Option.bind_eq_some_iff.1 h
    obtain ⟨piece, hpiece, h⟩ := Option.bind_eq_some_iff.1 h
    cases piece with
    | operand role e =>
      obtain ⟨⟨_, span⟩, hname, heq⟩ := Option.map_eq_some_iff.1 h
      obtain ⟨rfl, rfl⟩ := Prod.mk.inj heq
      exact ⟨[n], s, rfl, hs, e, List.mem_of_getElem? hpiece, a, hname⟩
    | block k b =>
      obtain ⟨path, t, hpath, ht, hnames⟩ := ih k b h
      refine ⟨n :: k :: path, t, by simp [hpath, StmtPath.step, StmtPath.words], ?_, hnames⟩
      rw [stmtAt?, hs, Option.bind_some, blocks_of_mem_pieces (List.mem_of_getElem? hpiece),
        Option.bind_some, ht]
  | case2 => cases h

theorem StmtPath.words_eq {path : StmtPath} (h : ∀ k ∈ path, k < 4294967296) : path.words = path :=
  (List.map_congr_left fun k hk => Nat.mod_eq_of_lt (h k hk)).trans (List.map_id path)

theorem stmtAt?_of_mem_reads {body : List Stmt} {id : SignalId} {use : Use} (h : (id, use) ∈ reads body) :
    ∃ (path : StmtPath) (s : Stmt), use.stmt = path.words ∧ stmtAt? body path = some s ∧
      Names s use.role id use.span := by
  obtain ⟨a, hfirst⟩ := ((records_reads body).first id use).1 h
  exact stmtAt?_of_readAt? hfirst.here

end HdlLint.Flow

namespace HdlLint
open Design
open HdlLint.Flow (clockGuard?)

/-! ### Signals that are read and not listed -/

/-- A combinational process with a list of signals reads one that is not in the list. -/
def Design.Process.Misses (p : Process) (id : SignalId) : Prop :=
  clockGuard? p = none ∧
    ∃ signals, p.sensitivity = .list signals ∧ Reads p.body id ∧ ∀ span, (id, span) ∉ signals

namespace View

/-- The finding says that the process reads the signal without listing it, and is placed at the use
that is recorded. -/
def SaysMissing (v : View) (p : Process) (id : SignalId) (f : Finding) : Prop :=
  ∃ use, (id, use) ∈ Flow.reads p.body ∧ f = v.ofProcess .sensitivityIncomplete p
    ("signal " ++ v.quoted id ++ " is read but missing from the sensitivity list") use.span

theorem sensitivityOf_attributed (v : View) (cap : Nat) (p : Process) :
    Attributed (· < ·) p.Misses (v.SaysMissing p) (v.sensitivityOf p (Flow.summarize cap p)) := by
  cases hc : clockGuard? p with
  | some g =>
    have hnil : v.sensitivityOf p (Flow.summarize cap p) = [] := by
      simp [sensitivityOf, Flow.Summary.isClocked, Flow.summarize, hc]
    rw [hnil]
    exact .nil fun id h => by cases hc.symm.trans h.1
  | none =>
    cases hs : p.sensitivity with
    | all =>
      have hnil : v.sensitivityOf p (Flow.summarize cap p) = [] := by simp [sensitivityOf, hs]
      rw [hnil]
      refine .nil ?_
      rintro id ⟨-, signals, hlist, -⟩
      cases hs.symm.trans hlist
    | list signals =>
      have hfound : v.sensitivityOf p (Flow.summarize cap p) =
          ((Flow.reads p.body).filter fun x => !(Sensitivity.list signals).covers x.1).map fun x =>
            v.ofProcess .sensitivityIncomplete p
              ("signal " ++ v.quoted x.1 ++ " is read but missing from the sensitivity list")
              x.2.span := by
        simp [sensitivityOf, Flow.Summary.isClocked, Flow.summarize, hc, hs]
      have hpair : (((Flow.reads p.body).filter fun x =>
          !(Sensitivity.list signals).covers x.1).map (·.1)).Pairwise (· < ·) :=
        List.pairwise_map.2
          ((List.pairwise_map.1 (Flow.records_reads p.body).ascending).filter _)
      rw [hfound]
      refine .of_map hpair (fun id => ?_) fun x hx => ⟨x.2, List.mem_of_mem_filter hx, rfl⟩
      have hreads : Reads p.body id ↔ ∃ use, (id, use) ∈ Flow.reads p.body := by
        rw [← Flow.mem_keys_reads, Flow.SignalMap.keys]
        simp
      have hlisted : (Sensitivity.list signals).covers id = false ↔ ∀ span, (id, span) ∉ signals := by
        rw [← Bool.not_eq_true, covers_list, not_exists]
      simp only [Process.Misses, hc, hs, hreads, ← hlisted, List.mem_map, List.mem_filter, Prod.exists,
        exists_and_right, exists_eq_right, Bool.not_eq_true', true_and, Sensitivity.list.injEq,
        exists_eq_left']

end View

/-- A block has a first use for exactly the signals that it reads. It is the first in the order of the
text, and its path, of which words are recorded, leads to the statement that names the signal in the role
and with the span that are recorded. For each signal that a combinational process with a list of signals
reads and does not list, there is one finding, at this use. -/
theorem firstUses_exact (body : List Stmt) (top : String) (cap : Nat) (i : Instance) :
    (∀ id, id ∈ (Flow.reads body).keys ↔ Reads body id) ∧
      ((Flow.reads body).Records fun id a use => Flow.readAt? [] body a = some (id, use)) ∧
      (∀ id use, (id, use) ∈ Flow.reads body → ∃ (path : Flow.StmtPath) (s : Stmt),
        use.stmt = path.words ∧ ((∀ k ∈ path, k < 4294967296) → use.stmt = path) ∧
          Flow.stmtAt? body path = some s ∧ Flow.Names s use.role id use.span) ∧
      Attributed Spot.Before (Spot.Holds i.processes.toList Process.Misses)
        (fun s f => s.Holds i.processes.toList ((View.ofInstance top cap i).SaysMissing · · f))
        (View.ofInstance top cap i).sensitivityIncomplete := by
  refine ⟨fun id => Flow.mem_keys_reads, Flow.records_reads body, fun id use huse => ?_, ?_⟩
  · obtain ⟨path, s, hpath, hs, hnames⟩ := Flow.stmtAt?_of_mem_reads huse
    exact ⟨path, s, hpath, fun hk => hpath.trans (Flow.StmtPath.words_eq hk), hs, hnames⟩
  · rw [View.sensitivityIncomplete, View.flatMap_processes]
    exact Attributed.flatMap fun p _ => View.sensitivityOf_attributed _ cap p

end HdlLint
