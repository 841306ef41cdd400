import Mathlib.Data.List.Basic
import HdlLint.Flow.Read
import HdlLint.Flow.Write
import HdlLint.Proofs.SignalSet

/-!
# What occurs in a process body

A statement stands in a block at some depth (`Within`), and a signal occurs there as the target of
an assignment (`Assigns`) or inside an operand of a statement (`Reads`). The lists of assignments
and of uses that the flow analysis collects hold exactly these occurrences (`mem_assignments`,
`exists_mem_uses`).

An `if` and a `case` differ only in how their blocks are chosen. `Stmt.alternatives` is what they
have in common, and `block_induction` is the induction over it that the proofs about bodies share.
-/

namespace HdlLint.Design

/-! ### Expressions -/

namespace Expr

/-- The signal that the expression itself names: as a whole, an element, a slice or an attribute. -/
def named? : Expr → Option SignalId
  | .signal id _ | .index id _ _ _ | .slice id _ _ _ _ | .attribute id _ _ _ => some id
  | .const _ _ | .call _ _ _ | .unary _ _ _ | .binary _ _ _ _ | .aggregate _ _ => none

/-- The expressions directly under an expression. -/
def parts : Expr → List Expr
  | .signal _ _ | .const _ _ | .attribute _ _ _ _ => []
  | .index _ _ position _ => [position]
  | .slice _ _ left right _ => [left, right]
  | .call _ args _ => args
  | .unary _ operand _ => [operand]
  | .binary _ lhs rhs _ => [lhs, rhs]
  | .aggregate values _ => values

/-- A signal is named in an expression, at any depth. -/
inductive Mentions (id : SignalId) : Expr → Prop
  | here {e : Expr} : e.named? = some id → Mentions id e
  | inside {e x : Expr} : x ∈ e.parts → Mentions id x → Mentions id e

theorem sizeOf_part {e x : Expr} (h : x ∈ e.parts) : sizeOf x < sizeOf e := by
  cases e <;> simp only [parts, List.not_mem_nil, List.mem_cons, or_false] at h
  case index => subst h; simp; omega
  case slice => rcases h with rfl | rfl <;> simp <;> omega
  case unary => subst h; simp; omega
  case binary => rcases h with rfl | rfl <;> simp <;> omega
  all_goals
    have := List.sizeOf_lt_of_mem h
    simp; omega

@[elab_as_elim] theorem induction_parts {motive : Expr → Prop}
    (step : ∀ e, (∀ x ∈ e.parts, motive x) → motive e) (e : Expr) : motive e :=
  step e fun x _ => induction_parts step x
termination_by sizeOf e
decreasing_by exact sizeOf_part ‹_›

theorem exists_mem_signalsOfAll {es : List Expr} {id : SignalId} :
    (∃ span, (id, span) ∈ signalsOfAll es) ↔ ∃ x ∈ es, ∃ span, (id, span) ∈ x.signals := by
  induction es with
  | nil => simp [signalsOfAll]
  | cons e es ih => simp [signalsOfAll, exists_or, ih]

theorem exists_mem_signals_step {e : Expr} {id : SignalId} :
    (∃ span, (id, span) ∈ e.signals) ↔
      e.named? = some id ∨ ∃ x ∈ e.parts, ∃ span, (id, span) ∈ x.signals := by
  cases e <;> simp [signals, exists_mem_signalsOfAll, named?, parts, eq_comm, exists_or]

/-- The signals listed for an expression are those that it mentions. -/
theorem exists_mem_signals {e : Expr} {id : SignalId} :
    (∃ span, (id, span) ∈ e.signals) ↔ Mentions id e := by
  induction e using induction_parts with
  | step e ih =>
    rw [exists_mem_signals_step]
    constructor
    · rintro (h | ⟨x, hx, h⟩)
      · exact .here h
      · exact .inside hx ((ih x hx).1 h)
    · rintro (h | ⟨hx, h⟩)
      · exact .inl h
      · exact .inr ⟨_, hx, (ih _ hx).2 h⟩

end Expr

/-! ### Statements -/

/-- The expressions of a selector. -/
def Selector.operands : Selector → List Expr
  | .index position => [position]
  | .slice left right => [left, right]

namespace Stmt

/-- The expressions that a statement itself evaluates. Those of the blocks under it do not count. -/
def operands : Stmt → List Expr
  | .assign a => a.selector.elim [] Selector.operands ++ [a.value]
  | .ifs branches _ _ => branches.map (·.condition)
  | .case subject _ arms _ _ => subject :: arms.flatMap (·.choices)
  | .null _ => []

/-- The blocks of which a run takes one. A statement without a last resort can be passed by, which
is to take the empty block. -/
def alternatives : Stmt → List (List Stmt)
  | .assign _ | .null _ => []
  | .ifs branches otherwise _ => branches.map (·.body) ++ [otherwise.getD []]
  | .case _ _ arms others _ => arms.map (·.body) ++ [others.getD []]

theorem branch_mem_alternatives {branches : List Branch} {otherwise : Option (List Stmt)} {span : Span}
    {b : Branch} (h : b ∈ branches) : b.body ∈ (ifs branches otherwise span).alternatives :=
  List.mem_append_left _ (List.mem_map_of_mem h)

theorem otherwise_mem_alternatives {branches : List Branch} {body : List Stmt} {span : Span} :
    body ∈ (ifs branches (some body) span).alternatives := by
  simp [alternatives]

theorem arm_mem_alternatives {subject : Expr} {text : String} {arms : List Arm}
    {others : Option (List Stmt)} {span : Span} {a : Arm} (h : a ∈ arms) :
    a.body ∈ (case subject text arms others span).alternatives :=
  List.mem_append_left _ (List.mem_map_of_mem h)

theorem others_mem_alternatives {subject : Expr} {text : String} {arms : List Arm} {body : List Stmt}
    {span : Span} : body ∈ (case subject text arms (some body) span).alternatives := by
  simp [alternatives]

theorem sizeOf_getD_nil (b : Option (List Stmt)) : sizeOf (b.getD []) ≤ sizeOf b := by
  cases b <;> simp

theorem sizeOf_alternative {s : Stmt} {b : List Stmt} (h : b ∈ s.alternatives) :
    sizeOf b < sizeOf s := by
  cases s with
  | assign | null => simp [alternatives] at h
  | ifs branches otherwise span =>
    simp only [alternatives, List.mem_append, List.mem_map, List.mem_singleton] at h
    rcases h with ⟨⟨c, t, body⟩, hbr, rfl⟩ | rfl
    · have := List.sizeOf_lt_of_mem hbr
      simp at this ⊢; omega
    · have := sizeOf_getD_nil otherwise
      simp; omega
  | case subject text arms others span =>
    simp only [alternatives, List.mem_append, List.mem_map, List.mem_singleton] at h
    rcases h with ⟨⟨c, t, body⟩, harm, rfl⟩ | rfl
    · have := List.sizeOf_lt_of_mem harm
      simp at this ⊢; omega
    · have := sizeOf_getD_nil others
      simp; omega

end Stmt

/-- Induction over a block: over its statements, and over the blocks under each of them. -/
@[elab_as_elim] theorem block_induction {motive : List Stmt → Prop} (nil : motive [])
    (cons : ∀ s ss, (∀ b ∈ s.alternatives, motive b) → motive ss → motive (s :: ss)) :
    ∀ body, motive body
  | [] => nil
  | s :: ss => cons s ss (fun b _ => block_induction nil cons b) (block_induction nil cons ss)
termination_by body => sizeOf body
decreasing_by
  · have := Stmt.sizeOf_alternative ‹_›
    simp only [List.cons.sizeOf_spec]
    omega
  · simp only [List.cons.sizeOf_spec]
    omega

/-- Induction over a block: what holds of all blocks under its statements holds of the block. -/
@[elab_as_elim] theorem nested_induction {motive : List Stmt → Prop}
    (step : ∀ body, (∀ s ∈ body, ∀ b ∈ s.alternatives, motive b) → motive body) (body : List Stmt) :
    motive body := by
  refine step body ?_
  induction body using block_induction with
  | nil => exact fun s hs => absurd hs List.not_mem_nil
  | cons s ss ihs ih =>
    intro x hx b hb
    rcases List.mem_cons.1 hx with rfl | hx
    · exact step b (ihs b hb)
    · exact ih x hx b hb

/-- A statement stands in a block, at any depth. -/
inductive Within (s : Stmt) : List Stmt → Prop
  | here {ss : List Stmt} : s ∈ ss → Within s ss
  | inside {x : Stmt} {b ss : List Stmt} : x ∈ ss → b ∈ x.alternatives → Within s b → Within s ss

namespace Within
variable {s x : Stmt} {ss : List Stmt}

theorem not_nil : ¬ Within s [] := by
  rintro (h | ⟨h, -, -⟩) <;> simp at h

theorem cons_iff :
    Within s (x :: ss) ↔ s = x ∨ (∃ b ∈ x.alternatives, Within s b) ∨ Within s ss := by
  constructor
  · rintro (h | ⟨h, hb, hs⟩) <;> rcases List.mem_cons.1 h with rfl | h
    exacts [.inl rfl, .inr (.inr (.here h)), .inr (.inl ⟨_, hb, hs⟩), .inr (.inr (.inside h hb hs))]
  · rintro (rfl | ⟨b, hb, hs⟩ | (h | ⟨h, hb, hs⟩))
    exacts [.here (by simp), .inside (by simp) hb hs, .here (by simp [h]), .inside (by simp [h]) hb hs]

end Within

/-- A block assigns a signal at some depth. -/
def Assigns (body : List Stmt) (id : SignalId) : Prop :=
  ∃ a, Within (.assign a) body ∧ a.target = id

theorem Assigns.not_nil {id : SignalId} : ¬ Assigns [] id :=
  fun ⟨_, h, _⟩ => Within.not_nil h

theorem Assigns.cons_iff {s : Stmt} {ss : List Stmt} {id : SignalId} :
    Assigns (s :: ss) id ↔
      (∃ a, s = .assign a ∧ a.target = id) ∨ (∃ b ∈ s.alternatives, Assigns b id) ∨ Assigns ss id := by
  simp only [Assigns, Within.cons_iff]
  constructor
  · rintro ⟨a, h | ⟨b, hb, ha⟩ | ha, ht⟩
    exacts [.inl ⟨a, h.symm, ht⟩, .inr (.inl ⟨b, hb, a, ha, ht⟩), .inr (.inr ⟨a, ha, ht⟩)]
  · rintro (⟨a, h, ht⟩ | ⟨b, hb, a, ha, ht⟩ | ⟨a, ha, ht⟩)
    exacts [⟨a, .inl h.symm, ht⟩, ⟨a, .inr (.inl ⟨b, hb, ha⟩), ht⟩, ⟨a, .inr (.inr ha), ht⟩]

/-- A signal is read in a block at some depth: in a value, a condition, the subject or a choice of a
case, or in the selector of a target. -/
def Reads (body : List Stmt) (id : SignalId) : Prop :=
  ∃ s, Within s body ∧ ∃ e ∈ s.operands, e.Mentions id

theorem Reads.not_nil {id : SignalId} : ¬ Reads [] id :=
  fun ⟨_, h, _⟩ => Within.not_nil h

theorem Reads.cons_iff {s : Stmt} {ss : List Stmt} {id : SignalId} :
    Reads (s :: ss) id ↔
      (∃ e ∈ s.operands, e.Mentions id) ∨ (∃ b ∈ s.alternatives, Reads b id) ∨ Reads ss id := by
  simp only [Reads, Within.cons_iff]
  constructor
  · rintro ⟨x, rfl | ⟨b, hb, hx⟩ | hx, he⟩
    exacts [.inl he, .inr (.inl ⟨b, hb, x, hx, he⟩), .inr (.inr ⟨x, hx, he⟩)]
  · rintro (he | ⟨b, hb, x, hx, he⟩ | ⟨x, hx, he⟩)
    exacts [⟨s, .inl rfl, he⟩, ⟨x, .inr (.inl ⟨b, hb, hx⟩), he⟩, ⟨x, .inr (.inr hx), he⟩]

end HdlLint.Design

namespace HdlLint.Flow
open Design

/-! ### Assignments -/

theorem branchAssignments_eq (bs : List Branch) :
    branchAssignments bs = (bs.map (·.body)).flatMap assignments := by
  induction bs with
  | nil => rfl
  | cons b bs ih =>
    obtain ⟨condition, text, body⟩ := b
    rw [branchAssignments, ih, List.map_cons, List.flatMap_cons]

theorem armAssignments_eq (as : List Arm) :
    armAssignments as = (as.map (·.body)).flatMap assignments := by
  induction as with
  | nil => rfl
  | cons a as ih =>
    obtain ⟨choices, text, body⟩ := a
    rw [armAssignments, ih, List.map_cons, List.flatMap_cons]

/-- A statement that is no assignment itself assigns what its blocks assign. -/
theorem stmtAssignments_eq {s : Stmt} (h : ∀ a, s ≠ .assign a) :
    stmtAssignments s = s.alternatives.flatMap assignments := by
  cases s with
  | assign a => exact absurd rfl (h a)
  | null => rfl
  | ifs branches otherwise span =>
    cases otherwise <;> simp [stmtAssignments, Stmt.alternatives, branchAssignments_eq, assignments]
  | case subject text arms others span =>
    cases others <;> simp [stmtAssignments, Stmt.alternatives, armAssignments_eq, assignments]

/-- The assignments listed for a block are those that stand in it. -/
theorem mem_assignments {body : List Stmt} {id : SignalId} {span : Span} :
    (id, span) ∈ assignments body ↔ ∃ a, Within (.assign a) body ∧ a.target = id ∧ a.span = span := by
  induction body using block_induction with
  | nil => simp [assignments, Within.not_nil]
  | cons s ss ihs ih =>
    simp only [assignments, List.mem_append, ih, Within.cons_iff]
    by_cases hs : ∃ a, s = .assign a
    · obtain ⟨a, rfl⟩ := hs
      simp only [stmtAssignments, Stmt.alternatives, List.mem_singleton, Prod.mk.injEq,
        List.not_mem_nil, false_and, exists_false, false_or, Stmt.assign.injEq]
      constructor
      · rintro (⟨rfl, rfl⟩ | ⟨a', h, ht⟩)
        exacts [⟨a, .inl rfl, rfl, rfl⟩, ⟨a', .inr h, ht⟩]
      · rintro ⟨a', rfl | h, ht⟩
        exacts [.inl ⟨ht.1.symm, ht.2.symm⟩, .inr ⟨a', h, ht⟩]
    · have hne : ∀ a, s ≠ .assign a := fun a h => hs ⟨a, h⟩
      rw [stmtAssignments_eq hne, List.mem_flatMap]
      constructor
      · rintro (⟨b, hb, h⟩ | ⟨a, h, ht⟩)
        · obtain ⟨a, ha, ht⟩ := (ihs b hb).1 h
          exact ⟨a, .inr (.inl ⟨b, hb, ha⟩), ht⟩
        · exact ⟨a, .inr (.inr h), ht⟩
      · rintro ⟨a, h | ⟨b, hb, h⟩ | h, ht⟩
        exacts [absurd h.symm (hne a), .inl ⟨b, hb, (ihs b hb).2 ⟨a, h, ht⟩⟩, .inr ⟨a, h, ht⟩]

theorem exists_mem_assignments {body : List Stmt} {id : SignalId} :
    (∃ span, (id, span) ∈ assignments body) ↔ Assigns body id := by
  simp only [mem_assignments, Assigns]
  constructor
  · rintro ⟨_, a, h, ht, -⟩; exact ⟨a, h, ht⟩
  · rintro ⟨a, h, ht⟩; exact ⟨a.span, a, h, ht, rfl⟩

/-! ### Uses -/

theorem exists_mem_exprUses {place : StmtPath} {role : Role} {e : Expr} {id : SignalId} :
    (∃ u, (id, u) ∈ exprUses place role e) ↔ e.Mentions id := by
  rw [← Expr.exists_mem_signals]
  simp only [exprUses, List.mem_map, Prod.mk.injEq]
  constructor
  · rintro ⟨u, ⟨i, span⟩, h, rfl, -⟩; exact ⟨span, h⟩
  · rintro ⟨span, h⟩; exact ⟨_, (id, span), h, rfl, rfl⟩

theorem exists_mem_selectorUses {place : StmtPath} {s : Option Selector} {id : SignalId} :
    (∃ u, (id, u) ∈ selectorUses place s) ↔ ∃ e ∈ s.elim [] Selector.operands, e.Mentions id := by
  rcases s with - | (position | ⟨left, right⟩) <;>
    simp [selectorUses, Selector.operands, Selector.signals, ← Expr.exists_mem_signals, exists_or]

theorem exists_mem_branchUses {id : SignalId} {bs : List Branch}
    (ih : ∀ b ∈ bs, ∀ place i, (∃ u, (id, u) ∈ uses place i b.body) ↔ Reads b.body id)
    (place : StmtPath) (i : Nat) :
    (∃ u, (id, u) ∈ branchUses place i bs) ↔ ∃ b ∈ bs, b.condition.Mentions id ∨ Reads b.body id := by
  induction bs generalizing i with
  | nil => simp [branchUses]
  | cons b bs ihbs =>
    obtain ⟨condition, text, body⟩ := b
    have hbody := ih ⟨condition, text, body⟩ (by simp) (place.step i) 0
    have hrest := ihbs (fun b hb => ih b (by simp [hb])) (i + 1)
    simp only [branchUses, List.mem_append, exists_or, exists_mem_exprUses, hbody, hrest]
    simp [or_assoc]

theorem exists_mem_armUses {id : SignalId} {as : List Arm}
    (ih : ∀ a ∈ as, ∀ place i, (∃ u, (id, u) ∈ uses place i a.body) ↔ Reads a.body id)
    (place : StmtPath) (i : Nat) :
    (∃ u, (id, u) ∈ armUses place i as) ↔
      ∃ a ∈ as, (∃ e ∈ a.choices, e.Mentions id) ∨ Reads a.body id := by
  induction as generalizing i with
  | nil => simp [armUses]
  | cons a as ihas =>
    obtain ⟨choices, text, body⟩ := a
    have hbody := ih ⟨choices, text, body⟩ (by simp) (place.step i) 0
    have hrest := ihas (fun a ha => ih a (by simp [ha])) (i + 1)
    have hchoices : (∃ u, (id, u) ∈ choices.flatMap (exprUses place .choice)) ↔
        ∃ e ∈ choices, e.Mentions id := by
      simp only [List.mem_flatMap]
      constructor
      · rintro ⟨u, e, he, h⟩; exact ⟨e, he, exists_mem_exprUses.1 ⟨u, h⟩⟩
      · rintro ⟨e, he, h⟩
        obtain ⟨u, hu⟩ := exists_mem_exprUses.2 h
        exact ⟨u, e, he, hu⟩
    simp only [armUses, List.mem_append, exists_or, hchoices, hbody, hrest]
    simp [or_assoc]

/-- The signals in the uses listed for a block are those that are read in it. -/
theorem exists_mem_uses {body : List Stmt} {id : SignalId} (place : StmtPath) (i : Nat) :
    (∃ u, (id, u) ∈ uses place i body) ↔ Reads body id := by
  induction body using block_induction generalizing place i with
  | nil => simp [uses, Reads.not_nil]
  | cons s ss ihs ih =>
    simp only [uses, List.mem_append, exists_or, ih, Reads.cons_iff, ← or_assoc]
    refine or_congr_left ?_
    -- where the uses stand is of no account
    generalize place.step i = place
    cases s with
    | assign a =>
      simp [stmtUses, exists_or, exists_mem_selectorUses, exists_mem_exprUses, Stmt.operands,
        Stmt.alternatives, or_and_right]
    | null => simp [stmtUses, Stmt.operands, Stmt.alternatives]
    | ifs branches otherwise span =>
      have hbranches := exists_mem_branchUses
        (fun b hb => ihs b.body (Stmt.branch_mem_alternatives hb)) place 0
      have hsplit : (∃ b ∈ branches, b.condition.Mentions id ∨ Reads b.body id) ↔
          (∃ b ∈ branches, b.condition.Mentions id) ∨ ∃ b ∈ branches, Reads b.body id := by
        simp only [and_or_left, exists_or]
      cases otherwise with
      | none => simp [stmtUses, Stmt.operands, Stmt.alternatives, hbranches, hsplit, Reads.not_nil]
      | some body =>
        have hbody := ihs body Stmt.otherwise_mem_alternatives (place.step branches.length) 0
        simp [stmtUses, Stmt.operands, Stmt.alternatives, exists_or, hbranches, hsplit, hbody,
          or_assoc]
    | case subject text arms others span =>
      have harms := exists_mem_armUses
        (fun a ha => ihs a.body (Stmt.arm_mem_alternatives ha)) place 0
      have hsplit : (∃ a ∈ arms, (∃ e ∈ a.choices, e.Mentions id) ∨ Reads a.body id) ↔
          (∃ e ∈ arms.flatMap (·.choices), e.Mentions id) ∨ ∃ a ∈ arms, Reads a.body id := by
        simp only [and_or_left, exists_or, List.mem_flatMap]
        refine or_congr_left ⟨?_, ?_⟩
        · rintro ⟨a, ha, e, he, h⟩; exact ⟨e, ⟨a, ha, he⟩, h⟩
        · rintro ⟨e, ⟨a, ha, he⟩, h⟩; exact ⟨a, ha, e, he, h⟩
      cases others with
      | none =>
        simp only [stmtUses, List.mem_append, exists_or, exists_mem_exprUses, harms, hsplit]
        simp [Stmt.operands, Stmt.alternatives, Reads.not_nil, or_assoc]
      | some body =>
        have hbody := ihs body Stmt.others_mem_alternatives (place.step arms.length) 0
        simp only [stmtUses, List.mem_append, exists_or, exists_mem_exprUses, harms, hsplit, hbody]
        simp [Stmt.operands, Stmt.alternatives, or_assoc]

/-- The signals for which a first use is recorded are those that are read. -/
theorem mem_keys_reads {body : List Stmt} {id : SignalId} : id ∈ (reads body).keys ↔ Reads body id := by
  rw [reads, SignalMap.mem_keys_firsts, exists_mem_uses]

/-- The signals for which a first assignment is recorded are those that are assigned. -/
theorem mem_keys_writes {body : List Stmt} {id : SignalId} :
    id ∈ (writes body).keys ↔ Assigns body id := by
  rw [writes, SignalMap.mem_keys_firsts, exists_mem_assignments]

theorem ascending_keys_writes (body : List Stmt) : (writes body).keys.Ascending :=
  SignalMap.ascending_keys_firsts _

theorem mem_writes {body : List Stmt} {id : SignalId} {span : Span} :
    (id, span) ∈ writes body ↔ (writes body).lookup id = some span :=
  SignalMap.mem_iff_lookup (ascending_keys_writes body)

end HdlLint.Flow
