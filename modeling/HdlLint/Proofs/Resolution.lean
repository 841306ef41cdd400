import Mathlib.Data.List.Basic
import HdlLint.Design.Resolve
import HdlLint.Proofs.Occurrence

/-!
# Resolved text names what is in sight

Every signal that occurs in resolved text is one that a name of the scope stands for: in an
expression (`Scope.names_of_mentions`), as the target of an assignment or in an operand of a body
(`Scope.names_of_assigns`, `Scope.names_of_reads`) and in a sensitivity list
(`Scope.names_of_mem_resolveSignals`).

The proofs follow the resolved text down and not the written one: what stands directly under a
resolved expression or statement is itself the result of resolving something, so the induction is
on the occurrence.
-/

namespace HdlLint.Design

/-- A step that succeeds is two steps that do. -/
theorem Result.bind_eq_ok {α β : Type} {x : Result α} {f : α → Result β} {b : β} :
    (x >>= f) = .ok b ↔ ∃ a, x = .ok a ∧ f a = .ok b := by
  cases x with
  | error e =>
    constructor
    · intro h; cases h
    · rintro ⟨_, h, _⟩; cases h
  | ok a =>
    constructor
    · intro h; exact ⟨a, rfl, h⟩
    · rintro ⟨_, ⟨⟩, h⟩; exact h

/-- What every step keeps, a sequence of steps keeps. -/
theorem Result.foldlM_invariant {α β : Type} {I : β → Prop} {step : β → α → Result β}
    (hstep : ∀ b a b', step b a = .ok b' → I b → I b') {xs : List α} {b b' : β}
    (h : xs.foldlM step b = .ok b') (hb : I b) : I b' := by
  induction xs generalizing b with
  | nil => cases h; exact hb
  | cons x xs ih =>
    rw [List.foldlM_cons] at h
    obtain ⟨c, hc, h⟩ := Result.bind_eq_ok.1 h
    exact ih h (hstep b x c hc hb)

theorem Result.mem_of_mapM {α β : Type} {f : α → Result β} {xs : List α} {ys : List β} {y : β}
    (h : xs.mapM f = .ok ys) (hy : y ∈ ys) : ∃ x ∈ xs, f x = .ok y := by
  induction xs generalizing ys with
  | nil => cases h; cases hy
  | cons x xs ih =>
    rw [List.mapM_cons] at h
    obtain ⟨z, hz, h⟩ := Result.bind_eq_ok.1 h
    obtain ⟨zs, hzs, h⟩ := Result.bind_eq_ok.1 h
    obtain rfl := Except.ok.inj h
    rcases List.mem_cons.1 hy with rfl | hy
    · exact ⟨x, by simp, hz⟩
    · obtain ⟨x', hx', hy⟩ := ih hzs hy
      exact ⟨x', by simp [hx'], hy⟩

namespace Scope
variable {scope : Scope} {id : SignalId}

/-- Some name in sight stands for the signal. -/
def Names (scope : Scope) (id : SignalId) : Prop := ∃ name, scope.find? name = some (.signal id)

/-! ### Expressions -/

theorem resolveExprs_eq_mapM (es : List Syntax.Expr) :
    scope.resolveExprs es = es.mapM scope.resolveExpr := by
  induction es with
  | nil => rfl
  | cons e es ih => rw [resolveExprs, List.mapM_cons, ih]

theorem mem_resolveExprs {es : List Syntax.Expr} {rs : List Expr} {r : Expr}
    (h : scope.resolveExprs es = .ok rs) (hr : r ∈ rs) : ∃ e, scope.resolveExpr e = .ok r := by
  rw [resolveExprs_eq_mapM] at h
  obtain ⟨e, -, he⟩ := Result.mem_of_mapM h hr
  exact ⟨e, he⟩

/-- A resolved expression itself names a signal in sight, and what stands directly under it is
resolved as well. Several indices taken together are an aggregate of the arguments of a call. -/
theorem resolveExpr_spec {e : Syntax.Expr} {r : Expr} (h : scope.resolveExpr e = .ok r) :
    (∀ id, r.named? = some id → scope.Names id) ∧ ∀ x ∈ r.parts, ∃ e', scope.resolveExpr e' = .ok x := by
  cases e with
  | int | bool | char | str => cases h; exact ⟨nofun, nofun⟩
  | name i =>
    simp only [resolveExpr, resolveName] at h
    split at h <;> cases h
    · next id hfind => exact ⟨fun _ hn => Option.some.inj hn ▸ ⟨_, hfind⟩, nofun⟩
    all_goals exact ⟨nofun, nofun⟩
  | call f args s =>
    obtain ⟨xs, hxs, h⟩ := Result.bind_eq_ok.1 h
    obtain rfl := Except.ok.inj h
    unfold resolveCall
    split
    · next id hfind =>
      refine ⟨fun _ hn => Option.some.inj hn ▸ ⟨_, hfind⟩, fun x hx => ?_⟩
      obtain rfl := List.mem_singleton.1 hx
      unfold elementIndex
      split
      · exact mem_resolveExprs hxs (List.mem_singleton.2 rfl)
      · exact ⟨.aggregate args s, Result.bind_eq_ok.2 ⟨_, hxs, rfl⟩⟩
    · exact ⟨nofun, fun x hx => mem_resolveExprs hxs hx⟩
  | slice b l d r s =>
    obtain ⟨left, hleft, h⟩ := Result.bind_eq_ok.1 h
    obtain ⟨right, hright, h⟩ := Result.bind_eq_ok.1 h
    have hparts : ∀ x ∈ [left, right], ∃ e', scope.resolveExpr e' = .ok x := by
      intro x hx
      rcases List.mem_pair.1 hx with rfl | rfl
      exacts [⟨l, hleft⟩, ⟨r, hright⟩]
    simp only [resolveSlice] at h
    split at h <;> cases h
    · exact ⟨fun _ hn => Option.some.inj hn ▸ ⟨b.name, ‹_›⟩, hparts⟩
    · exact ⟨nofun, hparts⟩
  | «attribute» b a s =>
    simp only [resolveExpr, resolveAttribute] at h
    split at h
    · next id hfind =>
      split_ifs at h <;> cases h
      · exact ⟨fun _ hn => Option.some.inj hn ▸ ⟨_, hfind⟩, nofun⟩
      · exact ⟨nofun, nofun⟩
    · cases h; exact ⟨nofun, nofun⟩
    · cases h
  | unary op e s =>
    obtain ⟨y, hy, h⟩ := Result.bind_eq_ok.1 h
    obtain rfl := Except.ok.inj h
    refine ⟨nofun, fun x hx => ?_⟩
    obtain rfl := List.mem_singleton.1 hx
    exact ⟨e, hy⟩
  | binary op l r s =>
    obtain ⟨left, hleft, h⟩ := Result.bind_eq_ok.1 h
    obtain ⟨right, hright, h⟩ := Result.bind_eq_ok.1 h
    obtain rfl := Except.ok.inj h
    refine ⟨nofun, fun x hx => ?_⟩
    rcases List.mem_pair.1 hx with rfl | rfl
    exacts [⟨l, hleft⟩, ⟨r, hright⟩]
  | aggregate vs s =>
    obtain ⟨xs, hxs, h⟩ := Result.bind_eq_ok.1 h
    obtain rfl := Except.ok.inj h
    exact ⟨nofun, fun x hx => mem_resolveExprs hxs hx⟩

theorem names_of_mentions {e : Syntax.Expr} {r : Expr} (h : scope.resolveExpr e = .ok r)
    (hm : r.Mentions id) : scope.Names id := by
  induction hm generalizing e with
  | here hn => exact (resolveExpr_spec h).1 id hn
  | inside hx _ ih =>
    obtain ⟨e', he'⟩ := (resolveExpr_spec h).2 _ hx
    exact ih he'

/-! ### Statements -/

theorem resolveSelector?_operand {s : Option Syntax.Selector} {r : Option Selector} {x : Expr}
    (h : scope.resolveSelector? s = .ok r) (hx : x ∈ r.elim [] Selector.operands) :
    ∃ e, scope.resolveExpr e = .ok x := by
  cases s with
  | none => cases h; cases hx
  | some s =>
    obtain ⟨sel, hsel, h⟩ := Result.bind_eq_ok.1 h
    obtain rfl := Except.ok.inj h
    cases s with
    | index e =>
      obtain ⟨y, hy, hsel⟩ := Result.bind_eq_ok.1 hsel
      obtain rfl := Except.ok.inj hsel
      obtain rfl := List.mem_singleton.1 hx
      exact ⟨e, hy⟩
    | slice range =>
      obtain ⟨left, hleft, hsel⟩ := Result.bind_eq_ok.1 hsel
      obtain ⟨right, hright, hsel⟩ := Result.bind_eq_ok.1 hsel
      obtain rfl := Except.ok.inj hsel
      rcases List.mem_pair.1 hx with rfl | rfl
      exacts [⟨range.left, hleft⟩, ⟨range.right, hright⟩]

def resolveBranch (scope : Scope) (b : Syntax.Branch) : Result Branch := do
  let condition ← scope.resolveExpr b.condition
  let body ← scope.resolveBlock b.body
  return ⟨condition, b.condition.printOperand, body⟩

def resolveArm (scope : Scope) (a : Syntax.Arm) : Result Arm := do
  let choices ← scope.resolveExprs a.choices
  let body ← scope.resolveBlock a.body
  return ⟨choices, "|".intercalate (a.choices.map Syntax.Expr.printOperand), body⟩

theorem resolveBranches_eq_mapM (bs : List Syntax.Branch) :
    scope.resolveBranches bs = bs.mapM scope.resolveBranch := by
  induction bs with
  | nil => rfl
  | cons b bs ih =>
    obtain ⟨condition, body⟩ := b
    rw [resolveBranches, List.mapM_cons, ih]
    simp only [resolveBranch, bind_assoc, pure_bind]

theorem resolveArms_eq_mapM (as : List Syntax.Arm) :
    scope.resolveArms as = as.mapM scope.resolveArm := by
  induction as with
  | nil => rfl
  | cons a as ih =>
    obtain ⟨choices, body, span⟩ := a
    rw [resolveArms, List.mapM_cons, ih]
    simp only [resolveArm, bind_assoc, pure_bind]

theorem resolveBlock_eq_mapM (ss : List Syntax.Stmt) :
    scope.resolveBlock ss = ss.mapM scope.resolveStmt := by
  induction ss with
  | nil => rfl
  | cons s ss ih => rw [resolveBlock, List.mapM_cons, ih]

theorem mem_resolveBranches {bs : List Syntax.Branch} {rs : List Branch} {r : Branch}
    (h : scope.resolveBranches bs = .ok rs) (hr : r ∈ rs) :
    (∃ e, scope.resolveExpr e = .ok r.condition) ∧ ∃ b, scope.resolveBlock b = .ok r.body := by
  rw [resolveBranches_eq_mapM] at h
  obtain ⟨b, -, hb⟩ := Result.mem_of_mapM h hr
  obtain ⟨condition, hcondition, hb⟩ := Result.bind_eq_ok.1 hb
  obtain ⟨body, hbody, hb⟩ := Result.bind_eq_ok.1 hb
  obtain rfl := Except.ok.inj hb
  exact ⟨⟨b.condition, hcondition⟩, b.body, hbody⟩

theorem mem_resolveArms {as : List Syntax.Arm} {rs : List Arm} {r : Arm}
    (h : scope.resolveArms as = .ok rs) (hr : r ∈ rs) :
    (∃ es, scope.resolveExprs es = .ok r.choices) ∧ ∃ b, scope.resolveBlock b = .ok r.body := by
  rw [resolveArms_eq_mapM] at h
  obtain ⟨a, -, ha⟩ := Result.mem_of_mapM h hr
  obtain ⟨choices, hchoices, ha⟩ := Result.bind_eq_ok.1 ha
  obtain ⟨body, hbody, ha⟩ := Result.bind_eq_ok.1 ha
  obtain rfl := Except.ok.inj ha
  exact ⟨⟨a.choices, hchoices⟩, a.body, hbody⟩

/-- The block that is taken as a last resort is resolved too; where there is none it is empty. -/
theorem resolveBlock?_getD {b : Option (List Syntax.Stmt)} {r : Option (List Stmt)}
    (h : scope.resolveBlock? b = .ok r) : ∃ b', scope.resolveBlock b' = .ok (r.getD []) := by
  cases b with
  | none => cases h; exact ⟨[], rfl⟩
  | some b =>
    obtain ⟨x, hx, h⟩ := Result.bind_eq_ok.1 h
    obtain rfl := Except.ok.inj h
    exact ⟨b, hx⟩

theorem names_of_signal {i : Syntax.Ident} (h : scope.signal i = .ok id) : scope.Names id := by
  unfold signal at h
  split at h <;> cases h
  exact ⟨_, ‹_›⟩

/-- A resolved statement assigns a signal in sight, its operands are resolved expressions, and the
blocks under it are resolved blocks. -/
theorem resolveStmt_spec {s : Syntax.Stmt} {r : Stmt} (h : scope.resolveStmt s = .ok r) :
    (∀ a, r = .assign a → scope.Names a.target) ∧
      (∀ x ∈ r.operands, ∃ e, scope.resolveExpr e = .ok x) ∧
      ∀ b ∈ r.alternatives, ∃ b', scope.resolveBlock b' = .ok b := by
  cases s with
  | assign target value span =>
    obtain ⟨id, hid, h⟩ := Result.bind_eq_ok.1 h
    obtain ⟨selector, hselector, h⟩ := Result.bind_eq_ok.1 h
    obtain ⟨x, hx, h⟩ := Result.bind_eq_ok.1 h
    obtain rfl := Except.ok.inj h
    refine ⟨?_, fun y hy => ?_, by simp [Stmt.alternatives]⟩
    · rintro _ ⟨⟩
      exact names_of_signal hid
    · rcases List.mem_append.1 hy with hy | hy
      · exact resolveSelector?_operand hselector hy
      · obtain rfl := List.mem_singleton.1 hy
        exact ⟨value, hx⟩
  | ifs branches otherwise span =>
    obtain ⟨bs, hbs, h⟩ := Result.bind_eq_ok.1 h
    obtain ⟨last, hlast, h⟩ := Result.bind_eq_ok.1 h
    obtain rfl := Except.ok.inj h
    refine ⟨by simp, fun x hx => ?_, fun b hb => ?_⟩
    · obtain ⟨r, hr, rfl⟩ := List.mem_map.1 hx
      exact (mem_resolveBranches hbs hr).1
    · rcases List.mem_append.1 hb with hb | hb
      · obtain ⟨r, hr, rfl⟩ := List.mem_map.1 hb
        exact (mem_resolveBranches hbs hr).2
      · obtain rfl := List.mem_singleton.1 hb
        exact resolveBlock?_getD hlast
  | case subject arms others span =>
    obtain ⟨as, has, h⟩ := Result.bind_eq_ok.1 h
    obtain ⟨last, hlast, h⟩ := Result.bind_eq_ok.1 h
    obtain ⟨y, hy, h⟩ := Result.bind_eq_ok.1 h
    obtain rfl := Except.ok.inj h
    refine ⟨by simp, fun x hx => ?_, fun b hb => ?_⟩
    · rcases List.mem_cons.1 hx with rfl | hx
      · exact ⟨subject, hy⟩
      · obtain ⟨r, hr, hx⟩ := List.mem_flatMap.1 hx
        obtain ⟨es, hes⟩ := (mem_resolveArms has hr).1
        exact mem_resolveExprs hes hx
    · rcases List.mem_append.1 hb with hb | hb
      · obtain ⟨r, hr, rfl⟩ := List.mem_map.1 hb
        exact (mem_resolveArms has hr).2
      · obtain rfl := List.mem_singleton.1 hb
        exact resolveBlock?_getD hlast
  | null span =>
    obtain rfl := Except.ok.inj h
    exact ⟨by simp, by simp [Stmt.operands], by simp [Stmt.alternatives]⟩

theorem mem_resolveBlock {ss : List Syntax.Stmt} {rs : List Stmt} {r : Stmt}
    (h : scope.resolveBlock ss = .ok rs) (hr : r ∈ rs) : ∃ s, scope.resolveStmt s = .ok r := by
  rw [resolveBlock_eq_mapM] at h
  obtain ⟨s, -, hs⟩ := Result.mem_of_mapM h hr
  exact ⟨s, hs⟩

theorem resolveStmt_of_within {ss : List Syntax.Stmt} {body : List Stmt} {r : Stmt}
    (h : scope.resolveBlock ss = .ok body) (hr : Within r body) : ∃ s, scope.resolveStmt s = .ok r := by
  induction hr generalizing ss with
  | here hmem => exact mem_resolveBlock h hmem
  | inside hx hb _ ih =>
    obtain ⟨s, hs⟩ := mem_resolveBlock h hx
    obtain ⟨b, hb⟩ := (resolveStmt_spec hs).2.2 _ hb
    exact ih hb

theorem names_of_assigns {ss : List Syntax.Stmt} {body : List Stmt}
    (h : scope.resolveBlock ss = .ok body) (ha : Assigns body id) : scope.Names id := by
  obtain ⟨a, hwithin, rfl⟩ := ha
  obtain ⟨s, hs⟩ := resolveStmt_of_within h hwithin
  exact (resolveStmt_spec hs).1 a rfl

theorem names_of_reads {ss : List Syntax.Stmt} {body : List Stmt}
    (h : scope.resolveBlock ss = .ok body) (hr : Reads body id) : scope.Names id := by
  obtain ⟨r, hwithin, x, hx, hm⟩ := hr
  obtain ⟨s, hs⟩ := resolveStmt_of_within h hwithin
  obtain ⟨e, he⟩ := (resolveStmt_spec hs).2.1 x hx
  exact names_of_mentions he hm

/-! ### Sensitivity -/

theorem resolveSignals_eq_mapM (is : List Syntax.Ident) :
    scope.resolveSignals is = is.mapM fun i => return (← scope.signal i, i.span) := by
  induction is with
  | nil => rfl
  | cons i is ih =>
    rw [resolveSignals, List.mapM_cons, ih]
    simp only [bind_assoc, pure_bind]

theorem names_of_mem_resolveSignals {is : List Syntax.Ident} {rs : List (SignalId × Span)} {span : Span}
    (h : scope.resolveSignals is = .ok rs) (hr : (id, span) ∈ rs) : scope.Names id := by
  rw [resolveSignals_eq_mapM] at h
  obtain ⟨i, -, hi⟩ := Result.mem_of_mapM h hr
  obtain ⟨x, hx, hi⟩ := Result.bind_eq_ok.1 hi
  cases hi
  exact names_of_signal hx

theorem names_of_mem_resolveSensitivity {s : Syntax.Sensitivity} {rs : List (SignalId × Span)}
    {span : Span} (h : scope.resolveSensitivity s = .ok (.list rs)) (hr : (id, span) ∈ rs) :
    scope.Names id := by
  cases s with
  | all => cases h
  | list names =>
    obtain ⟨x, hx, h⟩ := Result.bind_eq_ok.1 h
    cases h
    exact names_of_mem_resolveSignals hx hr

end Scope

end HdlLint.Design
