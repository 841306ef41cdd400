import Mathlib.Data.List.Basic
import HdlLint.Design.Build
import HdlLint.Proofs.Relocation

/-!
# Other numbers for the same signals

The number of a signal depends on what was declared before it. `renumber ρ` puts the number `ρ id` in
place of `id`, in a scope and in all that is built in one. Constants do not depend on the numbers of
signals (`eval_renumber`, `width_renumber`), and a process or an instance that is built in a renumbered
scope is the renumbered one (`buildProcess_renumber`, `instantiate_renumber`); what fails still fails in
the same way.
-/

namespace HdlLint.Design
open Syntax (Library)

variable (ρ : SignalId → SignalId)

def Binding.renumber : Binding → Binding
  | .signal id => .signal (ρ id)
  | .constant v => .constant v
  | .enumeration n => .enumeration n

def Frame.renumber (frame : Frame) : Frame := frame.map fun x => (x.1, x.2.renumber ρ)

def Scope.renumber (scope : Scope) : Scope := ⟨scope.inner.renumber ρ, scope.outer.map (Frame.renumber ρ)⟩

mutual

def Expr.renumber : Expr → Expr
  | .signal id s => .signal (ρ id) s
  | .const v s => .const v s
  | .index id name e s => .index (ρ id) name e.renumber s
  | .slice id name l r s => .slice (ρ id) name l.renumber r.renumber s
  | .call f args s => .call f (renumberExprs args) s
  | .attribute id name a s => .attribute (ρ id) name a s
  | .unary op e s => .unary op e.renumber s
  | .binary op l r s => .binary op l.renumber r.renumber s
  | .aggregate vs s => .aggregate (renumberExprs vs) s

def renumberExprs : List Expr → List Expr
  | [] => []
  | e :: es => e.renumber :: renumberExprs es

end

def Selector.renumber : Selector → Selector
  | .index e => .index (e.renumber ρ)
  | .slice l r => .slice (l.renumber ρ) (r.renumber ρ)

def Assignment.renumber (a : Assignment) : Assignment :=
  ⟨ρ a.target, a.targetSpan, a.selector.map (Selector.renumber ρ), a.value.renumber ρ, a.span⟩

mutual

def Stmt.renumber : Stmt → Stmt
  | .assign a => .assign (a.renumber ρ)
  | .ifs branches otherwise s => .ifs (renumberBranches branches) (renumberOption otherwise) s
  | .case subject text arms others s =>
    .case (subject.renumber ρ) text (renumberArms arms) (renumberOption others) s
  | .null s => .null s

def renumberBlock : List Stmt → List Stmt
  | [] => []
  | s :: ss => s.renumber :: renumberBlock ss

def renumberOption : Option (List Stmt) → Option (List Stmt)
  | none => none
  | some b => some (renumberBlock b)

def renumberBranches : List Branch → List Branch
  | [] => []
  | ⟨condition, text, body⟩ :: bs =>
    ⟨condition.renumber ρ, text, renumberBlock body⟩ :: renumberBranches bs

def renumberArms : List Arm → List Arm
  | [] => []
  | ⟨choices, text, body⟩ :: as =>
    ⟨renumberExprs ρ choices, text, renumberBlock body⟩ :: renumberArms as

end

def Sensitivity.renumber : Sensitivity → Sensitivity
  | .all => .all
  | .list signals => .list (signals.map fun x => (ρ x.1, x.2))

def Process.renumber (p : Process) : Process :=
  { p with sensitivity := p.sensitivity.renumber ρ, body := renumberBlock ρ p.body }

def PortActual.renumber : PortActual → PortActual
  | .signal id => .signal (ρ id)
  | .expr e => .expr (e.renumber ρ)
  | .leftOpen => .leftOpen

def Pending.renumber (p : Pending) : Pending := { p with ports := p.ports.map (PortActual.renumber ρ) }

variable {ρ} {scope : Scope}

/-! ### Names -/

theorem Scope.bindings_renumber : (scope.renumber ρ).bindings = Frame.renumber ρ scope.bindings := by
  rw [bindings, bindings, Frame.renumber, List.map_append, List.map_flatten]
  rfl

theorem Scope.find?_renumber (name : String) :
    (scope.renumber ρ).find? name = (scope.find? name).map (Binding.renumber ρ) := by
  rw [find?_eq_lookup, find?_eq_lookup, bindings_renumber]
  induction scope.bindings with
  | nil => rfl
  | cons x xs ih =>
    obtain ⟨n, b⟩ := x
    simp only [Frame.renumber, List.map_cons, List.lookup_cons] at ih ⊢
    cases name == n with
    | true => rfl
    | false => exact ih

theorem Scope.renumber_bind (name : String) (b : Binding) :
    (scope.bind name b).renumber ρ = (scope.renumber ρ).bind name (b.renumber ρ) :=
  rfl

theorem bindLiterals_renumber (literals : List String) :
    (bindLiterals scope literals).renumber ρ = bindLiterals (scope.renumber ρ) literals := by
  induction literals generalizing scope with
  | nil => rfl
  | cons x xs ih => exact ih

/-- Every signal in the scope, hidden ones as well, has a number below `n`. -/
def Scope.Below (scope : Scope) (n : Nat) : Prop := ∀ name id, (name, .signal id) ∈ scope.bindings → id < n

theorem Scope.Below.renumber {n : Nat} (h : scope.Below n) (hρ : ∀ id < n, ρ id = id) :
    scope.renumber ρ = scope := by
  have hframe : ∀ frame : Frame, frame ⊆ scope.bindings → frame.renumber ρ = frame := by
    intro frame hsub
    refine (List.map_congr_left fun x hx => ?_).trans (List.map_id frame)
    obtain ⟨name, b⟩ := x
    cases b with
    | signal id => exact congrArg (fun k => (name, Binding.signal k)) (hρ id (h name id (hsub hx)))
    | _ => rfl
  have houter : scope.outer.map (Frame.renumber ρ) = scope.outer := by
    refine (List.map_congr_left fun frame hmem => hframe frame fun x hx => ?_).trans (List.map_id _)
    exact List.mem_append_right _ (List.mem_flatten_of_mem hmem hx)
  rw [Scope.renumber, houter, hframe scope.inner (List.subset_append_left _ _)]

/-! ### Constants -/

theorem constant?_renumber (i : Syntax.Ident) : constant? (scope.renumber ρ) i = constant? scope i := by
  unfold constant?
  rw [Scope.find?_renumber]
  cases scope.find? i.name with
  | none => rfl
  | some b => cases b <;> rfl

theorem constant_renumber (i : Syntax.Ident) : constant (scope.renumber ρ) i = constant scope i := by
  rw [constant, constant, constant?_renumber]

mutual

theorem eval_renumber : ∀ e : Syntax.Expr, eval (scope.renumber ρ) e = eval scope e
  | .int .. | .bool .. | .char .. | .str .. => rfl
  | .name i => constant_renumber i
  | .call f args s => by rw [eval, eval, constant?_renumber, evalAll_renumber args]
  | .slice b l d r s => by rw [eval, eval, constant_renumber]
  | .attribute b a s => by rw [eval, eval, constant_renumber]
  | .unary op e s => by rw [eval, eval, eval_renumber e]
  | .binary op l r s => by rw [eval, eval, eval_renumber l, eval_renumber r]
  | .aggregate vs s => by rw [eval, eval, evalAll_renumber vs]

theorem evalAll_renumber : ∀ es : List Syntax.Expr, evalAll (scope.renumber ρ) es = evalAll scope es
  | [] => rfl
  | e :: es => by rw [evalAll, evalAll, eval_renumber e, evalAll_renumber es]

end

theorem evalInt_renumber (e : Syntax.Expr) (fault : String → DesignError) :
    evalInt (scope.renumber ρ) e fault = evalInt scope e fault := by
  rw [evalInt, evalInt, eval_renumber]

theorem generateBound_renumber (label : String) (e : Syntax.Expr) :
    generateBound (scope.renumber ρ) label e = generateBound scope label e :=
  evalInt_renumber e _

theorem width_renumber (t : Syntax.Subtype) : width (scope.renumber ρ) t = width scope t := by
  have hbound : ∀ e, widthBound (scope.renumber ρ) e = widthBound scope e :=
    fun e => evalInt_renumber e _
  unfold width
  cases t.range with
  | none =>
    rw [Scope.find?_renumber]
    cases scope.find? t.mark with
    | none => rfl
    | some b => cases b <;> rfl
  | some r => simp only [hbound]

/-! ### Expressions -/

namespace Scope

theorem signal_renumber (i : Syntax.Ident) : (scope.renumber ρ).signal i = (scope.signal i).map ρ := by
  unfold signal
  rw [find?_renumber]
  cases scope.find? i.name with
  | none => rfl
  | some b => cases b <;> rfl

theorem resolveName_renumber (i : Syntax.Ident) :
    (scope.renumber ρ).resolveName i = (scope.resolveName i).map (Expr.renumber ρ) := by
  unfold resolveName
  rw [find?_renumber]
  cases scope.find? i.name with
  | none => rfl
  | some b => cases b <;> rfl

theorem elementIndex_renumber (es : List Expr) (span : Span) :
    elementIndex (renumberExprs ρ es) span = (elementIndex es span).renumber ρ := by
  rcases es with _ | ⟨e, _ | ⟨e', es⟩⟩ <;> rfl

theorem resolveCall_renumber (f : Syntax.Ident) (es : List Expr) (span : Span) :
    (scope.renumber ρ).resolveCall f (renumberExprs ρ es) span =
      (scope.resolveCall f es span).renumber ρ := by
  unfold resolveCall
  rw [find?_renumber]
  cases scope.find? f.name with
  | none => rfl
  | some b =>
    cases b with
    | signal id =>
      exact congrArg (fun e => Expr.index (ρ id) f.span e span) (elementIndex_renumber es span)
    | _ => rfl

theorem resolveSlice_renumber (b : Syntax.Ident) (left right : Expr) (span : Span) :
    (scope.renumber ρ).resolveSlice b (left.renumber ρ) (right.renumber ρ) span =
      (scope.resolveSlice b left right span).map (Expr.renumber ρ) := by
  unfold resolveSlice
  rw [find?_renumber]
  cases scope.find? b.name with
  | none => rfl
  | some b => cases b <;> rfl

theorem resolveAttribute_renumber (b : Syntax.Ident) (attr : String) (span : Span) :
    (scope.renumber ρ).resolveAttribute b attr span =
      (scope.resolveAttribute b attr span).map (Expr.renumber ρ) := by
  unfold resolveAttribute
  rw [find?_renumber]
  cases scope.find? b.name with
  | none => rfl
  | some b =>
    cases b with
    | signal id =>
      dsimp only [Option.map_some, Binding.renumber]
      split <;> rfl
    | _ => rfl

mutual

theorem resolveExpr_renumber : ∀ e : Syntax.Expr,
    (scope.renumber ρ).resolveExpr e = (scope.resolveExpr e).map (Expr.renumber ρ)
  | .int .. | .bool .. | .char .. | .str .. => rfl
  | .name i => resolveName_renumber i
  | .call f args s => Result.bind_map (resolveExprs_renumber args) fun es =>
    congrArg Except.ok (resolveCall_renumber f es s)
  | .slice b l _ r s => Result.bind_map (resolveExpr_renumber l) fun left =>
    Result.bind_map (resolveExpr_renumber r) fun right => resolveSlice_renumber b left right s
  | .attribute b a s => resolveAttribute_renumber b a s
  | .unary _ e _ => Result.bind_map (resolveExpr_renumber e) fun _ => rfl
  | .binary _ l r _ => Result.bind_map (resolveExpr_renumber l) fun _ =>
    Result.bind_map (resolveExpr_renumber r) fun _ => rfl
  | .aggregate vs _ => Result.bind_map (resolveExprs_renumber vs) fun _ => rfl

theorem resolveExprs_renumber : ∀ es : List Syntax.Expr,
    (scope.renumber ρ).resolveExprs es = (scope.resolveExprs es).map (renumberExprs ρ)
  | [] => rfl
  | e :: es => Result.bind_map (resolveExpr_renumber e) fun _ =>
    Result.bind_map (resolveExprs_renumber es) fun _ => rfl

end

/-! ### Statements -/

theorem resolveSelector?_renumber : ∀ s : Option Syntax.Selector,
    (scope.renumber ρ).resolveSelector? s = (scope.resolveSelector? s).map (·.map (Selector.renumber ρ))
  | none => rfl
  | some (.index e) =>
    have h : (scope.renumber ρ).resolveSelector (.index e) =
        (scope.resolveSelector (.index e)).map (Selector.renumber ρ) :=
      Result.bind_map (resolveExpr_renumber e) fun _ => rfl
    Result.bind_map h fun _ => rfl
  | some (.slice r) =>
    have h : (scope.renumber ρ).resolveSelector (.slice r) =
        (scope.resolveSelector (.slice r)).map (Selector.renumber ρ) :=
      Result.bind_map (resolveExpr_renumber r.left) fun _ =>
        Result.bind_map (resolveExpr_renumber r.right) fun _ => rfl
    Result.bind_map h fun _ => rfl

mutual

theorem resolveStmt_renumber : ∀ s : Syntax.Stmt,
    (scope.renumber ρ).resolveStmt s = (scope.resolveStmt s).map (Stmt.renumber ρ)
  | .assign target value _ => Result.bind_map (signal_renumber target.ident) fun _ =>
    Result.bind_map (resolveSelector?_renumber target.selector) fun _ =>
      Result.bind_map (resolveExpr_renumber value) fun _ => rfl
  | .ifs branches otherwise _ => Result.bind_map (resolveBranches_renumber branches) fun _ =>
    Result.bind_map (resolveBlock?_renumber otherwise) fun _ => rfl
  | .case subject arms others _ => Result.bind_map (resolveArms_renumber arms) fun _ =>
    Result.bind_map (resolveBlock?_renumber others) fun _ =>
      Result.bind_map (resolveExpr_renumber subject) fun _ => rfl
  | .null _ => rfl

theorem resolveBlock_renumber : ∀ b : List Syntax.Stmt,
    (scope.renumber ρ).resolveBlock b = (scope.resolveBlock b).map (renumberBlock ρ)
  | [] => rfl
  | s :: ss => Result.bind_map (resolveStmt_renumber s) fun _ =>
    Result.bind_map (resolveBlock_renumber ss) fun _ => rfl

theorem resolveBlock?_renumber : ∀ b : Option (List Syntax.Stmt),
    (scope.renumber ρ).resolveBlock? b = (scope.resolveBlock? b).map (renumberOption ρ)
  | none => rfl
  | some b => Result.bind_map (resolveBlock_renumber b) fun _ => rfl

theorem resolveBranches_renumber : ∀ bs : List Syntax.Branch,
    (scope.renumber ρ).resolveBranches bs = (scope.resolveBranches bs).map (renumberBranches ρ)
  | [] => rfl
  | ⟨condition, body⟩ :: bs => Result.bind_map (resolveExpr_renumber condition) fun _ =>
    Result.bind_map (resolveBlock_renumber body) fun _ =>
      Result.bind_map (resolveBranches_renumber bs) fun _ => rfl

theorem resolveArms_renumber : ∀ as : List Syntax.Arm,
    (scope.renumber ρ).resolveArms as = (scope.resolveArms as).map (renumberArms ρ)
  | [] => rfl
  | ⟨choices, body, _⟩ :: as => Result.bind_map (resolveExprs_renumber choices) fun _ =>
    Result.bind_map (resolveBlock_renumber body) fun _ =>
      Result.bind_map (resolveArms_renumber as) fun _ => rfl

end

theorem resolveSignals_renumber (is : List Syntax.Ident) : (scope.renumber ρ).resolveSignals is =
    (scope.resolveSignals is).map (List.map fun x => (ρ x.1, x.2)) := by
  induction is with
  | nil => rfl
  | cons i is ih => exact Result.bind_map (signal_renumber i) fun _ => Result.bind_map ih fun _ => rfl

theorem resolveSensitivity_renumber (s : Syntax.Sensitivity) : (scope.renumber ρ).resolveSensitivity s =
    (scope.resolveSensitivity s).map (Sensitivity.renumber ρ) := by
  cases s with
  | all => rfl
  | list names => exact Result.bind_map (resolveSignals_renumber names) fun _ => rfl

end Scope

theorem buildProcess_renumber (a : Syntax.Architecture) (path : Path) (ordinal : Nat)
    (p : Syntax.Process) : buildProcess a (scope.renumber ρ) path ordinal p =
      (buildProcess a scope path ordinal p).map (Process.renumber ρ) :=
  Result.bind_map (Scope.resolveSensitivity_renumber p.sensitivity) fun _ =>
    Result.bind_map (Scope.resolveBlock_renumber p.body) fun _ => rfl

/-! ### Instances -/

theorem mapGenerics_renumber (e : Syntax.Entity) (position : Nat) (as : List Syntax.Association)
    (given : List (Option (Value × Span))) :
    mapGenerics (scope.renumber ρ) e position as given = mapGenerics scope e position as given := by
  induction as generalizing position given with
  | nil => rfl
  | cons a as ih => simp only [mapGenerics, eval_renumber, ih]

theorem portActual_renumber (e : Expr) : portActual (e.renumber ρ) = (portActual e).renumber ρ := by
  cases e <;> rfl

theorem mapPorts_renumber (e : Syntax.Entity) (position : Nat) (as : List Syntax.Association)
    (given : List PortActual) :
    mapPorts (scope.renumber ρ) e position as (given.map (PortActual.renumber ρ)) =
      (mapPorts scope e position as given).map (List.map (PortActual.renumber ρ)) := by
  induction as generalizing position given with
  | nil => rfl
  | cons a as ih =>
    refine Result.bind_map_same fun i => ?_
    cases a.actual with
    | leftOpen =>
      have h := ih (position + 1) (given.set i .leftOpen)
      rwa [List.map_set] at h
    | expr value =>
      refine Result.bind_map (Scope.resolveExpr_renumber value) fun r => ?_
      have h := ih (position + 1) (given.set i (portActual r))
      rwa [List.map_set, ← portActual_renumber] at h

theorem instantiate_renumber (l : Library) (path : Path) (i : Syntax.Instantiation) :
    instantiate l (scope.renumber ρ) path i = (instantiate l scope path i).map (Pending.renumber ρ) := by
  unfold instantiate
  refine Result.bind_map_same fun (e, a) => ?_
  dsimp only
  rw [mapGenerics_renumber]
  refine Result.bind_map_same fun generics => ?_
  have hbare : (e.ports.map fun _ => PortActual.leftOpen) =
      (e.ports.map fun _ => PortActual.leftOpen).map (PortActual.renumber ρ) := by
    rw [List.map_map]
    rfl
  have hports := @mapPorts_renumber ρ scope e 0 i.portMap
    (e.ports.map fun _ => PortActual.leftOpen)
  rw [← hbare] at hports
  exact Result.bind_map hports fun ports => rfl

end HdlLint.Design
