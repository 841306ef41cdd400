import HdlLint.Design.Build
import HdlLint.Proofs.Binding
import HdlLint.Proofs.Scoping
import HdlLint.Proofs.Spans

/-!
# Faults of what is built

A fault of evaluating, resolving or declaring stands at a span of the text that is looked at, and it is
never the want of a unit; only an instance that is asked for can fail for that. So if all faults of
these two kinds are among `E`, then so are the faults of building an instance
(`Pending.build_yields`).
-/

namespace HdlLint.Design
open Syntax (Library)

/-- No such entity, no architecture, or not the one that was named. -/
def DesignError.MissesUnit (e : DesignError) : Prop :=
  e.code = .error 200 ∨ e.code = .error 201

/-- The step does not fail for want of a unit. -/
def Result.MissesNoUnit {α : Type} (r : Result α) : Prop := ∀ e, r = .error e → ¬ e.MissesUnit

/-- A sequence of two steps fails if the first one does or, after it, the second. -/
theorem Result.bind_eq_error {α β : Type} {x : Result α} {f : α → Result β} {e : DesignError} :
    (x >>= f) = .error e ↔ x = .error e ∨ ∃ a, x = .ok a ∧ f a = .error e := by
  cases x with
  | error e' =>
    constructor
    · intro h; exact .inl (congrArg _ (Except.error.inj h))
    · rintro (h | ⟨_, h, _⟩)
      · exact congrArg _ (Except.error.inj h)
      · cases h
  | ok a =>
    constructor
    · intro h; exact .inr ⟨a, rfl, h⟩
    · rintro (h | ⟨_, ⟨⟩, h⟩)
      · cases h
      · exact h

/-- The step fails only with faults in `E`, and what it gives has `Q`. -/
def Result.Yields {α : Type} (E : DesignError → Prop) (r : Result α) (Q : α → Prop) : Prop :=
  (∀ a, r = .ok a → Q a) ∧ ∀ e, r = .error e → E e

/-- The step fails only with faults in `E`. -/
abbrev Result.Fails {α : Type} (E : DesignError → Prop) (r : Result α) : Prop :=
  Yields E r fun _ => True

namespace Result
variable {α β : Type} {E : DesignError → Prop} {Q : α → Prop} {R : β → Prop}

namespace Yields

theorem ok {a : α} (h : Q a) : Yields E (.ok a : Result α) Q :=
  ⟨fun _ hb => Except.ok.inj hb ▸ h, nofun⟩

theorem error {e : DesignError} (h : E e) : Yields E (.error e : Result α) Q :=
  ⟨nofun, fun _ he => Except.error.inj he ▸ h⟩

theorem bind {x : Result α} {f : α → Result β} (hx : Yields E x Q) (hf : ∀ a, Q a → Yields E (f a) R) :
    Yields E (x >>= f) R := by
  cases x with
  | ok a => exact hf a (hx.1 a rfl)
  | error e => exact error (hx.2 e rfl)

/-- What is given is the result itself, besides. -/
theorem eq_ok {x : Result α} (h : Yields E x Q) : Yields E x fun a => x = .ok a ∧ Q a :=
  ⟨fun a ha => ⟨ha, h.1 a ha⟩, h.2⟩

theorem foldlM {xs : List β} {step : α → β → Result α}
    (h : ∀ a, Q a → ∀ b ∈ xs, Yields E (step a b) Q) {a : α} (ha : Q a) :
    Yields E (xs.foldlM step a) Q := by
  induction xs generalizing a with
  | nil => exact ok ha
  | cons x xs ih =>
    rw [List.foldlM_cons]
    exact (h a ha x List.mem_cons_self).bind fun b hb =>
      ih (fun a ha y hy => h a ha y (List.mem_cons_of_mem _ hy)) hb

end Yields

namespace Fails

theorem ok (a : α) : Fails E (.ok a : Result α) := Yields.ok trivial

theorem bind {x : Result α} {f : α → Result β} (hx : Fails E x) (hf : ∀ a, Yields E (f a) R) :
    Yields E (x >>= f) R :=
  Yields.bind hx fun a _ => hf a

theorem map {x : Result α} {f : α → β} (hx : Fails E x) : Fails E (x >>= fun a => .ok (f a)) :=
  hx.bind fun _ => ok _

end Fails

end Result

open Result

/-- All faults at spans with `P` other than the want of a unit are among `E`. -/
def Admits (E : DesignError → Prop) (P : Span → Prop) : Prop :=
  ∀ e : DesignError, P e.span → ¬ e.MissesUnit → E e

section
variable {E : DesignError → Prop} {P : Span → Prop} {scope : Scope} {l : Library}

/-! ### Values -/

theorem located_fails (hE : Admits E P) {α : Type} {span : Span} (hspan : P span) (r : Except EvalFault α) :
    Fails E (located span r) := by
  cases r with
  | ok a => exact .ok a
  | error fault => exact .error (hE _ hspan nofun)

theorem constant?_fails (hE : Admits E P) {i : Syntax.Ident} (hi : i.Within P) : Fails E (constant? scope i) := by
  unfold constant?
  split
  · exact .ok _
  · exact .ok _
  · exact .error (hE _ hi nofun)
  · exact .ok _

theorem constant_fails (hE : Admits E P) {i : Syntax.Ident} (hi : i.Within P) : Fails E (constant scope i) := by
  refine (constant?_fails hE hi).bind fun v => ?_
  cases v with
  | some v => exact .ok trivial
  | none => exact .error (hE _ hi nofun)

mutual

theorem eval_fails (hE : Admits E P) : ∀ {e : Syntax.Expr}, e.Within P → Fails E (eval scope e)
  | .int .., _ | .bool .., _ | .char .., _ | .str .., _ => .ok _
  | .name _, h => constant_fails hE h
  | .call .., h => (constant?_fails hE h.1).bind fun _ => (evalAll_fails hE h.2.1).map
  | .slice .., h => (constant_fails hE h.1).map
  | .attribute .., h => (constant_fails hE h.1).map
  | .unary .., h => (eval_fails hE h.1).bind fun _ => located_fails hE h.2 _
  | .binary .., h =>
    (eval_fails hE h.1).bind fun _ => (eval_fails hE h.2.1).bind fun _ => located_fails hE h.2.2 _
  | .aggregate .., h => (evalAll_fails hE h.1).map

theorem evalAll_fails (hE : Admits E P) : ∀ {es : List Syntax.Expr}, Syntax.ExprsWithin P es → Fails E (evalAll scope es)
  | [], _ => .ok _
  | _ :: _, h => (eval_fails hE h.1).bind fun _ => evalAll_fails hE h.2

end

theorem evalInt_fails (hE : Admits E P) {e : Syntax.Expr} (he : e.Within P) {fault : String → DesignError}
    (hfault : ∀ found, E (fault found)) : Fails E (evalInt scope e fault) := by
  refine (eval_fails hE he).bind fun v => ?_
  cases v with
  | int n => exact .ok trivial
  | _ => exact .error (hfault _)

/-! ### Names -/

namespace Scope

theorem signal_fails (hE : Admits E P) {i : Syntax.Ident} (hi : i.Within P) : Fails E (scope.signal i) := by
  unfold signal
  split
  · exact .ok _
  · exact .error (hE _ hi nofun)
  · exact .error (hE _ hi nofun)

theorem resolveName_fails (hE : Admits E P) {i : Syntax.Ident} (hi : i.Within P) : Fails E (scope.resolveName i) := by
  unfold resolveName
  split
  · exact .ok _
  · exact .ok _
  · exact .ok _
  · exact .error (hE _ hi nofun)

theorem resolveSlice_fails (hE : Admits E P) {b : Syntax.Ident} (hb : b.Within P) (left right : Expr) (span : Span) :
    Fails E (scope.resolveSlice b left right span) := by
  unfold resolveSlice
  split
  · exact .ok _
  · exact .ok _
  · exact .error (hE _ hb nofun)

theorem resolveAttribute_fails (hE : Admits E P) {b : Syntax.Ident} (hb : b.Within P) (attr : String) (span : Span) :
    Fails E (scope.resolveAttribute b attr span) := by
  unfold resolveAttribute
  split
  · split
    · exact .ok _
    · exact .ok _
  · exact .ok _
  · exact .error (hE _ hb nofun)

mutual

theorem resolveExpr_fails (hE : Admits E P) : ∀ {e : Syntax.Expr}, e.Within P → Fails E (scope.resolveExpr e)
  | .int .., _ | .bool .., _ | .char .., _ | .str .., _ => .ok _
  | .name _, h => resolveName_fails hE h
  | .call .., h => (resolveExprs_fails hE h.2.1).map
  | .slice .., h => (resolveExpr_fails hE h.2.1).bind fun _ =>
    (resolveExpr_fails hE h.2.2.1).bind fun _ => resolveSlice_fails hE h.1 _ _ _
  | .attribute .., h => resolveAttribute_fails hE h.1 _ _
  | .unary .., h => (resolveExpr_fails hE h.1).map
  | .binary .., h => (resolveExpr_fails hE h.1).bind fun _ => (resolveExpr_fails hE h.2.1).map
  | .aggregate .., h => (resolveExprs_fails hE h.1).map

theorem resolveExprs_fails (hE : Admits E P) :
    ∀ {es : List Syntax.Expr}, Syntax.ExprsWithin P es → Fails E (scope.resolveExprs es)
  | [], _ => .ok _
  | _ :: _, h => (resolveExpr_fails hE h.1).bind fun _ => (resolveExprs_fails hE h.2).map

end

theorem resolveSelector?_fails (hE : Admits E P) :
    ∀ {s : Option Syntax.Selector}, (∀ x ∈ s, x.Within P) → Fails E (scope.resolveSelector? s)
  | none, _ => .ok _
  | some (.index _), h => Fails.map (Fails.map (resolveExpr_fails hE (h _ rfl)))
  | some (.slice _), h => Fails.map ((resolveExpr_fails hE (h _ rfl).1).bind fun _ =>
    (resolveExpr_fails hE (h _ rfl).2).map)

mutual

theorem resolveStmt_fails (hE : Admits E P) : ∀ {s : Syntax.Stmt}, s.Within P → Fails E (scope.resolveStmt s)
  | .assign .., h => (signal_fails hE h.1.ident).bind fun _ =>
    (resolveSelector?_fails hE h.1.selector).bind fun _ => (resolveExpr_fails hE h.2.1).map
  | .ifs .., h => (resolveBranches_fails hE h.1).bind fun _ => (resolveBlock?_fails hE h.2.1).map
  | .case .., h => (resolveArms_fails hE h.2.1).bind fun _ =>
    (resolveBlock?_fails hE h.2.2.1).bind fun _ => (resolveExpr_fails hE h.1).map
  | .null _, _ => .ok _

theorem resolveBlock_fails (hE : Admits E P) :
    ∀ {ss : List Syntax.Stmt}, Syntax.BlockWithin P ss → Fails E (scope.resolveBlock ss)
  | [], _ => .ok _
  | _ :: _, h => (resolveStmt_fails hE h.1).bind fun _ => (resolveBlock_fails hE h.2).map

theorem resolveBlock?_fails (hE : Admits E P) :
    ∀ {b : Option (List Syntax.Stmt)}, Syntax.OptionWithin P b → Fails E (scope.resolveBlock? b)
  | none, _ => .ok _
  | some _, h => (resolveBlock_fails hE h).map

theorem resolveBranches_fails (hE : Admits E P) :
    ∀ {bs : List Syntax.Branch}, Syntax.BranchesWithin P bs → Fails E (scope.resolveBranches bs)
  | [], _ => .ok _
  | ⟨_, _⟩ :: _, h => (resolveExpr_fails hE h.1).bind fun _ =>
    (resolveBlock_fails hE h.2.1).bind fun _ => (resolveBranches_fails hE h.2.2).map

theorem resolveArms_fails (hE : Admits E P) :
    ∀ {as : List Syntax.Arm}, Syntax.ArmsWithin P as → Fails E (scope.resolveArms as)
  | [], _ => .ok _
  | ⟨_, _, _⟩ :: _, h => (resolveExprs_fails hE h.1).bind fun _ =>
    (resolveBlock_fails hE h.2.1).bind fun _ => (resolveArms_fails hE h.2.2.2).map

end

theorem resolveSignals_fails (hE : Admits E P) :
    ∀ {is : List Syntax.Ident}, (∀ i ∈ is, i.Within P) → Fails E (scope.resolveSignals is)
  | [], _ => .ok _
  | _ :: _, h => (signal_fails hE (List.forall_mem_cons.1 h).1).bind fun _ =>
    (resolveSignals_fails hE (List.forall_mem_cons.1 h).2).map

theorem resolveSensitivity_fails (hE : Admits E P) :
    ∀ {s : Syntax.Sensitivity}, s.Within P → Fails E (scope.resolveSensitivity s)
  | .all, _ => .ok _
  | .list _, h => (resolveSignals_fails hE h).map

end Scope

/-! ### Declarations -/

theorem widthBound_fails (hE : Admits E P) {e : Syntax.Expr} (he : e.Within P) : Fails E (widthBound scope e) :=
  evalInt_fails hE he fun _ => hE _ he.span nofun

theorem generateBound_fails (hE : Admits E P) (label : String) {e : Syntax.Expr} (he : e.Within P) :
    Fails E (generateBound scope label e) :=
  evalInt_fails hE he fun _ => hE _ he.span nofun

theorem width_fails (hE : Admits E P) {t : Syntax.Subtype} (ht : t.Within P) : Fails E (width scope t) := by
  unfold width
  split
  · split
    · exact .ok _
    · split
      · exact .ok _
      · exact .ok _
  · rename_i r hr
    obtain ⟨hleft, hright⟩ := ht.range r hr
    refine (widthBound_fails hE hleft).bind fun left => (widthBound_fails hE hright).bind fun right => ?_
    split
    · exact .ok trivial
    · dsimp only
      split
      · exact .ok trivial
      · exact .error (hE _ ht.span nofun)

theorem bindPorts_fails (hE : Admits E P) (path : Path) {ps : List Syntax.Port} (hps : ∀ p ∈ ps, p.Within P)
    (scope : Scope) (signals : Array Signal) : Fails E (bindPorts path scope signals ps) := by
  induction ps generalizing scope signals with
  | nil => exact .ok _
  | cons p ps ih =>
    obtain ⟨hp, hps⟩ := List.forall_mem_cons.1 hps
    exact (width_fails hE hp.subtype).bind fun _ => ih hps _ _

theorem bindDecls_fails (hE : Admits E P) (path : Path) {ds : List Syntax.Decl} (hds : ∀ d ∈ ds, d.Within P)
    (scope : Scope) (signals : Array Signal) : Fails E (bindDecls path scope signals ds) := by
  induction ds generalizing scope signals with
  | nil => exact .ok _
  | cons d ds ih =>
    obtain ⟨hd, hrest⟩ := List.forall_mem_cons.1 hds
    cases d with
    | enumeration name literals span => exact ih hrest _ _
    | constant name type value span => exact (eval_fails hE hd.2.1).bind fun _ => ih hrest _ _
    | signal name type init span => exact (width_fails hE hd.1).bind fun _ => ih hrest _ _

/-! ### Generics -/

/-- What is put in for generics is put in at spans with `P`. -/
def GivenWithin (P : Span → Prop) (given : List (Option (Value × Span))) : Prop :=
  ∀ g ∈ given, ∀ v ∈ g, P v.2

theorem GivenWithin.set {given : List (Option (Value × Span))} (h : GivenWithin P given) {v : Value}
    {span : Span} (hspan : P span) (i : Nat) : GivenWithin P (given.set i (some (v, span))) := by
  intro g hg w hw
  rcases List.mem_or_eq_of_mem_set hg with hg | rfl
  · exact h g hg w hw
  · obtain rfl := Option.some.inj hw
    exact hspan

/-- All spans of an instance that is asked for have `P`. -/
structure Pending.Within (P : Span → Prop) (p : Pending) : Prop where
  entity : p.entity.Within P
  architecture : p.architecture.Within P
  span : P p.span
  generics : GivenWithin P p.generics

theorem Pending.within_bare {e : Syntax.Entity} {a : Syntax.Architecture} {span : Span}
    (he : e.Within P) (ha : a.Within P) (hspan : P span) (path : Path) :
    (Pending.bare e a path span).Within P := by
  refine ⟨he, ha, hspan, fun g hg v hv => ?_⟩
  obtain ⟨_, _, rfl⟩ := List.mem_map.1 hg
  cases hv

theorem genericValue_yields (hE : Admits E P) {p : Pending} (hp : p.Within P) {g : Syntax.Generic} (hg : g.Within P)
    {given : Option (Value × Span)} (hgiven : ∀ v ∈ given, P v.2) :
    Yields E (genericValue p scope g given) fun v => P v.2 := by
  unfold genericValue
  split
  · exact .ok (hgiven _ rfl)
  · rename_i e he
    exact (eval_fails hE (hg.default e he)).bind fun _ => .ok (hg.default e he).span
  · refine .error (hE _ ?_ nofun)
    show P (if p.parent.isSome then p.span else g.span)
    split
    · exact hp.span
    · exact hg.span

theorem bindGenerics_fails (hE : Admits E P) {p : Pending} (hp : p.Within P) {gs : List Syntax.Generic}
    (hgs : ∀ g ∈ gs, g.Within P) (scope : Scope) {given : List (Option (Value × Span))}
    (hgiven : GivenWithin P given) : Fails E (bindGenerics p scope gs given) := by
  induction gs generalizing scope given with
  | nil => exact .ok _
  | cons g gs ih =>
    obtain ⟨hg, hgs⟩ := List.forall_mem_cons.1 hgs
    have hfirst : ∀ v ∈ given.head?.join, P v.2 := by
      intro v hv
      have hmem : some v ∈ given := List.mem_of_head? (Option.join_eq_some_iff.1 hv)
      exact hgiven _ hmem v rfl
    refine (genericValue_yields hE hp hg hfirst).bind fun v hv => ?_
    dsimp only
    split
    · exact (ih hgs _ fun o ho => hgiven o (List.mem_of_mem_tail ho)).map
    · exact .error (hE _ hv nofun)

/-! ### Statements -/

theorem formalIndex_fails (hE : Admits E P) (entity : String) (names : List String) (what : Formals)
    (position : Nat) {a : Syntax.Association} (ha : a.Within P) :
    Fails E (formalIndex entity names what position a) := by
  unfold formalIndex
  split
  · split
    · exact .ok _
    · exact .error (hE _ ha.span nofun)
    · exact .error (hE _ ha.span nofun)
  · split
    · exact .ok _
    · exact .error (hE _ ha.span nofun)

theorem mapGenerics_yields (hE : Admits E P) (e : Syntax.Entity) {as : List Syntax.Association}
    (has : ∀ a ∈ as, a.Within P) (position : Nat) {given : List (Option (Value × Span))}
    (hgiven : GivenWithin P given) :
    Yields E (mapGenerics scope e position as given) (GivenWithin P) := by
  induction as generalizing position given with
  | nil => exact .ok hgiven
  | cons a as ih =>
    obtain ⟨ha, has⟩ := List.forall_mem_cons.1 has
    refine (formalIndex_fails hE _ _ _ _ ha).bind fun i => ?_
    split
    · exact ih has _ hgiven
    · rename_i value hactual
      have hvalue : value.Within P := by
        have := ha.actual
        rwa [hactual] at this
      exact (eval_fails hE hvalue).bind fun v => ih has _ (hgiven.set ha.span i)

theorem mapPorts_fails (hE : Admits E P) (e : Syntax.Entity) {as : List Syntax.Association}
    (has : ∀ a ∈ as, a.Within P) (position : Nat) (given : List PortActual) :
    Fails E (mapPorts scope e position as given) := by
  induction as generalizing position given with
  | nil => exact .ok _
  | cons a as ih =>
    obtain ⟨ha, has⟩ := List.forall_mem_cons.1 has
    refine (formalIndex_fails hE _ _ _ _ ha).bind fun i => ?_
    split
    · exact ih has _ _
    · rename_i value hactual
      have hvalue : value.Within P := by
        have := ha.actual
        rwa [hactual] at this
      exact (Scope.resolveExpr_fails hE hvalue).bind fun _ => ih has _ _

theorem Library.bindUnit_yields (hl : l.Within P) {entity : String}
    {architecture : Option String} {span : Span} (h : Fails E (l.bindUnit entity architecture span)) :
    Yields E (l.bindUnit entity architecture span) fun u => u.1.Within P ∧ u.2.Within P := by
  refine ⟨fun u hu => ?_, h.2⟩
  obtain ⟨-, -, -, hmem⟩ := Library.bindUnit_spec hu
  have hentity : u.1 ∈ l.entities :=
    List.mem_reverse.1 (List.mem_of_find?_eq_some (entity?_of_bindUnit hu))
  exact ⟨hl.entities _ hentity, hl.architectures _ hmem⟩

theorem instantiate_yields (hE : Admits E P) (hl : l.Within P) {path : Path} {i : Syntax.Instantiation} (hi : i.Within P)
    (hbind : Fails E (l.bindUnit i.entity i.architecture i.span)) :
    Yields E (instantiate l scope path i) (Pending.Within P) := by
  refine (Library.bindUnit_yields hl hbind).bind fun u hu => ?_
  have hbare := Pending.within_bare hu.1 hu.2 hi.span (path ++ [.inst i.label])
  refine (mapGenerics_yields hE _ hi.genericMap _ hbare.generics).bind fun generics hgenerics => ?_
  exact (mapPorts_fails hE _ hi.portMap _ _).bind fun ports =>
    .ok ⟨hbare.entity, hbare.architecture, hbare.span, hgenerics⟩

theorem buildProcess_fails (hE : Admits E P) (a : Syntax.Architecture) (path : Path) (ordinal : Nat)
    {p : Syntax.Process} (hp : p.Within P) : Fails E (buildProcess a scope path ordinal p) :=
  (Scope.resolveSensitivity_fails hE hp.sensitivity).bind fun _ =>
    (Scope.resolveBlock_fails hE hp.body).map

/-- All instances that have been asked for so far have spans with `P`. -/
def Progress.Within (P : Span → Prop) (done : Progress) : Prop := ∀ c ∈ done.children, c.Within P

theorem Progress.within_start (signals : Array Signal) : Progress.Within P { signals } :=
  fun c hc => absurd hc (Array.not_mem_empty c)

mutual

theorem buildStmt_yields (hE : Admits E P) (hl : l.Within P) {a : Syntax.Architecture} :
    ∀ {c : Syntax.Concurrent} {scope : Scope} {path : Path} {ordinal : Nat} {done : Progress},
    c.Within P → (∀ i ∈ c.instantiations, Fails E (l.bindUnit i.entity i.architecture i.span)) →
      done.Within P → Yields E (buildStmt l a scope path ordinal done c) (Progress.Within P)
  | .process _, _, _, _, _, hc, _, hdone => (buildProcess_fails hE _ _ _ hc).bind fun _ => .ok hdone
  | .instantiation i, _, _, _, done, hc, h, hdone => by
    refine (instantiate_yields hE hl hc (h i (List.mem_singleton.2 rfl))).bind fun child hchild => ?_
    refine .ok fun c hmem => ?_
    rcases Array.mem_push.1 hmem with hmem | rfl
    · exact hdone c hmem
    · exact hchild
  | .generate ⟨label, var, range, decls, body, _⟩, scope, path, ordinal, done, hc, h, hdone => by
    obtain ⟨hrange, hdecls, hbody, -⟩ := hc
    refine (generateBound_fails hE _ hrange.1).bind fun left =>
      (generateBound_fails hE _ hrange.2).bind fun right => ?_
    rw [foldIndices_eq_foldlM]
    refine Yields.foldlM (fun d hd i _ => ?_) hdone
    exact (bindDecls_fails hE _ hdecls _ _).bind fun _ => buildStmts_yields hE hl hbody h hd

theorem buildStmts_yields (hE : Admits E P) (hl : l.Within P) {a : Syntax.Architecture} :
    ∀ {cs : List Syntax.Concurrent} {scope : Scope} {path : Path} {ordinal : Nat} {done : Progress},
    Syntax.ConcurrentsWithin P cs →
      (∀ i ∈ Syntax.instantiations cs, Fails E (l.bindUnit i.entity i.architecture i.span)) →
      done.Within P → Yields E (buildStmts l a scope path ordinal done cs) (Progress.Within P)
  | [], _, _, _, _, _, _, hdone => .ok hdone
  | c :: cs, _, _, _, _, hcs, h, hdone => by
    rw [Syntax.instantiations] at h
    exact (buildStmt_yields hE hl hcs.1 (fun i hi => h i (List.mem_append_left _ hi)) hdone).bind
      fun _ hdone => buildStmts_yields hE hl hcs.2 (fun i hi => h i (List.mem_append_right _ hi)) hdone

end

/-- The faults of building an instance whose statements are bound but for faults in `E` are in `E`, and
the instances it asks for have spans with `P` if it has. -/
theorem Pending.build_yields (hE : Admits E P) (hl : l.Within P) {p : Pending} (hp : p.Within P)
    (h : ∀ i ∈ Syntax.instantiations p.architecture.body,
      Fails E (l.bindUnit i.entity i.architecture i.span)) :
    Yields E (p.build l) fun r => ∀ c ∈ r.2, c.Within P := by
  rw [build_eq]
  refine (bindGenerics_fails hE hp hp.entity.generics _ hp.generics).bind fun _ => ?_
  refine (bindPorts_fails hE _ hp.entity.ports _ _).bind fun _ => ?_
  refine (bindDecls_fails hE _ hp.architecture.decls _ _).bind fun _ => ?_
  refine (buildStmts_yields hE hl hp.architecture.body h (Progress.within_start _)).bind fun done hdone => ?_
  exact .ok fun c hc => hdone c (Array.mem_def.2 hc)

end

/-! ### Faults for want of a unit -/

namespace Result.MissesNoUnit
variable {α : Type}

theorem ok (a : α) : MissesNoUnit (.ok a : Result α) := nofun

theorem error {e : DesignError} (h : ¬ e.MissesUnit) : MissesNoUnit (.error e : Result α) := by
  intro e' he
  obtain rfl := Except.error.inj he
  exact h

end Result.MissesNoUnit

/-- An instance whose statements are bound is built without a fault for want of a unit. -/
theorem Pending.build_missesNoUnit {l : Library} {p : Pending}
    (h : ∀ i ∈ Syntax.instantiations p.architecture.body,
      (l.bindUnit i.entity i.architecture i.span).MissesNoUnit) : (p.build l).MissesNoUnit := by
  have hp : p.Within fun _ => True :=
    ⟨p.entity.within_true, p.architecture.within_true, trivial, fun _ _ _ _ => trivial⟩
  exact (p.build_yields (fun _ _ he => he) l.within_true hp
    fun i hi => ⟨fun _ _ => trivial, h i hi⟩).2

end HdlLint.Design
