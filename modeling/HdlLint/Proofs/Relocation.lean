import Mathlib.Data.List.Basic
import HdlLint.Proofs.Building
import HdlLint.Proofs.Binding

/-!
# Building at another place

What is built of an instance does not depend on where the instance stands. `buildStmts_under`: building
below `path` gives what building at the top gives, with `path` put before every path in it, and it fails
in the same way. The generics are the only thing that an instance takes from above into its scope, so
`Pending.build_core` tells its signals and processes, up to their paths, from its unit and its generics
alone.
-/

namespace HdlLint.Design
open Syntax (Library)

/-! ### Putting a path before another -/

def Signal.under (path : Path) (s : Signal) : Signal := { s with scope := path ++ s.scope }

def Process.under (path : Path) (p : Process) : Process := { p with scope := path ++ p.scope }

def Pending.under (path : Path) (p : Pending) : Pending := { p with path := path ++ p.path }

def Progress.under (path : Path) (done : Progress) : Progress :=
  ⟨done.signals.map (·.under path), done.processes.map (·.under path), done.children.map (·.under path)⟩

theorem Result.foldlM_map {α β β' : Type} {step : β → α → Result β} {step' : β' → α → Result β'}
    {f : β → β'} (h : ∀ b a, step' (f b) a = (step b a).map f) (xs : List α) (b : β) :
    xs.foldlM step' (f b) = (xs.foldlM step b).map f := by
  induction xs generalizing b with
  | nil => rfl
  | cons a xs ih =>
    rw [List.foldlM_cons, List.foldlM_cons]
    exact Result.bind_map (h b a) ih

/-! ### Declarations -/

variable {path q : Path} {scope : Scope}

/-- A scope with the signals declared so far, those being below `path`. -/
def declaredUnder (path : Path) (r : Scope × Array Signal) : Scope × Array Signal :=
  (r.1, r.2.map (·.under path))

theorem bindPorts_under (signals : Array Signal) (ps : List Syntax.Port) :
    bindPorts (path ++ q) scope (signals.map (·.under path)) ps =
      (bindPorts q scope signals ps).map (declaredUnder path) := by
  induction ps generalizing scope signals with
  | nil => rfl
  | cons p ps ih =>
    refine Result.bind_map_same fun w => ?_
    rw [← ih, Array.size_map, Array.map_push]
    rfl

theorem bindDecls_under (signals : Array Signal) (ds : List Syntax.Decl) :
    bindDecls (path ++ q) scope (signals.map (·.under path)) ds =
      (bindDecls q scope signals ds).map (declaredUnder path) := by
  induction ds generalizing scope signals with
  | nil => rfl
  | cons d ds ih =>
    cases d with
    | enumeration name literals span => exact ih signals
    | constant name type value span =>
      exact Result.bind_map_same fun v => ih signals
    | signal name type default span =>
      refine Result.bind_map_same fun w => ?_
      rw [← ih, Array.size_map, Array.map_push]
      rfl

/-! ### Statements -/

theorem buildProcess_under (a : Syntax.Architecture) (ordinal : Nat) (p : Syntax.Process) :
    buildProcess a scope (path ++ q) ordinal p =
      (buildProcess a scope q ordinal p).map (Process.under path) := by
  unfold buildProcess
  exact Result.bind_map_same fun _ => Result.bind_map_same fun _ => rfl

theorem instantiate_under (l : Library) (i : Syntax.Instantiation) :
    instantiate l scope (path ++ q) i = (instantiate l scope q i).map (Pending.under path) := by
  unfold instantiate
  refine Result.bind_map_same fun (e, a) => ?_
  refine Result.bind_map_same fun generics => Result.bind_map_same fun ports => ?_
  rw [List.append_assoc]
  rfl

mutual

theorem buildStmt_under (l : Library) (a : Syntax.Architecture) :
    ∀ (c : Syntax.Concurrent) {scope : Scope} {q : Path} {ordinal : Nat} {done : Progress},
    buildStmt l a scope (path ++ q) ordinal (done.under path) c =
      (buildStmt l a scope q ordinal done c).map (Progress.under path)
  | .process p, scope, q, ordinal, done => by
    refine Result.bind_map (buildProcess_under a ordinal p) fun p => ?_
    rw [Progress.under, ← Array.map_push]
    rfl
  | .instantiation i, scope, q, ordinal, done => by
    refine Result.bind_map (instantiate_under l i) fun c => ?_
    rw [Progress.under, ← Array.map_push]
    rfl
  | .generate ⟨label, var, range, decls, body, span⟩, scope, q, ordinal, done => by
    refine Result.bind_map_same fun left => ?_
    refine Result.bind_map_same fun right => ?_
    rw [foldIndices_eq_foldlM, foldIndices_eq_foldlM]
    refine Result.foldlM_map (fun done k => ?_) _ done
    rw [List.append_assoc]
    refine Result.bind_map (bindDecls_under done.signals decls) ?_
    rintro ⟨scope', signals'⟩
    show buildStmts l a scope' _ ordinal (Progress.under path { done with signals := signals' }) body = _
    exact buildStmts_under l a body

theorem buildStmts_under (l : Library) (a : Syntax.Architecture) :
    ∀ (cs : List Syntax.Concurrent) {scope : Scope} {q : Path} {ordinal : Nat} {done : Progress},
    buildStmts l a scope (path ++ q) ordinal (done.under path) cs =
      (buildStmts l a scope q ordinal done cs).map (Progress.under path)
  | [], _, _, _, _ => rfl
  | c :: cs, _, _, _, _ => Result.bind_map (buildStmt_under l a c) fun _ => buildStmts_under l a cs

end

/-! ### Instances -/

/-- The scope in which generics of these values are visible. -/
def Scope.ofGenerics (generics : List (String × Value)) : Scope :=
  generics.foldl (fun s g => s.bind g.1 (.constant g.2)) .empty

theorem bindGenerics_scope {p : Pending} {scope scope' : Scope} {gs : List Syntax.Generic}
    {given : List (Option (Value × Span))} {values : List (String × Value)}
    (h : bindGenerics p scope gs given = .ok (values, scope')) :
    scope' = values.foldl (fun s g => s.bind g.1 (.constant g.2)) scope := by
  induction gs generalizing scope given values with
  | nil => cases h; rfl
  | cons g gs ih =>
    obtain ⟨⟨v, span⟩, -, h⟩ := Result.bind_eq_ok.1 h
    dsimp only at h
    split at h
    · obtain ⟨⟨rest, scope₁⟩, hrest, h⟩ := Result.bind_eq_ok.1 h
      cases h
      have hscope := ih hrest
      exact hscope
    · cases h

/-- What a unit declares and does at a place when its generics have these values. -/
def buildAt (l : Library) (e : Syntax.Entity) (a : Syntax.Architecture)
    (generics : List (String × Value)) (path : Path) : Result Progress := do
  let (scope, signals) ← bindPorts path (.ofGenerics generics) #[] e.ports
  let (scope, signals) ← bindDecls path scope signals a.decls
  buildStmts l a scope path 0 { signals } a.body

theorem buildAt_eq_map (l : Library) (e : Syntax.Entity) (a : Syntax.Architecture)
    (generics : List (String × Value)) (path : Path) :
    buildAt l e a generics path = (buildAt l e a generics []).map (Progress.under path) := by
  unfold buildAt
  have hports := @bindPorts_under path [] (.ofGenerics generics) #[] e.ports
  rw [List.append_nil, Array.map_empty] at hports
  refine Result.bind_map hports ?_
  rintro ⟨scope, signals⟩
  have hdecls := @bindDecls_under path [] scope signals a.decls
  rw [List.append_nil] at hdecls
  refine Result.bind_map hdecls ?_
  rintro ⟨scope', signals'⟩
  have hstmts := @buildStmts_under path l a a.body scope' [] 0 { signals := signals' }
  rw [List.append_nil, Progress.under, Array.map_empty, Array.map_empty] at hstmts
  exact hstmts

theorem Pending.build_eq_buildAt {l : Library} {p : Pending} {i : Instance} {children : List Pending}
    (h : p.build l = .ok (i, children)) : ∃ done,
      buildAt l p.entity p.architecture i.generics i.path = .ok done ∧
      i.signals = done.signals ∧ i.processes = done.processes ∧ children = done.children.toList := by
  rw [build_eq] at h
  obtain ⟨⟨generics, scope₁⟩, hgenerics, h⟩ := Result.bind_eq_ok.1 h
  have hscope : scope₁ = .ofGenerics generics := bindGenerics_scope hgenerics
  subst hscope
  obtain ⟨⟨scope₂, signals₂⟩, hports, h⟩ := Result.bind_eq_ok.1 h
  obtain ⟨⟨scope₃, signals₃⟩, hdecls, h⟩ := Result.bind_eq_ok.1 h
  obtain ⟨done, hdone, h⟩ := Result.bind_eq_ok.1 h
  cases h
  exact ⟨done, Result.bind_eq_ok.2 ⟨_, hports, Result.bind_eq_ok.2 ⟨_, hdecls, hdone⟩⟩, rfl, rfl, rfl⟩

/-- What an instance is made of is what its unit with its generics is made of, put below its path. -/
theorem Pending.build_core {l : Library} {p : Pending} {i : Instance} {children : List Pending}
    (h : p.build l = .ok (i, children)) : ∃ core,
      buildAt l p.entity p.architecture i.generics [] = .ok core ∧
      i.signals = core.signals.map (·.under i.path) ∧
      i.processes = core.processes.map (·.under i.path) ∧
      children = (core.children.map (·.under i.path)).toList := by
  obtain ⟨done, hdone, hmade⟩ := build_eq_buildAt h
  rw [buildAt_eq_map] at hdone
  cases hcore : buildAt l p.entity p.architecture i.generics [] with
  | error e => rw [hcore] at hdone; cases hdone
  | ok core =>
    rw [hcore] at hdone
    cases hdone
    exact ⟨core, rfl, hmade⟩

end HdlLint.Design
