import HdlLint.Design.Build
import HdlLint.Proofs.Resolution

/-!
# Frames and ordinals

A build keeps a stack of frames and the number of the next process. Declarations only add to the innermost
frame (`bindDecls_outer`), so closing the frame of a round gives back the scope in front of the loop, and
every round starts from the same number. What statements build is therefore said without a state that
changes: in one scope and with the number of processes written before them (`buildStmts`, and
`expandStmts_eq` says that the two agree). When all of it is built, the scope is as it was and the number
has advanced by the processes written in the statements (`expandStmts_keeps`).
-/

namespace HdlLint.Design

open Syntax (Library)

/-! ### Results -/

/-- If the first step gives the same up to `f`, and from then on the others the same up to `g`, so does
their sequence. -/
theorem Result.bind_map {α α' β β' : Type} {x : Result α} {x' : Result α'} {f : α → α'} {g : β → β'}
    {k : α → Result β} {k' : α' → Result β'} (hx : x' = x.map f) (hk : ∀ a, k' (f a) = (k a).map g) :
    (x' >>= k') = (x >>= k).map g := by
  subst hx
  cases x with
  | error e => rfl
  | ok a => exact hk a

theorem Result.bind_map_same {α β β' : Type} {x : Result α} {g : β → β'} {k : α → Result β}
    {k' : α → Result β'} (hk : ∀ a, k' a = (k a).map g) : (x >>= k') = (x >>= k).map g := by
  cases x with
  | error e => rfl
  | ok a => exact hk a

theorem Result.bind_ok {α β : Type} (x : Result α) (f : α → β) : (x >>= fun a => .ok (f a)) = x.map f := by
  cases x <;> rfl

/-! ### Frames -/

namespace Scope
variable {s : Scope} {name other : String} {b : Binding}

/-- The names of all frames, from the inside out. -/
def bindings (s : Scope) : List (String × Binding) := s.inner ++ s.outer.flatten

@[simp] theorem bindings_bind : (s.bind name b).bindings = (name, b) :: s.bindings := rfl

/-- A name stands for what the first one spelled like it stands for, whichever frame that is in. -/
theorem find?_eq_lookup : s.find? name = s.bindings.lookup name := by
  have hframes : ∀ frames : List Frame,
      frames.findSome? (fun frame => frame.lookup name) = frames.flatten.lookup name := by
    intro frames
    induction frames with
    | nil => rfl
    | cons frame frames ih =>
      rw [List.findSome?_cons, List.flatten_cons, List.lookup_append, ih]
      cases frame.lookup name <;> rfl
  exact hframes (s.inner :: s.outer)

theorem find?_bind : (s.bind name b).find? other = if other == name then some b else s.find? other := by
  rw [find?_eq_lookup, find?_eq_lookup, bindings_bind, List.lookup_cons]
  cases other == name <;> rfl

@[simp] theorem outer_bind : (s.bind name b).outer = s.outer := rfl

theorem pop_eq {t : Scope} (h : t.outer = s.inner :: s.outer) : t.pop = s := by
  rw [pop, h]

end Scope

theorem bindLiterals_outer (scope : Scope) (literals : List String) :
    (bindLiterals scope literals).outer = scope.outer := by
  unfold bindLiterals
  induction literals generalizing scope with
  | nil => rfl
  | cons l ls ih => exact ih _

/-- Declarations leave the outer frames alone. -/
theorem bindDecls_outer {path : Path} {scope scope' : Scope} {signals signals' : Array Signal}
    {ds : List Syntax.Decl} (h : bindDecls path scope signals ds = .ok (scope', signals')) :
    scope'.outer = scope.outer := by
  induction ds generalizing scope signals with
  | nil => cases h; rfl
  | cons d ds ih =>
    cases d with
    | enumeration name literals span => rw [ih h, bindLiterals_outer, Scope.outer_bind]
    | constant name type value span =>
      obtain ⟨v, -, h⟩ := Result.bind_eq_ok.1 h
      rw [ih h, Scope.outer_bind]
    | signal name type init span =>
      obtain ⟨w, -, h⟩ := Result.bind_eq_ok.1 h
      rw [ih h, Scope.outer_bind]

/-! ### What statements build -/

mutual

/-- What a statement adds in a scope; `ordinal` is the number of processes written before it. -/
def buildStmt (l : Library) (a : Syntax.Architecture) (scope : Scope) (path : Path) (ordinal : Nat)
    (done : Progress) : Syntax.Concurrent → Result Progress
  | .process p => do
    let p ← buildProcess a scope path ordinal p
    return { done with processes := done.processes.push p }
  | .instantiation i => do
    let child ← instantiate l scope path i
    return { done with children := done.children.push child }
  | .generate ⟨label, var, range, decls, body, _⟩ => do
    let left ← generateBound scope label range.left
    let right ← generateBound scope label range.right
    foldIndices (fun done i => do
        let path := path ++ [.generate label i]
        let (scope, signals) ←
          bindDecls path (scope.push.bind var (.constant (.int i))) done.signals decls
        buildStmts l a scope path ordinal { done with signals } body)
      range.direction (rangeLength left range.direction right) left done

/-- What statements add, one after the other. -/
def buildStmts (l : Library) (a : Syntax.Architecture) (scope : Scope) (path : Path) (ordinal : Nat)
    (done : Progress) : List Syntax.Concurrent → Result Progress
  | [] => .ok done
  | c :: cs => do
    let done ← buildStmt l a scope path ordinal done c
    buildStmts l a scope path (ordinal + c.processCount) done cs

end

/-- A loop whose rounds give back the scope gives it back, and all rounds end with the same number. -/
theorem foldIndices_builder {scope : Scope} {k : Nat} {step : Builder → Int → Result Builder}
    {step' : Progress → Int → Result Progress} {direction : Syntax.RangeDirection}
    (hstep : ∀ done n i, step ⟨done, scope, n⟩ i = (step' done i).map (⟨·, scope, k⟩)) (n : Nat) (i : Int)
    (done : Progress) (base : Nat) :
    (foldIndices step direction n i ⟨done, scope, base⟩).map (fun b => { b with nextOrdinal := k }) =
      (foldIndices step' direction n i done).map (⟨·, scope, k⟩) := by
  induction n generalizing i done base with
  | zero => rfl
  | succ n ih =>
    rw [foldIndices, foldIndices, hstep]
    cases step' done i with
    | error e => rfl
    | ok done => exact ih _ _ _

mutual

/-- A statement leaves the scope as it was and advances the number by the processes written in it. -/
theorem expandStmt_eq {l : Library} {a : Syntax.Architecture} : ∀ (c : Syntax.Concurrent) (path : Path)
    (done : Progress) (scope : Scope) (ordinal : Nat), expandStmt l a path ⟨done, scope, ordinal⟩ c =
      (buildStmt l a scope path ordinal done c).map (⟨·, scope, ordinal + c.processCount⟩)
  | .process p, path, done, scope, ordinal => Result.bind_map_same fun _ => rfl
  | .instantiation i, path, done, scope, ordinal => Result.bind_map_same fun _ => rfl
  | .generate ⟨label, var, range, decls, body, _⟩, path, done, scope, ordinal => by
    refine Result.bind_map_same fun left => Result.bind_map_same fun right => ?_
    refine Eq.trans (Result.bind_ok _ _) (foldIndices_builder (fun done n i => ?_) _ _ _ _)
    cases hdecls : bindDecls (path ++ [.generate label i]) (scope.push.bind var (.constant (.int i)))
        done.signals decls with
    | error e => simp only [hdecls]; rfl
    | ok r =>
      obtain ⟨inner, signals⟩ := r
      -- closing the frame of a round gives back the scope in front of the loop
      have hpop : inner.pop = scope := Scope.pop_eq (bindDecls_outer hdecls)
      have hbody := expandStmts_eq (l := l) (a := a) body (path ++ [.generate label i])
        { done with signals } inner ordinal
      simp only [hdecls]
      show (expandStmts l a _ ⟨{ done with signals }, inner, ordinal⟩ body >>= fun b =>
        .ok { b with scope := b.scope.pop }) = _
      rw [hbody, Result.bind_ok]
      show _ = (buildStmts l a inner _ ordinal { done with signals } body).map _
      cases buildStmts l a inner (path ++ [.generate label i]) ordinal { done with signals } body with
      | error e => rfl
      | ok d =>
        exact congrArg (fun s => (.ok ⟨d, s, ordinal + Syntax.processCount body⟩ : Result Builder)) hpop

theorem expandStmts_eq {l : Library} {a : Syntax.Architecture} : ∀ (cs : List Syntax.Concurrent) (path : Path)
    (done : Progress) (scope : Scope) (ordinal : Nat), expandStmts l a path ⟨done, scope, ordinal⟩ cs =
      (buildStmts l a scope path ordinal done cs).map (⟨·, scope, ordinal + Syntax.processCount cs⟩)
  | [], path, done, scope, ordinal => rfl
  | c :: cs, path, done, scope, ordinal => by
    rw [expandStmts, buildStmts, Syntax.processCount, ← Nat.add_assoc]
    exact Result.bind_map (expandStmt_eq c path done scope ordinal) fun done' =>
      expandStmts_eq cs path done' scope (ordinal + c.processCount)

end

/-- When statements are built, all frames that were opened are closed again, and the next process has the
number behind those that are written in them. -/
theorem expandStmts_keeps {l : Library} {a : Syntax.Architecture} {path : Path} {b b' : Builder}
    {cs : List Syntax.Concurrent} (h : expandStmts l a path b cs = .ok b') :
    b'.scope = b.scope ∧ b'.nextOrdinal = b.nextOrdinal + Syntax.processCount cs := by
  obtain ⟨done, scope, ordinal⟩ := b
  rw [expandStmts_eq] at h
  cases hdone : buildStmts l a scope path ordinal done cs with
  | error e => rw [hdone] at h; cases h
  | ok done' =>
    rw [hdone] at h
    cases h
    exact ⟨rfl, rfl⟩

/-- An instance is built from what its statements add. -/
theorem Pending.build_eq (l : Library) (p : Pending) : p.build l = (do
    let (generics, scope) ← bindGenerics p .empty p.entity.generics p.generics
    let (scope, signals) ← bindPorts p.path scope #[] p.entity.ports
    let (scope, signals) ← bindDecls p.path scope signals p.architecture.decls
    let done ← buildStmts l p.architecture scope p.path 0 { signals } p.architecture.body
    return p.made generics done) := by
  refine bind_congr fun bound => bind_congr fun ports => bind_congr fun declared => ?_
  obtain ⟨scope, signals⟩ := declared
  show (expandStmts l p.architecture p.path ⟨{ signals }, scope, 0⟩ p.architecture.body >>= _) = _
  rw [expandStmts_eq]
  show _ = (buildStmts l p.architecture scope p.path 0 { signals } p.architecture.body >>= _)
  cases buildStmts l p.architecture scope p.path 0 { signals } p.architecture.body <;> rfl

end HdlLint.Design
