import Mathlib.Data.List.Nodup
import HdlLint.Proofs.Relocation
import HdlLint.Proofs.Worklist

/-!
# Where instances come from

Every instance of a hierarchy was built from its unit, and every instance that it asked for is in the
hierarchy too (`elaborate_traced`). In particular a statement inside of generate loops gives one
instance for each of their rounds (`Hierarchy.HasRounds`).
-/

namespace HdlLint.Design
open Syntax (Library)

variable {l : Library}

/-! ### Instances and what they ask for -/

/-- The instance is what is built from the pending one, up to the numbers of its children. -/
def Pending.Gives (l : Library) (p : Pending) (children : List Pending) (i : Instance) : Prop :=
  ∃ i₀ ns, p.build l = .ok (i₀, children) ∧ i = { i₀ with children := ns }

theorem genericValue_askedBy {p : Pending} {m : Nat} {scope : Scope} {g : Syntax.Generic}
    {given : Option (Value × Span)} {r : Value × Span}
    (h : genericValue (p.askedBy m) scope g given = .ok r) : genericValue p scope g given = .ok r := by
  unfold genericValue at h ⊢
  cases given with
  | some v => exact h
  | none =>
    cases hdefault : g.default with
    | some e => rwa [hdefault] at h
    | none => rw [hdefault] at h; cases h

theorem bindGenerics_askedBy {p : Pending} {m : Nat} {scope : Scope} {gs : List Syntax.Generic}
    {given : List (Option (Value × Span))} {r : List (String × Value) × Scope}
    (h : bindGenerics (p.askedBy m) scope gs given = .ok r) : bindGenerics p scope gs given = .ok r := by
  induction gs generalizing scope given r with
  | nil => exact h
  | cons g gs ih =>
    obtain ⟨⟨v, span⟩, hv, h⟩ := Result.bind_eq_ok.1 h
    dsimp only at h
    split_ifs at h with htype
    obtain ⟨rest, hrest, h⟩ := Result.bind_eq_ok.1 h
    refine Result.bind_eq_ok.2 ⟨_, genericValue_askedBy hv, ?_⟩
    dsimp only
    rw [if_pos htype]
    exact Result.bind_eq_ok.2 ⟨rest, ih hrest, h⟩

/-- An instance is the same whichever one asks for it. -/
theorem Pending.Gives.of_askedBy {p : Pending} {m : Nat} {children : List Pending} {i : Instance}
    (h : (p.askedBy m).Gives l children i) : p.Gives l children i := by
  obtain ⟨i₀, ns, hbuild, rfl⟩ := h
  obtain ⟨bound, hbound, hbuild⟩ := Result.bind_eq_ok.1 hbuild
  exact ⟨i₀, ns, Result.bind_eq_ok.2 ⟨bound, bindGenerics_askedBy hbound, hbuild⟩, rfl⟩

theorem Pending.Gives.withChildren {p : Pending} {children : List Pending} {i : Instance}
    (h : p.Gives l children i) (ns : List Nat) : p.Gives l children { i with children := ns } := by
  obtain ⟨i₀, _, hbuild, rfl⟩ := h
  exact ⟨i₀, ns, hbuild, rfl⟩

/-- Whatever a built instance has asked for is waiting or built. -/
structure Worklist.Traced (l : Library) (w : Worklist) : Prop where
  bound : ∀ p ∈ w.queue, p.Bound l
  built : ∀ i ∈ w.built, ∃ (p : Pending) (children : List Pending), p.Bound l ∧ p.Gives l children i ∧
    ∀ c ∈ children, (∃ m, c.askedBy m ∈ w.queue) ∨ ∃ j ∈ w.built, ∃ cs, c.Gives l cs j

/-- Whatever an instance is built from, it is one of those that are built once it is attached. -/
theorem Worklist.exists_gives_attach {built : List Instance} (parent : Option Nat) {i j : Instance}
    {p : Pending} {children : List Pending} (hj : j ∈ built ++ [i]) (h : p.Gives l children j) :
    ∃ j' ∈ attach built parent i, p.Gives l children j' := by
  obtain ⟨m, hm⟩ := List.getElem?_of_mem hj
  obtain ⟨ns, hns⟩ := exists_attach_getElem? parent hm
  exact ⟨_, List.mem_of_getElem? hns, h.withChildren ns⟩

theorem Worklist.Traced.step {w w' : Worklist} (hw : w.Traced l) (hstep : Worklist.Step l w w') :
    w'.Traced l := by
  cases hstep with
  | @build built p queue children i hbuild =>
    have hp : p.Bound l := hw.bound p List.mem_cons_self
    have hgives : p.Gives l children i := ⟨i, i.children, hbuild, rfl⟩
    have hnew : i ∈ built ++ [i] := List.mem_append_right _ (List.mem_singleton.2 rfl)
    refine ⟨List.forall_mem_append.2 ⟨fun q hq => ?_, List.forall_mem_map.2 fun c hc => ?_⟩, fun j hj => ?_⟩
    · exact hw.bound q (List.mem_cons_of_mem _ hq)
    · exact ((Pending.build_asks hp hbuild).2 c hc).1
    · obtain ⟨m, hm⟩ := List.getElem?_of_mem hj
      obtain ⟨j₀, ns, hj₀, rfl⟩ := attach_getElem? hm
      rcases List.mem_append.1 (List.mem_of_getElem? hj₀) with hold | hlast
      · obtain ⟨q, cs, hq, hgives', hcs⟩ := hw.built j₀ hold
        refine ⟨q, cs, hq, hgives'.withChildren ns, fun c hc => ?_⟩
        rcases hcs c hc with ⟨k, hc⟩ | ⟨j', hj', _, hc⟩
        · -- it was waiting, and perhaps it is the one that is built now
          rcases List.mem_cons.1 hc with rfl | hc
          · obtain ⟨j', hj', hgives⟩ := exists_gives_attach (c.askedBy k).parent hnew hgives
            exact .inr ⟨j', hj', children, hgives.of_askedBy⟩
          · exact .inl ⟨k, List.mem_append_left _ hc⟩
        · obtain ⟨j'', hj'', hgives⟩ := exists_gives_attach p.parent (List.mem_append_left [i] hj') hc
          exact .inr ⟨j'', hj'', _, hgives⟩
      · obtain rfl := List.mem_singleton.1 hlast
        refine ⟨p, children, hp, hgives.withChildren ns, fun c hc => .inl ⟨built.length, ?_⟩⟩
        exact List.mem_append_right _ (List.mem_map_of_mem hc)

/-- Every instance was built from its unit, and whatever it asked for is there. -/
def Hierarchy.Traced (l : Library) (d : Hierarchy) : Prop :=
  ∀ i ∈ d.instances, ∃ (p : Pending) (children : List Pending), p.Bound l ∧ p.Gives l children i ∧
    ∀ c ∈ children, ∃ j ∈ d.instances, ∃ cs, c.Gives l cs j

theorem elaborate_traced {name : String} {overrides : Overrides} {d : Hierarchy}
    (h : elaborate l name overrides = .ok d) : d.Traced l := by
  have htraced : Worklist.Traced l ⟨d.instances, []⟩ := by
    refine Worklist.holds_of_elaborate (fun p hp _ _ => ?_) (fun _ _ hw => hw.step) h
    exact ⟨List.forall_mem_singleton.2 hp, fun i hi => absurd hi List.not_mem_nil⟩
  intro i hi
  obtain ⟨p, children, hp, hgives, hchildren⟩ := htraced.built i hi
  refine ⟨p, children, hp, hgives, fun c hc => ?_⟩
  exact (hchildren c hc).resolve_left fun ⟨_, hm⟩ => List.not_mem_nil hm

theorem Pending.path_of_build {p : Pending} {i : Instance} {children : List Pending}
    (h : p.build l = .ok (i, children)) : i.path = p.path := by
  rw [build_eq] at h
  obtain ⟨_, -, h⟩ := Result.bind_eq_ok.1 h
  obtain ⟨_, -, h⟩ := Result.bind_eq_ok.1 h
  obtain ⟨_, -, h⟩ := Result.bind_eq_ok.1 h
  obtain ⟨_, -, h⟩ := Result.bind_eq_ok.1 h
  cases h
  rfl

/-! ### What was asked for stays -/

section
variable {a : Syntax.Architecture} {scope : Scope} {path : Path} {done done' : Progress}

/-- What was asked for before is still asked for. -/
def Progress.Keeps (done done' : Progress) : Prop := ∀ c ∈ done.children, c ∈ done'.children

theorem Progress.Keeps.trans {done'' : Progress} (h : done.Keeps done') (h' : done'.Keeps done'') :
    done.Keeps done'' := fun c hc => h' c (h c hc)

theorem Result.foldlM_keeps {α : Type} {step : Progress → α → Result Progress}
    (hstep : ∀ d x d', step d x = .ok d' → d.Keeps d') {xs : List α}
    (h : xs.foldlM step done = .ok done') : done.Keeps done' :=
  Result.foldlM_invariant (I := done.Keeps) (fun d x d' hx hd => hd.trans (hstep d x d' hx)) h
    fun _ hc => hc

/-- Every step of a sequence is made, and what it asks for is kept. -/
theorem Result.foldlM_mem {α : Type} {step : Progress → α → Result Progress}
    (hstep : ∀ d x d', step d x = .ok d' → d.Keeps d') {xs : List α} {x : α} (hx : x ∈ xs)
    (h : xs.foldlM step done = .ok done') : ∃ d d', step d x = .ok d' ∧ d'.Keeps done' := by
  induction xs generalizing done with
  | nil => exact absurd hx List.not_mem_nil
  | cons y ys ih =>
    rw [List.foldlM_cons] at h
    obtain ⟨d, hd, hrest⟩ := Result.bind_eq_ok.1 h
    rcases List.mem_cons.1 hx with rfl | hx
    · exact ⟨done, d, hd, Result.foldlM_keeps hstep hrest⟩
    · exact ih hx hrest

mutual

theorem buildStmt_keeps : ∀ (c : Syntax.Concurrent) {scope : Scope} {path : Path} {ordinal : Nat}
    {done done' : Progress}, buildStmt l a scope path ordinal done c = .ok done' → done.Keeps done'
  | .process _, _, _, _, _, _, h => by
    obtain ⟨_, -, h⟩ := Result.bind_eq_ok.1 h
    cases h
    exact fun _ hc => hc
  | .instantiation _, _, _, _, _, _, h => by
    obtain ⟨_, -, h⟩ := Result.bind_eq_ok.1 h
    cases h
    exact fun _ hc => Array.mem_push_of_mem _ hc
  | .generate ⟨_, _, _, _, body, _⟩, _, _, _, _, _, h => by
    obtain ⟨left, -, h⟩ := Result.bind_eq_ok.1 h
    obtain ⟨right, -, h⟩ := Result.bind_eq_ok.1 h
    rw [foldIndices_eq_foldlM] at h
    refine Result.foldlM_keeps (fun d k d' hround => ?_) h
    obtain ⟨⟨scope', signals⟩, -, hround⟩ := Result.bind_eq_ok.1 hround
    have hkeeps := buildStmts_keeps body hround
    exact hkeeps

theorem buildStmts_keeps : ∀ (cs : List Syntax.Concurrent) {scope : Scope} {path : Path} {ordinal : Nat}
    {done done' : Progress}, buildStmts l a scope path ordinal done cs = .ok done' → done.Keeps done'
  | [], _, _, _, _, _, h => by
    cases h
    exact fun _ hc => hc
  | c :: cs, _, _, _, _, _, h => by
    obtain ⟨_, hc, h⟩ := Result.bind_eq_ok.1 h
    exact (buildStmt_keeps c hc).trans (buildStmts_keeps cs h)

end

theorem path_of_instantiate {s : Syntax.Instantiation} {c : Pending}
    (h : instantiate l scope path s = .ok c) : c.path = path ++ [.inst s.label] := by
  obtain ⟨_, -, h⟩ := Result.bind_eq_ok.1 h
  obtain ⟨_, -, h⟩ := Result.bind_eq_ok.1 h
  obtain ⟨_, -, h⟩ := Result.bind_eq_ok.1 h
  cases h
  rfl

end

/-! ### Rounds of loops -/

/-- All indices of a range lie on one side of the first one. -/
theorem side_of_mem_indicesFrom {direction : Syntax.RangeDirection} {n : Nat} {i k : Int}
    (hk : k ∈ indicesFrom direction n i) :
    (direction = .to ∧ i ≤ k) ∨ (direction = .downto ∧ k ≤ i) := by
  induction n generalizing i with
  | zero => exact absurd hk List.not_mem_nil
  | succ n ih =>
    rcases List.mem_cons.1 hk with rfl | hk
    · cases direction
      · exact .inl ⟨rfl, Int.le_refl k⟩
      · exact .inr ⟨rfl, Int.le_refl k⟩
    · rcases ih hk with ⟨rfl, hle⟩ | ⟨rfl, hle⟩
      · exact .inl ⟨rfl, by simp only [nextIndex] at hle; omega⟩
      · exact .inr ⟨rfl, by simp only [nextIndex] at hle; omega⟩

theorem nodup_indicesFrom (direction : Syntax.RangeDirection) (n : Nat) (i : Int) :
    (indicesFrom direction n i).Nodup := by
  induction n generalizing i with
  | zero => exact List.nodup_nil
  | succ n ih =>
    refine List.nodup_cons.2 ⟨fun hi => ?_, ih _⟩
    rcases side_of_mem_indicesFrom hi with ⟨rfl, hle⟩ | ⟨rfl, hle⟩
    all_goals
      simp only [nextIndex] at hle
      omega

/-- The indices of the rounds of a loop in a scope. -/
def Rounds (scope : Scope) (label : String) (range : Syntax.Range) (ks : List Int) : Prop :=
  ∃ left right, generateBound scope label range.left = .ok left ∧
    generateBound scope label range.right = .ok right ∧ ks = indices left range.direction right

theorem Rounds.nodup {scope : Scope} {label : String} {range : Syntax.Range} {ks : List Int}
    (h : Rounds scope label range ks) : ks.Nodup := by
  obtain ⟨left, right, -, -, rfl⟩ := h
  exact nodup_indicesFrom _ _ _

/-- The names `scope'` are in sight of the statements of a loop in the round `k`. -/
def RoundScope (scope : Scope) (var : String) (decls : List Syntax.Decl) (k : Int) (scope' : Scope) :
    Prop :=
  ∃ path signals signals',
    bindDecls path (scope.push.bind var (.constant (.int k))) signals decls = .ok (scope', signals')

mutual

/-- With its loops unrolled, each instance that the statement asks for is one of those in `there`,
which are told by their path and the statement that asks for them. -/
def StmtUnrolled (there : Path → Syntax.Instantiation → Prop) (scope : Scope) (path : Path) :
    Syntax.Concurrent → Prop
  | .process _ => True
  | .instantiation s => there (path ++ [.inst s.label]) s
  | .generate ⟨label, var, range, decls, body, _⟩ =>
    ∃ ks, Rounds scope label range ks ∧ ks.Nodup ∧ ∀ k ∈ ks, ∃ scope',
      RoundScope scope var decls k scope' ∧ Unrolled there scope' (path ++ [.generate label k]) body

def Unrolled (there : Path → Syntax.Instantiation → Prop) (scope : Scope) (path : Path) :
    List Syntax.Concurrent → Prop
  | [] => True
  | c :: cs => StmtUnrolled there scope path c ∧ Unrolled there scope path cs

end

/-- The instances that have been asked for are in `there`. -/
def Progress.AllThere (l : Library) (there : Path → Syntax.Instantiation → Prop) (done : Progress) :
    Prop :=
  ∀ c ∈ done.children, ∀ s : Syntax.Instantiation,
    l.bindUnit s.entity s.architecture s.span = .ok (c.entity, c.architecture) → there c.path s

section
variable {a : Syntax.Architecture} {there : Path → Syntax.Instantiation → Prop}

mutual

theorem buildStmt_unrolled : ∀ (c : Syntax.Concurrent) {scope : Scope} {path : Path} {ordinal : Nat}
    {done done' : Progress}, buildStmt l a scope path ordinal done c = .ok done' →
    done'.AllThere l there → StmtUnrolled there scope path c
  | .process _, _, _, _, _, _, _, _ => trivial
  | .instantiation s, _, path, _, _, _, h, hthere => by
    obtain ⟨c, hc, h⟩ := Result.bind_eq_ok.1 h
    cases h
    have hpath := hthere c Array.mem_push_self s (instantiate_binds hc)
    rwa [path_of_instantiate hc] at hpath
  | .generate ⟨label, var, range, decls, body, _⟩, scope, path, _, _, _, h, hthere => by
    obtain ⟨left, hleft, h⟩ := Result.bind_eq_ok.1 h
    obtain ⟨right, hright, h⟩ := Result.bind_eq_ok.1 h
    rw [foldIndices_eq_foldlM] at h
    have hrounds : Rounds scope label range (indices left range.direction right) :=
      ⟨left, right, hleft, hright, rfl⟩
    refine ⟨_, hrounds, hrounds.nodup, fun k hk => ?_⟩
    obtain ⟨d, d', hround, hkeeps⟩ := Result.foldlM_mem (fun d k d' hround => by
      obtain ⟨⟨scope', signals⟩, -, hround⟩ := Result.bind_eq_ok.1 hround
      have hkeeps := buildStmts_keeps body hround
      exact hkeeps) hk h
    obtain ⟨⟨scope', signals⟩, hscope, hround⟩ := Result.bind_eq_ok.1 hround
    refine ⟨scope', ⟨_, _, _, hscope⟩, buildStmts_unrolled body hround fun c hc => ?_⟩
    exact hthere c (hkeeps c hc)

theorem buildStmts_unrolled : ∀ (cs : List Syntax.Concurrent) {scope : Scope} {path : Path}
    {ordinal : Nat} {done done' : Progress}, buildStmts l a scope path ordinal done cs = .ok done' →
    done'.AllThere l there → Unrolled there scope path cs
  | [], _, _, _, _, _, _, _ => trivial
  | c :: cs, _, _, _, _, _, h, hthere => by
    obtain ⟨d, hd, h⟩ := Result.bind_eq_ok.1 h
    have hkeeps := buildStmts_keeps cs h
    exact ⟨buildStmt_unrolled c hd fun c hc => hthere c (hkeeps c hc), buildStmts_unrolled cs h hthere⟩

end

end

/-- The names that are in sight of the statements of an architecture. -/
def bodyScope (e : Syntax.Entity) (a : Syntax.Architecture) (generics : List (String × Value)) :
    Result Scope := do
  let (scope, signals) ← bindPorts [] (.ofGenerics generics) #[] e.ports
  let (scope, _) ← bindDecls [] scope signals a.decls
  return scope

/-- The instance that the statement `s` asks for is in the hierarchy, at `path` below `i`. -/
def Hierarchy.HasBelow (l : Library) (d : Hierarchy) (i : Instance) (path : Path)
    (s : Syntax.Instantiation) : Prop :=
  ∃ j ∈ d.instances, j.path = i.path ++ path ∧
    ∃ e a, l.bindUnit s.entity s.architecture s.span = .ok (e, a) ∧ j.unit = ⟨s.entity, a.name⟩

/-- In each round of each loop of an architecture in the hierarchy, at any depth, each statement that
asks for an instance has got it. -/
def Hierarchy.HasRounds (l : Library) (d : Hierarchy) : Prop :=
  ∀ i ∈ d.instances, ∀ e a, l.Binds i.unit e a →
    ∃ scope, bodyScope e a i.generics = .ok scope ∧ Unrolled (d.HasBelow l i) scope [] a.body

theorem Hierarchy.Traced.hasRounds {d : Hierarchy} (h : d.Traced l) : d.HasRounds l := by
  intro i hi e a ha
  obtain ⟨p, children, hp, ⟨i₀, ns, hbuild, rfl⟩, hchildren⟩ := h i hi
  obtain ⟨hunit, -⟩ := Pending.build_asks hp hbuild
  have hbinds : l.Binds i₀.unit e a := ha
  rw [hunit] at hbinds
  obtain ⟨rfl, rfl⟩ := hp.unique hbinds
  obtain ⟨core, hcore, -, -, rfl⟩ := Pending.build_core hbuild
  obtain ⟨⟨scope₁, signals₁⟩, hports, hcore⟩ := Result.bind_eq_ok.1 hcore
  obtain ⟨⟨scope₂, signals₂⟩, hdecls, hcore⟩ := Result.bind_eq_ok.1 hcore
  refine ⟨scope₂, Result.bind_eq_ok.2 ⟨_, hports, Result.bind_eq_ok.2 ⟨_, hdecls, rfl⟩⟩,
    buildStmts_unrolled _ hcore fun c hc s hbind => ?_⟩
  have hmem : c.under i₀.path ∈ (core.children.map (·.under i₀.path)).toList :=
    Array.mem_toList_iff.2 (Array.mem_map_of_mem hc)
  obtain ⟨j, hj, cs, j₀, ns', hbuild', rfl⟩ := hchildren _ hmem
  have hbound : (c.under i₀.path).Bound l := Pending.bound_of_bindUnit hbind
  have hunit' : j₀.unit = c.unit := (Pending.build_asks hbound hbuild').1
  refine ⟨_, hj, Pending.path_of_build hbuild', c.entity, c.architecture, hbind, hunit'.trans ?_⟩
  rw [Pending.unit, (Library.bindUnit_spec hbind).2.1]

end HdlLint.Design
