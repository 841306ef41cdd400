import Mathlib.Data.List.Basic
import HdlLint.Design.UnitGraph
import HdlLint.Proofs.Building
import HdlLint.Proofs.Resolution

/-!
# Which unit a name is bound to

A statement names an entity and at will an architecture; what it is bound to is told by the names of
the two (`Library.Binds`), wherever the statement stands. The architecture that is taken when none is
named is also the one that is found by its own name, so a unit is told by its key.

`Library.Asks` is the relation between units that both the unit graph and the hierarchy follow: the
instances that an instance asks for when it is built are those that its unit asks for
(`Pending.build_asks`).
-/

namespace HdlLint.Syntax.Library
open Design
variable {l : Library} {k k' : UnitKey} {e e' : Entity} {a a' : Architecture} {span : Span}

/-- The key stands for this entity and this architecture. -/
def Binds (l : Library) (k : UnitKey) (e : Entity) (a : Architecture) : Prop :=
  ∀ span, l.bindUnit k.entity (some k.architecture) span = .ok (e, a)

theorem Binds.unique (h : l.Binds k e a) (h' : l.Binds k e' a') : e = e' ∧ a = a' := by
  have heq := (h .nowhere).symm.trans (h' .nowhere)
  exact Prod.mk.inj (Except.ok.inj heq)

theorem name_of_entity? {name : String} (h : l.entity? name = some e) : e.name = name := by
  have := List.find?_some h
  simpa using this

theorem mem_architecturesOf {name : String} :
    a ∈ l.architecturesOf name ↔ a ∈ l.architectures ∧ a.entity = name := by
  simp [architecturesOf]

/-- The last of the architectures is the last of its name. -/
theorem find?_getLast {as : List Architecture} (h : as.getLast? = some a) :
    as.reverse.find? (·.name == a.name) = some a := by
  obtain ⟨front, rfl⟩ := List.getLast?_eq_some_iff.1 h
  simp

/-- What a statement is bound to is found again by the names of its parts. -/
theorem bindUnit_spec {entity : String} {architecture : Option String}
    (h : l.bindUnit entity architecture span = .ok (e, a)) :
    l.Binds ⟨entity, a.name⟩ e a ∧ e.name = entity ∧ a.entity = entity ∧ a ∈ l.architectures := by
  unfold bindUnit at h
  cases hentity : l.entity? entity with
  | none => rw [hentity] at h; cases h
  | some e' =>
    rw [hentity] at h
    -- however it is found, it is the last architecture of its name
    have hfound : e' = e ∧ (l.architecturesOf entity).reverse.find? (·.name == a.name) = some a := by
      cases architecture with
      | none =>
        dsimp only at h
        split at h
        · next hlast => cases h; exact ⟨rfl, find?_getLast hlast⟩
        · cases h
      | some name =>
        dsimp only at h
        split at h
        · next hfind =>
          cases h
          have hname : a.name = name := by simpa using List.find?_some hfind
          rw [hname]
          exact ⟨rfl, hfind⟩
        · cases h
    obtain ⟨rfl, hfind⟩ := hfound
    have hmem := mem_architecturesOf.1 (List.mem_reverse.1 (List.mem_of_find?_eq_some hfind))
    refine ⟨fun s => ?_, name_of_entity? hentity, hmem.2, hmem.1⟩
    simp only [bindUnit, hentity, hfind]

/-- The place that asks for a unit plays no part in finding it. -/
theorem bindUnit_eq_ok {entity : String} {architecture : Option String} {r : Entity × Architecture}
    (h : l.bindUnit entity architecture span = .ok r) (span' : Span) :
    l.bindUnit entity architecture span' = .ok r := by
  unfold bindUnit at h ⊢
  cases hentity : l.entity? entity with
  | none => rw [hentity] at h; cases h
  | some e =>
    rw [hentity] at h
    cases architecture with
    | none =>
      dsimp only at h ⊢
      split at h
      · exact h
      · cases h
    | some name =>
      dsimp only at h ⊢
      split at h
      · exact h
      · cases h

theorem Binds.spec (h : l.Binds k e a) :
    e.name = k.entity ∧ a.name = k.architecture ∧ a.entity = k.entity ∧ a ∈ l.architectures := by
  obtain ⟨hself, hentity, hof, hmem⟩ := bindUnit_spec (h .nowhere)
  refine ⟨hentity, ?_, hof, hmem⟩
  -- the architecture was looked up by this name
  have hfind := h .nowhere
  unfold bindUnit at hfind
  split at hfind
  · cases hfind
  · dsimp only at hfind
    split at hfind
    · next hfound => cases hfind; simpa using List.find?_some hfound
    · cases hfind

/-- The architecture of the unit `k` holds the statement `i`, inside or outside of generate loops,
and `i` is bound to the unit `k'`. -/
def Asks (l : Library) (k : UnitKey) (i : Instantiation) (k' : UnitKey) : Prop :=
  ∃ e a e' a', l.Binds k e a ∧ i ∈ instantiations a.body ∧
    l.bindUnit i.entity i.architecture i.span = .ok (e', a') ∧ k' = ⟨i.entity, a'.name⟩

/-- The unit `k` asks for an instance of the unit `k'`. -/
def Instantiates (l : Library) (k k' : UnitKey) : Prop := ∃ i, l.Asks k i k'

end HdlLint.Syntax.Library

namespace HdlLint.Design
open Syntax (Library)
variable {l : Library}

/-! ### Instances that are asked for -/

/-- The key of the unit that a pending instance is built from. -/
def Pending.unit (p : Pending) : UnitKey := ⟨p.entity.name, p.architecture.name⟩

/-- The key of the unit that an instance was built from. -/
def Instance.unit (i : Instance) : UnitKey := ⟨i.entity, i.architecture⟩

/-- The pending instance is built from what its key stands for. -/
def Pending.Bound (l : Library) (p : Pending) : Prop := l.Binds p.unit p.entity p.architecture

theorem Pending.bound_of_bindUnit {p : Pending} {entity : String} {architecture : Option String}
    {span : Span} (h : l.bindUnit entity architecture span = .ok (p.entity, p.architecture)) :
    p.Bound l := by
  obtain ⟨hbinds, hname, -⟩ := Library.bindUnit_spec h
  rw [Pending.Bound, Pending.unit, hname]
  exact hbinds

theorem instantiate_binds {scope : Scope} {path : Path} {i : Syntax.Instantiation} {c : Pending}
    (h : instantiate l scope path i = .ok c) :
    l.bindUnit i.entity i.architecture i.span = .ok (c.entity, c.architecture) := by
  obtain ⟨⟨e, a⟩, hbind, h⟩ := Result.bind_eq_ok.1 h
  obtain ⟨generics, -, h⟩ := Result.bind_eq_ok.1 h
  obtain ⟨ports, -, h⟩ := Result.bind_eq_ok.1 h
  cases h
  exact hbind

/-- One of the statements is bound to the unit of the pending instance. -/
def Pending.AskedBy (l : Library) (is : List Syntax.Instantiation) (c : Pending) : Prop :=
  ∃ i ∈ is, l.bindUnit i.entity i.architecture i.span = .ok (c.entity, c.architecture)

mutual

theorem buildStmt_asks {a : Syntax.Architecture} : ∀ (s : Syntax.Concurrent) {scope : Scope}
    {path : Path} {ordinal : Nat} {done done' : Progress},
    buildStmt l a scope path ordinal done s = .ok done' →
      ∀ c ∈ done'.children, c ∈ done.children ∨ c.AskedBy l s.instantiations
  | .process p, _, _, _, _, _, h => by
    obtain ⟨r, -, h⟩ := Result.bind_eq_ok.1 h
    cases h
    exact fun c hc => .inl hc
  | .instantiation i, _, _, _, _, _, h => by
    obtain ⟨child, hchild, h⟩ := Result.bind_eq_ok.1 h
    cases h
    intro c hc
    rcases Array.mem_push.1 hc with hc | rfl
    · exact .inl hc
    · exact .inr ⟨i, List.mem_singleton.2 rfl, instantiate_binds hchild⟩
  | .generate ⟨label, var, range, decls, body, _⟩, scope, path, ordinal, done, done', h => by
    obtain ⟨left, -, h⟩ := Result.bind_eq_ok.1 h
    obtain ⟨right, -, h⟩ := Result.bind_eq_ok.1 h
    rw [foldIndices_eq_foldlM] at h
    -- every round asks for what the statements of the body ask for
    refine Result.foldlM_invariant (I := fun d => ∀ c ∈ d.children, c ∈ done.children ∨
      c.AskedBy l (Syntax.instantiations body)) ?_ h fun c hc => .inl hc
    intro d i d' hround hd c hc
    obtain ⟨⟨inner, signals⟩, -, hround⟩ := Result.bind_eq_ok.1 hround
    rcases buildStmts_asks body hround c hc with hc | hc
    exacts [hd c hc, .inr hc]

theorem buildStmts_asks {a : Syntax.Architecture} : ∀ (ss : List Syntax.Concurrent) {scope : Scope}
    {path : Path} {ordinal : Nat} {done done' : Progress},
    buildStmts l a scope path ordinal done ss = .ok done' →
      ∀ c ∈ done'.children, c ∈ done.children ∨ c.AskedBy l (Syntax.instantiations ss)
  | [], _, _, _, _, _, h => by
    cases h
    exact fun c hc => .inl hc
  | s :: ss, _, _, _, _, _, h => by
    obtain ⟨d, hs, h⟩ := Result.bind_eq_ok.1 h
    intro c hc
    rw [Syntax.instantiations]
    rcases buildStmts_asks ss h c hc with hc | ⟨i, hi, hbind⟩
    · rcases buildStmt_asks s hs c hc with hc | ⟨i, hi, hbind⟩
      exacts [.inl hc, .inr ⟨i, List.mem_append_left _ hi, hbind⟩]
    · exact .inr ⟨i, List.mem_append_right _ hi, hbind⟩

end

/-- What is built is an instance of the unit, and asks for instances of the units that this one
asks for. -/
theorem Pending.build_asks {p : Pending} {i : Instance} {children : List Pending} (hp : p.Bound l)
    (h : p.build l = .ok (i, children)) :
    i.unit = p.unit ∧ ∀ c ∈ children, c.Bound l ∧ l.Instantiates p.unit c.unit := by
  rw [Pending.build_eq] at h
  obtain ⟨⟨generics, scope₁⟩, -, h⟩ := Result.bind_eq_ok.1 h
  obtain ⟨⟨scope₂, signals₂⟩, -, h⟩ := Result.bind_eq_ok.1 h
  obtain ⟨⟨scope₃, signals₃⟩, -, h⟩ := Result.bind_eq_ok.1 h
  obtain ⟨done, hdone, h⟩ := Result.bind_eq_ok.1 h
  cases h
  refine ⟨rfl, fun c hc => ?_⟩
  rcases buildStmts_asks _ hdone c (Array.mem_toList_iff.1 hc) with hc | ⟨j, hj, hbind⟩
  · simp at hc
  · obtain ⟨-, hname, -⟩ := Library.bindUnit_spec hbind
    refine ⟨bound_of_bindUnit hbind, j, p.entity, p.architecture, c.entity, c.architecture, hp, hj,
      hbind, ?_⟩
    rw [Pending.unit, hname]

end HdlLint.Design
