import Mathlib.Data.Set.Finite.List
import Mathlib.Data.String.Basic
import Mathlib.Order.WellFoundedSet
import HdlLint.Analysis
import HdlLint.Proofs.BreadthFirst
import HdlLint.Proofs.Reachability

/-!
# The units that are analysed by default

If no top unit is named, the roots of the library are: the entities of which no architecture asks for an
instance (`Library.mem_roots`). `Library.roots_cover`: where no entity asks for itself by way of others,
every entity that has an architecture is below a root. The library is finite, so the way up from an entity
to one that asks for it ends. If moreover an entity has no choice of architectures, then the way down from
the root is one in its unit graph.
-/

namespace HdlLint.Syntax
open Design (Part Enclosed)

/-! ### Statements inside of loops -/

section
variable {i : Instantiation} {xs : List Part}

mutual

theorem Concurrent.enclosed_of_mem : ∀ (c : Concurrent), i ∈ c.instantiations →
    ∀ {xs : List Part}, .stmt c ∈ xs → ∃ gs, Enclosed xs gs (.stmt (.instantiation i))
  | .process _, hi, _, _ => absurd hi List.not_mem_nil
  | .instantiation j, hi, xs, hc => by
    obtain rfl := List.mem_singleton.1 hi
    exact ⟨[], .here hc⟩
  | .generate ⟨label, var, range, decls, body, span⟩, hi, xs, hc => by
    obtain ⟨gs, hgs⟩ := enclosed_of_mem_instantiations body hi fun c hc =>
      (Design.stmt_mem_partsOf (g := ⟨label, var, range, decls, body, span⟩)).2 hc
    exact ⟨_ :: gs, .inside hc hgs⟩

theorem enclosed_of_mem_instantiations : ∀ (cs : List Concurrent), i ∈ instantiations cs →
    ∀ {xs : List Part}, (∀ c ∈ cs, .stmt c ∈ xs) → ∃ gs, Enclosed xs gs (.stmt (.instantiation i))
  | [], hi, _, _ => absurd hi List.not_mem_nil
  | c :: cs, hi, xs, hxs => by
    rcases List.mem_append.1 hi with hi | hi
    · exact c.enclosed_of_mem hi (hxs c List.mem_cons_self)
    · exact enclosed_of_mem_instantiations cs hi fun c hc => hxs c (List.mem_cons_of_mem _ hc)

end

theorem mem_instantiations_of_mem {cs : List Concurrent} {c : Concurrent} (hc : c ∈ cs)
    (hi : i ∈ c.instantiations) : i ∈ instantiations cs := by
  induction cs with
  | nil => exact absurd hc List.not_mem_nil
  | cons d ds ih =>
    rw [instantiations]
    rcases List.mem_cons.1 hc with rfl | hc
    · exact List.mem_append_left _ hi
    · exact List.mem_append_right _ (ih hc)

theorem exists_mem_of_enclosed {gs : List Generate} (h : Enclosed xs gs (.stmt (.instantiation i))) :
    ∃ c, .stmt c ∈ xs ∧ i ∈ c.instantiations := by
  generalize hx : Part.stmt (.instantiation i) = x at h
  induction h with
  | here hmem =>
    subst hx
    exact ⟨_, hmem, List.mem_singleton.2 rfl⟩
  | @inside xs x g gs hg _ ih =>
    obtain ⟨label, var, range, decls, body, span⟩ := g
    obtain ⟨c, hc, hi⟩ := ih hx
    exact ⟨_, hg, mem_instantiations_of_mem (Design.stmt_mem_partsOf.1 hc) hi⟩

/-- The instances that statements ask for are those that they ask for at any depth of loops. -/
theorem mem_instantiations {cs : List Concurrent} :
    i ∈ instantiations cs ↔ ∃ gs, Enclosed (cs.map .stmt) gs (.stmt (.instantiation i)) := by
  constructor
  · intro hi
    exact enclosed_of_mem_instantiations cs hi fun c hc => List.mem_map_of_mem hc
  · rintro ⟨gs, h⟩
    obtain ⟨c, hc, hi⟩ := exists_mem_of_enclosed h
    exact mem_instantiations_of_mem (Design.stmt_mem_stmts.1 hc) hi

end

/-! ### Roots -/

namespace Library
open Design (UnitGraph UnitKey)
open Relation (ReflTransGen TransGen)
variable {l : Library} {m n r : String}

def Declares (l : Library) (n : String) : Prop := ∃ e ∈ l.entities, e.name = n

def HasArchitecture (l : Library) (n : String) : Prop :=
  l.Declares n ∧ ∃ a ∈ l.architectures, a.entity = n

/-- An architecture of the declared entity `m` holds a statement, inside or outside of loops, that asks
for an instance of the entity `n`. -/
def Uses (l : Library) (m n : String) : Prop :=
  l.Declares m ∧ ∃ a ∈ l.architectures, a.entity = m ∧
    ∃ i gs, Enclosed (a.body.map .stmt) gs (.stmt (.instantiation i)) ∧ i.entity = n

theorem isSome_entity? : (l.entity? n).isSome = true ↔ l.Declares n := by
  simp [entity?, Declares, List.find?_isSome]

theorem mem_boundArchitectures {a : Architecture} :
    a ∈ l.boundArchitectures ↔ a ∈ l.architectures ∧ l.Declares a.entity := by
  rw [boundArchitectures, List.mem_filter, isSome_entity?]

theorem isInstantiated_iff : l.isInstantiated n = true ↔ ∃ m, l.Uses m n := by
  rw [isInstantiated, List.any_eq_true]
  constructor
  · rintro ⟨a, ha, hany⟩
    obtain ⟨i, hi, heq⟩ := List.any_eq_true.1 hany
    obtain ⟨hmem, hdeclared⟩ := mem_boundArchitectures.1 ha
    obtain ⟨gs, hgs⟩ := mem_instantiations.1 hi
    exact ⟨a.entity, hdeclared, a, hmem, rfl, i, gs, hgs, beq_iff_eq.1 heq⟩
  · rintro ⟨m, hdeclared, a, hmem, rfl, i, gs, hgs, heq⟩
    refine ⟨a, mem_boundArchitectures.2 ⟨hmem, hdeclared⟩, List.any_eq_true.2 ⟨i, ?_, beq_iff_eq.2 heq⟩⟩
    exact mem_instantiations.2 ⟨gs, hgs⟩

theorem mem_roots : n ∈ l.roots ↔ l.HasArchitecture n ∧ ∀ m, ¬ l.Uses m n := by
  have hnames : n ∈ (l.boundArchitectures.map (·.entity)).eraseDups ↔ l.HasArchitecture n := by
    rw [List.mem_eraseDups, List.mem_map]
    constructor
    · rintro ⟨a, ha, rfl⟩
      obtain ⟨hmem, hdeclared⟩ := mem_boundArchitectures.1 ha
      exact ⟨hdeclared, a, hmem, rfl⟩
    · rintro ⟨hdeclared, a, hmem, rfl⟩
      exact ⟨a, mem_boundArchitectures.2 ⟨hmem, hdeclared⟩, rfl⟩
  rw [roots, List.mem_mergeSort, List.mem_filter, hnames, Bool.not_eq_true', Bool.eq_false_iff, Ne,
    isInstantiated_iff, not_exists]

theorem pairwise_roots (l : Library) : l.roots.Pairwise (· < ·) := by
  have hsorted : l.roots.Pairwise fun a b => decide (a ≤ b) = true := by
    refine List.pairwise_mergeSort (fun a b c hab hbc => ?_) (fun a b => ?_) _
    · exact decide_eq_true (String.le_trans (of_decide_eq_true hab) (of_decide_eq_true hbc))
    · simpa using String.le_total a b
  have hnodup : l.roots.Nodup := by
    refine (List.mergeSort_perm ..).nodup_iff.2 (List.Nodup.filter _ ?_)
    exact UnitGraph.nodup_eraseDups _
  exact (hsorted.and hnodup).imp fun h => lt_of_le_of_ne (of_decide_eq_true h.1) h.2

/-! ### Ways down from the roots -/

theorem not_transGen_uses (h : ∀ e ∈ l.entities, ¬ TransGen l.Uses e.name e.name) (n : String) :
    ¬ TransGen l.Uses n n := by
  intro hway
  obtain ⟨m, ⟨⟨e, he, rfl⟩, -⟩, -⟩ := TransGen.head'_iff.1 hway
  exact h e he hway

theorem finite_hasArchitecture (l : Library) : {n | l.HasArchitecture n}.Finite := by
  refine (List.finite_toSet (l.architectures.map (·.entity))).subset ?_
  rintro n ⟨-, a, ha, rfl⟩
  exact List.mem_map_of_mem ha

/-- Where no entity asks for itself by way of others, the way up ends at a root. -/
theorem exists_root (h : ∀ e ∈ l.entities, ¬ TransGen l.Uses e.name e.name) (hn : l.HasArchitecture n) :
    ∃ r ∈ l.roots, ReflTransGen l.Uses r n := by
  have : Std.Irrefl (TransGen l.Uses) := ⟨not_transGen_uses h⟩
  have : IsStrictOrder String (TransGen l.Uses) := { }
  have hwf : {n | l.HasArchitecture n}.WellFoundedOn (TransGen l.Uses) :=
    l.finite_hasArchitecture.wellFoundedOn
  refine hwf.induction (P := fun n => ∃ r ∈ l.roots, ReflTransGen l.Uses r n) hn fun n hn ih => ?_
  by_cases huses : ∃ m, l.Uses m n
  · obtain ⟨m, hm⟩ := huses
    have hup : l.HasArchitecture m := by
      obtain ⟨hdeclared, a, ha, hentity, -⟩ := hm
      exact ⟨hdeclared, a, ha, hentity⟩
    obtain ⟨r, hr, hway⟩ := ih m hup (.single hm)
    exact ⟨r, hr, hway.tail hm⟩
  · exact ⟨n, mem_roots.2 ⟨hn, not_exists.1 huses⟩, .refl⟩

theorem eq_of_single {a a' : Architecture} (hdeclared : l.Declares n)
    (h : ∀ e ∈ l.entities, (l.architecturesOf e.name).length ≤ 1) (ha : a ∈ l.architectures)
    (hn : a.entity = n) (ha' : a' ∈ l.architectures) (hn' : a'.entity = n) : a = a' := by
  obtain ⟨e, he, rfl⟩ := hdeclared
  have hmem := mem_architecturesOf.2 ⟨ha, hn⟩
  have hmem' := mem_architecturesOf.2 ⟨ha', hn'⟩
  have hlen := h e he
  match hall : l.architecturesOf e.name, hlen with
  | [], _ => rw [hall] at hmem; exact absurd hmem List.not_mem_nil
  | [b], _ =>
    rw [hall] at hmem hmem'
    rw [List.mem_singleton.1 hmem, List.mem_singleton.1 hmem']

/-- Where no entity has a choice of architectures, the unit graph of an entity has a unit of every entity
that is reached from it. -/
theorem exists_unit {g : UnitGraph} {span : Span}
    (h : ∀ e ∈ l.entities, (l.architecturesOf e.name).length ≤ 1)
    (hbuild : UnitGraph.build l r span = .ok g) (hway : ReflTransGen l.Uses r n) :
    ∃ k ∈ g.units, k.entity = n := by
  obtain ⟨⟨e, a⟩, htop, -⟩ := Design.Result.bind_eq_ok.1 hbuild
  have hexact := UnitGraph.build_exact hbuild htop
  induction hway with
  | refl => exact ⟨_, List.mem_of_getElem? hexact.top, rfl⟩
  | tail _ huses ih =>
    obtain ⟨k, hk, rfl⟩ := ih
    obtain ⟨hdeclared, b, hb, hentity, i, gs, hgs, rfl⟩ := huses
    -- the unit of the entity has the architecture with the statement, as there is no other
    obtain ⟨e', b', hbinds⟩ := hexact.bound k hk
    obtain ⟨-, -, hof, hmem⟩ := hbinds.spec
    obtain rfl := eq_of_single hdeclared h hb hentity hmem hof
    obtain ⟨s, hs⟩ := List.getElem?_of_mem hk
    have hi := mem_instantiations.2 ⟨gs, hgs⟩
    obtain ⟨t, k', ht, ⟨_, _, _, b', _, _, _, hk'⟩, _⟩ :=
      hexact.covers s (List.getElem?_eq_some_iff.1 hs).1 k e' b hs hbinds i hi
    exact ⟨k', List.mem_of_getElem? ht, congrArg UnitKey.entity hk'⟩

theorem mem_units_of_way {g : UnitGraph} {span : Span} {a : Architecture}
    (h : ∀ e ∈ l.entities, (l.architecturesOf e.name).length ≤ 1)
    (hbuild : UnitGraph.build l r span = .ok g) (hway : ReflTransGen l.Uses r n)
    (hdeclared : l.Declares n) (ha : a ∈ l.architectures) (hn : a.entity = n) :
    ⟨n, a.name⟩ ∈ g.units := by
  obtain ⟨k, hk, rfl⟩ := exists_unit h hbuild hway
  obtain ⟨⟨e, b⟩, htop, -⟩ := Design.Result.bind_eq_ok.1 hbuild
  obtain ⟨e', a', hbinds⟩ := (UnitGraph.build_exact hbuild htop).bound k hk
  obtain ⟨-, hname, hof, hmem⟩ := hbinds.spec
  obtain rfl := eq_of_single hdeclared h ha hn hmem hof
  rwa [hname]

/-- By default the top units are, in alphabetical order, the entities with an architecture that no entity
asks for. If no entity has a choice of architectures and none asks for itself by way of others, each entity
with an architecture is reached from one of them, and so is a unit of its graph. -/
theorem roots_cover (l : Library) :
    (∀ o : Options, o.tops = [] → o.topsOf l = l.roots) ∧ l.roots.Pairwise (· < ·) ∧
    (∀ n, n ∈ l.roots ↔ l.HasArchitecture n ∧ ∀ m, ¬ l.Uses m n) ∧
    ((∀ e ∈ l.entities, (l.architecturesOf e.name).length ≤ 1) →
      (∀ e ∈ l.entities, ¬ TransGen l.Uses e.name e.name) →
      ∀ n, l.HasArchitecture n → ∃ r ∈ l.roots, ReflTransGen l.Uses r n ∧
        ∀ span g, UnitGraph.build l r span = .ok g →
          ∀ a ∈ l.architectures, a.entity = n → ⟨n, a.name⟩ ∈ g.units) := by
  refine ⟨fun o ho => ?_, l.pairwise_roots, fun n => mem_roots, fun hsingle hacyclic n hn => ?_⟩
  · rw [Options.topsOf, ho]
    rfl
  · obtain ⟨r, hr, hway⟩ := exists_root hacyclic hn
    exact ⟨r, hr, hway, fun span g hbuild a ha hentity =>
      mem_units_of_way hsingle hbuild hway hn.1 ha hentity⟩

/-- Of two entities, one of which asks for the other in a loop, one is a root. -/
theorem roots_cover_inverterPair : Design.inverterPair.roots = ["pair"] ∧
    ∃ r ∈ Design.inverterPair.roots, ReflTransGen Design.inverterPair.Uses r "inverter" ∧
      ∀ span g, UnitGraph.build Design.inverterPair r span = .ok g → ⟨"inverter", "rtl"⟩ ∈ g.units := by
  have hroots : Design.inverterPair.roots = ["pair"] := by decide +kernel
  obtain ⟨-, -, -, hcover⟩ := roots_cover Design.inverterPair
  have hsteps : ∀ a ∈ Design.inverterPair.architectures, ∀ i ∈ instantiations a.body,
      a.entity = "pair" ∧ i.entity = "inverter" := by decide +kernel
  have huses : ∀ m n, Design.inverterPair.Uses m n → m = "pair" ∧ n = "inverter" := by
    rintro m n ⟨-, a, ha, rfl, i, gs, hgs, rfl⟩
    exact hsteps a ha i (mem_instantiations.2 ⟨gs, hgs⟩)
  have hacyclic : ∀ n, ¬ TransGen Design.inverterPair.Uses n n := by
    intro n hway
    obtain ⟨m, hfirst, -⟩ := TransGen.head'_iff.1 hway
    obtain ⟨m', -, hlast⟩ := TransGen.tail'_iff.1 hway
    have hne := (huses n m hfirst).1.symm.trans (huses m' n hlast).2
    exact absurd hne (by decide)
  have hinverter : Design.inverterPair.HasArchitecture "inverter" :=
    ⟨⟨_, List.mem_cons_self, rfl⟩, _, List.mem_cons_self, rfl⟩
  obtain ⟨r, hr, hway, hgraph⟩ :=
    hcover (by decide +kernel) (fun e _ => hacyclic e.name) "inverter" hinverter
  exact ⟨hroots, r, hr, hway, fun span g hbuild => hgraph span g hbuild _ List.mem_cons_self rfl⟩

end Library

end HdlLint.Syntax
