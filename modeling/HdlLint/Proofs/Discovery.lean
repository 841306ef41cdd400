import Mathlib.Data.List.Nodup
import Mathlib.Data.List.Perm.Subperm
import Mathlib.Logic.Relation
import HdlLint.Proofs.Binding

/-!
# The unit graph holds what is reached from the top unit

`UnitGraph.build_exact`: the units of a graph are distinct, bound and reached from the first of them;
its edges are statements of these units, and every statement of every unit has its edge. So the graph
and the library agree on which unit asks for which (`Exact.instantiates_iff`), step by step and hence
along ways of any length (`Exact.transGen_iff`).

Exploring keeps that the graph is `Sound`, and once it has come past a unit the graph `Covers` it.
Distinct units have distinct architectures, so the rounds that are allowed for suffice to come past
all units.
-/

namespace HdlLint.Design.UnitGraph
open Syntax (Library instantiations)
open Relation (ReflTransGen TransGen)

variable {l : Library} {top k k' : UnitKey} {g g' g'' : UnitGraph} {s t : Nat}

/-! ### Entering one instance -/

/-- Units keep their places and edges stay. -/
structure Extends (g g' : UnitGraph) : Prop where
  units : g.units <+: g'.units
  edges : g.edges ⊆ g'.edges

theorem Extends.refl (g : UnitGraph) : g.Extends g := ⟨List.prefix_refl _, fun _ h => h⟩

theorem Extends.trans (h : g.Extends g') (h' : g'.Extends g'') : g.Extends g'' :=
  ⟨h.units.trans h'.units, fun _ he => h'.edges (h.edges he)⟩

theorem Extends.unit (h : g.Extends g') (hs : g.units[s]? = some k) : g'.units[s]? = some k := by
  obtain ⟨more, hmore⟩ := h.units
  rw [← hmore, List.getElem?_append_left (List.getElem?_eq_some_iff.1 hs).1, hs]

theorem place_spec (h : g.place k = (t, g')) :
    g.Extends g' ∧ g'.edges = g.edges ∧ g'.units[t]? = some k ∧
      (g'.units = g.units ∨ k ∉ g.units ∧ g'.units = g.units ++ [k]) := by
  unfold place at h
  cases hfind : g.units.findIdx? (· == k) with
  | some i =>
    rw [hfind] at h
    obtain ⟨rfl, rfl⟩ := Prod.mk.inj h
    obtain ⟨hi, heq, -⟩ := List.findIdx?_eq_some_iff_getElem.1 hfind
    refine ⟨.refl _, rfl, ?_, .inl rfl⟩
    rw [List.getElem?_eq_getElem hi, beq_iff_eq.1 heq]
  | none =>
    rw [hfind] at h
    obtain ⟨rfl, rfl⟩ := Prod.mk.inj h
    have hnew : k ∉ g.units := by
      intro hk
      simpa using List.findIdx?_eq_none_iff.1 hfind k hk
    exact ⟨⟨List.prefix_append _ _, fun _ h => h⟩, rfl, by simp, .inr ⟨hnew, rfl⟩⟩

/-- What holds of a graph while it is explored: the units are distinct, bound and reached from `top`,
and the edges are statements of the units. -/
structure Sound (l : Library) (top : UnitKey) (g : UnitGraph) : Prop where
  nodup : g.units.Nodup
  bound : ∀ k ∈ g.units, ∃ e a, l.Binds k e a
  reached : ∀ k ∈ g.units, ReflTransGen l.Instantiates top k
  edge : ∀ e ∈ g.edges, ∃ k i k', g.units[e.source]? = some k ∧ g.units[e.target]? = some k' ∧
    l.Asks k i k' ∧ e.span = i.span

/-- The statement `i` of the unit at `s` is bound, and has its edge. -/
def HasEdge (l : Library) (g : UnitGraph) (s : Nat) (k : UnitKey) (i : Syntax.Instantiation) : Prop :=
  ∃ t k', g.units[t]? = some k' ∧ l.Asks k i k' ∧ ⟨s, t, i.span⟩ ∈ g.edges

theorem HasEdge.mono {i : Syntax.Instantiation} (h : HasEdge l g s k i) (hext : g.Extends g') :
    HasEdge l g' s k i := by
  obtain ⟨t, k', ht, hasks, he⟩ := h
  exact ⟨t, k', hext.unit ht, hasks, hext.edges he⟩

theorem addInstance_spec {i : Syntax.Instantiation} {e : Syntax.Entity} {a : Syntax.Architecture}
    (h : addInstance l s g i = .ok g') (hg : Sound l top g) (hs : g.units[s]? = some k)
    (hk : l.Binds k e a) (hi : i ∈ instantiations a.body) :
    Sound l top g' ∧ g.Extends g' ∧ HasEdge l g' s k i := by
  obtain ⟨⟨e', a'⟩, hbind, h⟩ := Result.bind_eq_ok.1 h
  have hasks : l.Asks k i ⟨i.entity, a'.name⟩ := ⟨e, a, e', a', hk, hi, hbind, rfl⟩
  dsimp only at h
  cases hplace : g.place ⟨i.entity, a'.name⟩ with | mk t g₁ => ?_
  rw [hplace] at h
  obtain rfl := Except.ok.inj h
  obtain ⟨hext, hedges, htarget, hunits⟩ := place_spec hplace
  -- a unit of the new graph is one of the old graph or the one that is asked for
  have hunit : ∀ x ∈ g₁.units, x ∈ g.units ∨ x = ⟨i.entity, a'.name⟩ := by
    intro x hx
    rcases hunits with heq | ⟨-, heq⟩
    · rw [heq] at hx
      exact .inl hx
    · rw [heq] at hx
      simpa using hx
  refine ⟨⟨?_, fun x hx => ?_, fun x hx => ?_, fun x hx => ?_⟩, ⟨hext.units, fun x hx => ?_⟩, ?_⟩
  · change g₁.units.Nodup
    rcases hunits with heq | ⟨hnew, heq⟩
    · rw [heq]
      exact hg.nodup
    · rw [heq, ← List.concat_eq_append]
      exact hg.nodup.concat hnew
  · rcases hunit x hx with hx | rfl
    · exact hg.bound x hx
    · exact ⟨e', a', (Library.bindUnit_spec hbind).1⟩
  · rcases hunit x hx with hx | rfl
    · exact hg.reached x hx
    · exact (hg.reached k (List.mem_of_getElem? hs)).tail ⟨i, hasks⟩
  · rcases List.mem_append.1 hx with hx | hx
    · rw [hedges] at hx
      obtain ⟨k₁, i₁, k₂, hsource, htarget₁, hasks₁, hspan⟩ := hg.edge x hx
      exact ⟨k₁, i₁, k₂, hext.unit hsource, hext.unit htarget₁, hasks₁, hspan⟩
    · obtain rfl := List.mem_singleton.1 hx
      exact ⟨k, i, _, hext.unit hs, htarget, hasks, rfl⟩
  · exact List.mem_append_left _ (hext.edges hx)
  · exact ⟨t, _, htarget, hasks, by simp⟩

/-! ### Exploring -/

/-- All statements of the unit at `s` have their edges. -/
def Covers (l : Library) (g : UnitGraph) (s : Nat) : Prop :=
  ∀ k e a, g.units[s]? = some k → l.Binds k e a → ∀ i ∈ instantiations a.body, HasEdge l g s k i

theorem Covers.mono (h : Covers l g s) (hext : g.Extends g') (hs : s < g.units.length) :
    Covers l g' s := by
  intro k e a hk hbinds i hi
  have hk' := hext.unit (List.getElem?_eq_getElem hs)
  have heq : g.units.get ⟨s, hs⟩ = k := Option.some.inj (hk'.symm.trans hk)
  exact (h k e a (by rw [← heq, List.getElem?_eq_getElem hs]; rfl) hbinds i hi).mono hext

theorem foldlM_addInstance {is : List Syntax.Instantiation} {e : Syntax.Entity}
    {a : Syntax.Architecture} (h : is.foldlM (addInstance l s) g = .ok g') (hg : Sound l top g)
    (hs : g.units[s]? = some k) (hk : l.Binds k e a) (his : ∀ i ∈ is, i ∈ instantiations a.body) :
    Sound l top g' ∧ g.Extends g' ∧ ∀ i ∈ is, HasEdge l g' s k i := by
  induction is generalizing g with
  | nil => cases h; exact ⟨hg, .refl _, by simp⟩
  | cons i is ih =>
    rw [List.foldlM_cons] at h
    obtain ⟨g₁, hadd, h⟩ := Result.bind_eq_ok.1 h
    obtain ⟨hg₁, hext₁, hedge⟩ := addInstance_spec hadd hg hs hk (his i (by simp))
    obtain ⟨hg', hext', hedges⟩ := ih h hg₁ (hext₁.unit hs) fun j hj => his j (by simp [hj])
    refine ⟨hg', hext₁.trans hext', fun j hj => ?_⟩
    rcases List.mem_cons.1 hj with rfl | hj
    exacts [hedge.mono hext', hedges j hj]

/-- A unit is told by its architecture. -/
theorem Sound.length_le (h : Sound l top g) : g.units.length ≤ l.architectures.length := by
  have hsub : g.units ⊆ l.architectures.map fun a => ⟨a.entity, a.name⟩ := by
    intro k hk
    obtain ⟨e, a, hbinds⟩ := h.bound k hk
    obtain ⟨-, hname, hof, hmem⟩ := hbinds.spec
    exact List.mem_map.2 ⟨a, hmem, by rw [hname, hof]⟩
  simpa using (h.nodup.subperm hsub).length_le

/-- Exploring starts with the units before `next` covered, and ends with all of them covered. -/
theorem explore_spec {span : Span} {n next : Nat} (h : explore l span n next g = .ok g')
    (hg : Sound l top g) (hcovers : ∀ s < next, Covers l g s) (hnext : next ≤ g.units.length)
    (hfuel : l.architectures.length ≤ next + n) :
    Sound l top g' ∧ g.Extends g' ∧ ∀ s < g'.units.length, Covers l g' s := by
  induction n generalizing next g with
  | zero =>
    cases h
    have hlen := hg.length_le
    exact ⟨hg, .refl _, fun s hs => hcovers s (by omega)⟩
  | succ n ih =>
    rw [explore] at h
    cases hunit : g.units[next]? with
    | none =>
      rw [hunit] at h
      cases h
      have hlen := List.getElem?_eq_none_iff.1 hunit
      exact ⟨hg, .refl _, fun s hs => hcovers s (by omega)⟩
    | some k =>
      rw [hunit] at h
      obtain ⟨⟨e, a⟩, hbind, h⟩ := Result.bind_eq_ok.1 h
      obtain ⟨g₁, hfold, h⟩ := Result.bind_eq_ok.1 h
      have hlt := (List.getElem?_eq_some_iff.1 hunit).1
      obtain ⟨e', a', hbinds⟩ := hg.bound k (List.mem_of_getElem? hunit)
      obtain ⟨rfl, rfl⟩ := Prod.mk.inj (Except.ok.inj (hbind.symm.trans (hbinds span)))
      obtain ⟨hg₁, hext₁, hedges⟩ := foldlM_addInstance hfold hg hunit hbinds fun i hi => hi
      have hlen₁ := hext₁.units.length_le
      have hcovers₁ : ∀ s < next + 1, Covers l g₁ s := by
        intro s hs
        rcases Nat.lt_succ_iff_lt_or_eq.1 hs with hs | rfl
        · exact (hcovers s hs).mono hext₁ (by omega)
        · intro k' e' a' hk' hbinds' i hi
          obtain rfl := Option.some.inj ((hext₁.unit hunit).symm.trans hk')
          obtain ⟨rfl, rfl⟩ := hbinds.unique hbinds'
          exact hedges i hi
      obtain ⟨hg', hext', hall⟩ := ih h hg₁ hcovers₁ (by omega) (by omega)
      exact ⟨hg', hext₁.trans hext', hall⟩

/-! ### The whole graph -/

/-- The graph of the units that are reached from `top`. -/
structure Exact (l : Library) (top : UnitKey) (g : UnitGraph) : Prop extends Sound l top g where
  top : g.units[0]? = some top
  covers : ∀ s < g.units.length, Covers l g s

theorem build_exact {name : String} {span : Span} {e : Syntax.Entity} {a : Syntax.Architecture}
    (h : build l name span = .ok g) (htop : l.bindUnit name none span = .ok (e, a)) :
    Exact l ⟨name, a.name⟩ g := by
  obtain ⟨⟨e', a'⟩, hbind, h⟩ := Result.bind_eq_ok.1 h
  obtain ⟨rfl, rfl⟩ := Prod.mk.inj (Except.ok.inj (hbind.symm.trans htop))
  have hstart : Sound l ⟨name, a'.name⟩ ⟨[⟨name, a'.name⟩], []⟩ := by
    refine ⟨List.nodup_singleton _, fun k hk => ?_, fun k hk => ?_, by simp⟩
    · obtain rfl := List.mem_singleton.1 hk
      exact ⟨e', a', (Library.bindUnit_spec htop).1⟩
    · rw [List.mem_singleton.1 hk]
  obtain ⟨hsound, hext, hcovers⟩ := explore_spec h hstart (by simp) (by simp) (by omega)
  exact ⟨hsound, hext.unit rfl, hcovers⟩

/-- The unit at `s` asks for the one at `t`. -/
def Follows (g : UnitGraph) (s t : Nat) : Prop := t ∈ g.successors s

theorem follows_iff : g.Follows s t ↔ ∃ e ∈ g.edges, e.source = s ∧ e.target = t := by
  simp [Follows, successors, edgesOf, and_assoc]

namespace Exact

theorem unit_inj (h : Exact l top g) (hs : g.units[s]? = some k) (ht : g.units[t]? = some k) :
    s = t :=
  (List.getElem?_inj (List.getElem?_eq_some_iff.1 hs).1 h.nodup).1 (hs.trans ht.symm)

/-- The graph and the library agree on which unit asks for which. -/
theorem instantiates_iff (h : Exact l top g) (hs : g.units[s]? = some k) :
    l.Instantiates k k' ↔ ∃ t, g.units[t]? = some k' ∧ g.Follows s t := by
  constructor
  · rintro ⟨i, e, a, e', a', hk, hi, hbind, rfl⟩
    have hlt := (List.getElem?_eq_some_iff.1 hs).1
    obtain ⟨t, k', ht, ⟨-, -, e₂, a₂, -, -, hbind', rfl⟩, hedge⟩ := h.covers s hlt k e a hs hk i hi
    obtain ⟨rfl, rfl⟩ := Prod.mk.inj (Except.ok.inj (hbind.symm.trans hbind'))
    exact ⟨t, ht, follows_iff.2 ⟨_, hedge, rfl, rfl⟩⟩
  · rintro ⟨t, ht, hfollows⟩
    obtain ⟨e, he, rfl, rfl⟩ := follows_iff.1 hfollows
    obtain ⟨k₁, i, k₂, hsource, htarget, hasks, -⟩ := h.edge e he
    obtain rfl := Option.some.inj (hs.symm.trans hsource)
    obtain rfl := Option.some.inj (ht.symm.trans htarget)
    exact ⟨i, hasks⟩

theorem transGen_iff (h : Exact l top g) (hs : g.units[s]? = some k) :
    TransGen l.Instantiates k k' ↔ ∃ t, g.units[t]? = some k' ∧ TransGen g.Follows s t := by
  constructor
  · intro hk
    induction hk with
    | single hstep =>
      obtain ⟨t, ht, hfollows⟩ := (h.instantiates_iff hs).1 hstep
      exact ⟨t, ht, .single hfollows⟩
    | tail _ hstep ih =>
      obtain ⟨t, ht, hway⟩ := ih
      obtain ⟨t', ht', hfollows⟩ := (h.instantiates_iff ht).1 hstep
      exact ⟨t', ht', hway.tail hfollows⟩
  · rintro ⟨t, ht, hway⟩
    induction hway generalizing k' with
    | single hfollows => exact .single ((h.instantiates_iff hs).2 ⟨_, ht, hfollows⟩)
    | tail _ hfollows ih =>
      obtain ⟨e, he, rfl, rfl⟩ := follows_iff.1 hfollows
      obtain ⟨k₁, -, -, hsource, -⟩ := h.edge e he
      exact (ih hsource).tail ((h.instantiates_iff hsource).2 ⟨_, ht, hfollows⟩)

end Exact

end HdlLint.Design.UnitGraph
