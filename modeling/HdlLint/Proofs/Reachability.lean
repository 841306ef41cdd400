import Mathlib.Data.List.Nodup
import Mathlib.Data.List.Perm.Subperm
import Mathlib.Data.List.Lattice
import Mathlib.Logic.Relation
import Mathlib.Order.WellFoundedSet
import HdlLint.Design.Cycle
import HdlLint.Proofs.Discovery

/-!
# Orders and components of a graph

`GraphAlgorithms.Correct` is what is expected of algorithms on graphs: an order has every edge lead
forward, a graph without a cycle has one, and components are what reaches each other. All that is said
of cycles is said of any such algorithms. The plain search is one of them (`search_correct`).

`UnitGraph.mem_reached`: the places that are listed as reached from a unit are those to which a way of
one edge or more leads. A round of `closure` adds the places one step away. If it adds none, what has
been seen is closed; if there are as many rounds as units and each adds a place, there are more places
than units, which cannot be as long as the edges stay within the graph (`Bounded`).
-/

namespace HdlLint.Design
open Relation (ReflTransGen TransGen)

namespace UnitGraph

/-- Every edge leads from a unit of the graph to a unit of the graph. -/
def Bounded (g : UnitGraph) : Prop :=
  ∀ e ∈ g.edges, e.source < g.units.length ∧ e.target < g.units.length

/-- No unit reaches itself. -/
def Acyclic (g : UnitGraph) : Prop := ∀ i, ¬ TransGen g.Follows i i

end UnitGraph

/-- What is known of algorithms that do as they say. -/
structure GraphAlgorithms.Correct (algorithms : GraphAlgorithms) : Prop where
  /-- An order has every place once, and every edge leads forward in it. -/
  ordered : ∀ g : UnitGraph, g.Bounded → ∀ order, algorithms.toposort g = some order →
    order.Perm (List.range g.units.length) ∧
      ∀ e ∈ g.edges, order.idxOf e.source < order.idxOf e.target
  /-- A graph without cycles has an order. -/
  accepted : ∀ g : UnitGraph, g.Bounded → g.Acyclic → algorithms.toposort g ≠ none
  /-- Every place is in one component. -/
  divided : ∀ g : UnitGraph, g.Bounded →
    (algorithms.components g).flatten.Perm (List.range g.units.length)
  /-- A component is a place with all those that it reaches and is reached from. -/
  connected : ∀ g : UnitGraph, g.Bounded → ∀ c ∈ algorithms.components g, ∀ i ∈ c, ∀ j,
    j ∈ c ↔ ReflTransGen g.Follows i j ∧ ReflTransGen g.Follows j i

namespace UnitGraph
variable {g : UnitGraph} {seen rest : List Nat} {i j n : Nat}

theorem Bounded.lt (h : g.Bounded) (hfollows : g.Follows i j) : j < g.units.length := by
  obtain ⟨e, he, -, rfl⟩ := follows_iff.1 hfollows
  exact (h e he).2

theorem Exact.bounded {l : Syntax.Library} {top : UnitKey} (h : Exact l top g) : g.Bounded := by
  intro e he
  obtain ⟨_, _, _, hsource, htarget, _⟩ := h.edge e he
  exact ⟨(List.getElem?_eq_some_iff.1 hsource).1, (List.getElem?_eq_some_iff.1 htarget).1⟩

/-- Distinct places of a graph are no more than its units. -/
theorem length_le_of_nodup (hnodup : seen.Nodup) (hlt : ∀ x ∈ seen, x < n) : seen.length ≤ n := by
  have hsub : seen ⊆ List.range n := fun x hx => List.mem_range.2 (hlt x hx)
  simpa using (hnodup.subperm hsub).length_le

theorem nodup_eraseDups {α : Type} [BEq α] [LawfulBEq α] (xs : List α) : xs.eraseDups.Nodup := by
  induction hn : xs.length using Nat.strongRecOn generalizing xs with
  | ind n ih =>
    cases xs with
    | nil => simp
    | cons x xs =>
      rw [List.eraseDups_cons]
      refine List.nodup_cons.2 ⟨by simp, ih _ ?_ _ rfl⟩
      have hle := List.length_filter_le (fun b => !b == x) xs
      rw [List.length_cons] at hn
      omega

/-! ### One round of the closure -/

/-- The places one step away from those in `seen`. -/
def fresh (g : UnitGraph) (seen : List Nat) : List Nat :=
  ((seen.flatMap g.successors).filter fun i => !seen.contains i).eraseDups

theorem closure_succ (g : UnitGraph) (n : Nat) (seen : List Nat) : g.closure (n + 1) seen =
    if (g.fresh seen).isEmpty then seen else g.closure n (seen ++ g.fresh seen) := rfl

theorem mem_fresh : j ∈ g.fresh seen ↔ (∃ i ∈ seen, g.Follows i j) ∧ j ∉ seen := by
  simp [fresh, Follows]

theorem nodup_append_fresh (h : seen.Nodup) : (seen ++ g.fresh seen).Nodup := by
  refine List.nodup_append.2 ⟨h, nodup_eraseDups _, fun a ha b hb hab => ?_⟩
  subst hab
  exact (mem_fresh.1 hb).2 ha

/-! ### All rounds -/

theorem subset_closure : seen ⊆ g.closure n seen := by
  induction n generalizing seen with
  | zero => exact fun _ h => h
  | succ n ih =>
    rw [closure_succ]
    split
    · exact fun _ h => h
    · exact fun x hx => ih (List.mem_append_left _ hx)

theorem reflTransGen_of_mem_closure (h : j ∈ g.closure n seen) :
    ∃ i ∈ seen, ReflTransGen g.Follows i j := by
  induction n generalizing seen with
  | zero => exact ⟨j, h, .refl⟩
  | succ n ih =>
    rw [closure_succ] at h
    split at h
    · exact ⟨j, h, .refl⟩
    · obtain ⟨x, hx, hway⟩ := ih h
      rcases List.mem_append.1 hx with hx | hx
      · exact ⟨x, hx, hway⟩
      · obtain ⟨⟨i, hi, hfollows⟩, -⟩ := mem_fresh.1 hx
        exact ⟨i, hi, hway.head hfollows⟩

/-- With enough rounds nothing is left that is one step away. -/
theorem closure_closed (hg : g.Bounded) (hnodup : seen.Nodup) (hlt : ∀ x ∈ seen, x < g.units.length)
    (hn : g.units.length ≤ n + seen.length) (hi : i ∈ g.closure n seen) (hfollows : g.Follows i j) :
    j ∈ g.closure n seen := by
  induction n generalizing seen with
  | zero =>
    -- all units have been seen
    have hsub : seen ⊆ List.range g.units.length := fun x hx => List.mem_range.2 (hlt x hx)
    have hperm : seen.Perm (List.range g.units.length) :=
      (hnodup.subperm hsub).perm_of_length_le (by simpa using hn)
    exact hperm.mem_iff.2 (List.mem_range.2 (hg.lt hfollows))
  | succ n ih =>
    rw [closure_succ] at hi ⊢
    by_cases hempty : (g.fresh seen).isEmpty
    · rw [if_pos hempty] at hi ⊢
      by_contra hj
      have hmem : j ∈ g.fresh seen := mem_fresh.2 ⟨⟨i, hi, hfollows⟩, hj⟩
      rw [List.isEmpty_iff.1 hempty] at hmem
      cases hmem
    · rw [if_neg hempty] at hi ⊢
      have hpos : 0 < (g.fresh seen).length := by
        rw [List.length_pos_iff]
        exact fun h => hempty (List.isEmpty_iff.2 h)
      refine ih (nodup_append_fresh hnodup) (fun x hx => ?_) (by rw [List.length_append]; omega) hi
      rcases List.mem_append.1 hx with hx | hx
      · exact hlt x hx
      · obtain ⟨⟨s, -, hstep⟩, -⟩ := mem_fresh.1 hx
        exact hg.lt hstep

theorem mem_reached (hg : g.Bounded) : j ∈ g.reached i ↔ TransGen g.Follows i j := by
  unfold reached
  constructor
  · intro h
    obtain ⟨x, hx, hway⟩ := reflTransGen_of_mem_closure h
    have hfollows : g.Follows i x := List.mem_eraseDups.1 hx
    exact .head' hfollows hway
  · have hseen : ∀ x ∈ (g.successors i).eraseDups, x < g.units.length :=
      fun x hx => hg.lt (List.mem_eraseDups.1 hx)
    intro h
    induction h with
    | single hfollows => exact subset_closure (List.mem_eraseDups.2 hfollows)
    | tail _ hfollows ih =>
      exact closure_closed hg (nodup_eraseDups _) hseen (Nat.le_add_right _ _) ih hfollows

/-! ### Components -/

theorem connected_iff (hg : g.Bounded) : g.connected i j = true ↔
    ReflTransGen g.Follows i j ∧ ReflTransGen g.Follows j i := by
  rw [connected, Bool.or_eq_true, Bool.and_eq_true, List.contains_iff_mem, List.contains_iff_mem,
    mem_reached hg, mem_reached hg, beq_iff_eq]
  constructor
  · rintro (rfl | ⟨hij, hji⟩)
    · exact ⟨.refl, .refl⟩
    · exact ⟨hij.to_reflTransGen, hji.to_reflTransGen⟩
  · rintro ⟨hij, hji⟩
    rcases Relation.reflTransGen_iff_eq_or_transGen.1 hij with rfl | hij
    · exact .inl rfl
    · rcases Relation.reflTransGen_iff_eq_or_transGen.1 hji with rfl | hji
      · exact .inl rfl
      · exact .inr ⟨hij, hji⟩

theorem mem_componentOf (hg : g.Bounded) : j ∈ g.componentOf i ↔
    j < g.units.length ∧ ReflTransGen g.Follows i j ∧ ReflTransGen g.Follows j i := by
  rw [componentOf, List.mem_filter, List.mem_range, connected_iff hg]

/-- Connected places have the same component. -/
theorem componentOf_eq (hg : g.Bounded) (h : j ∈ g.componentOf i) : g.componentOf j = g.componentOf i := by
  obtain ⟨-, hij, hji⟩ := (mem_componentOf hg).1 h
  refine List.filter_congr fun x _ => ?_
  rw [Bool.eq_iff_iff, connected_iff hg, connected_iff hg]
  exact ⟨fun hx => ⟨hij.trans hx.1, hx.2.trans hji⟩, fun hx => ⟨hji.trans hx.1, hx.2.trans hij⟩⟩

theorem mem_components {c : List Nat} : c ∈ g.components ↔
    ∃ i < g.units.length, (g.componentOf i).head? = some i ∧ c = g.componentOf i := by
  simp only [components, List.mem_map, List.mem_filter, List.mem_range, beq_iff_eq, and_assoc]
  exact exists_congr fun i => and_congr_right fun _ => and_congr_right fun _ => eq_comm

/-- A place is in its own component, which is listed under its first place. -/
theorem exists_component (hg : g.Bounded) (hi : i < g.units.length) : ∃ c ∈ g.components, i ∈ c := by
  have hmem : i ∈ g.componentOf i := (mem_componentOf hg).2 ⟨hi, .refl, .refl⟩
  obtain ⟨first, others, hc⟩ := List.exists_cons_of_ne_nil (List.ne_nil_of_mem hmem)
  have hfirst : first ∈ g.componentOf i := hc ▸ List.mem_cons_self
  have heq := componentOf_eq hg hfirst
  refine ⟨_, mem_components.2 ⟨first, ((mem_componentOf hg).1 hfirst).1, ?_, rfl⟩, heq ▸ hmem⟩
  rw [heq, hc, List.head?_cons]

theorem nodup_flatten_components (hg : g.Bounded) : g.components.flatten.Nodup := by
  refine List.nodup_flatten.2 ⟨fun c hc => ?_, ?_⟩
  · obtain ⟨i, -, -, rfl⟩ := mem_components.1 hc
    exact List.nodup_range.filter _
  · rw [components, List.pairwise_map]
    refine ((List.nodup_range (n := g.units.length)).filter _).imp_of_mem fun {i j} hi hj hne => ?_
    -- two components with a place in common have the same first place
    intro x hxi hxj
    have heq : g.componentOf i = g.componentOf j :=
      (componentOf_eq hg hxi).symm.trans (componentOf_eq hg hxj)
    have hfirst := beq_iff_eq.1 (List.mem_filter.1 hi).2
    rw [heq, beq_iff_eq.1 (List.mem_filter.1 hj).2] at hfirst
    exact hne (Option.some.inj hfirst).symm

theorem flatten_components_perm (hg : g.Bounded) :
    g.components.flatten.Perm (List.range g.units.length) := by
  refine (List.perm_ext_iff_of_nodup (nodup_flatten_components hg) List.nodup_range).2 fun i => ?_
  rw [List.mem_flatten, List.mem_range]
  constructor
  · rintro ⟨c, hc, hi⟩
    obtain ⟨j, -, -, rfl⟩ := mem_components.1 hc
    exact ((mem_componentOf hg).1 hi).1
  · exact exists_component hg

/-! ### Order -/

theorem hasEdge_iff : g.hasEdge i j = true ↔ g.Follows i j := List.contains_iff_mem

theorem order_spec {order : List Nat} (h : g.order n rest = some order) (hnodup : rest.Nodup) :
    order.Perm rest ∧ ∀ i ∈ rest, ∀ j ∈ rest, g.Follows i j → order.idxOf i < order.idxOf j := by
  induction n generalizing rest order with
  | zero =>
    obtain ⟨rfl, rfl⟩ : rest = [] ∧ [] = order := by simpa [UnitGraph.order] using h
    exact ⟨.refl _, by simp⟩
  | succ n ih =>
    rw [UnitGraph.order] at h
    split at h
    · next first hfirst =>
      obtain ⟨others, hothers, rfl⟩ := Option.map_eq_some_iff.1 h
      obtain ⟨hperm, hforward⟩ := ih hothers (hnodup.erase first)
      have hmem := List.mem_of_find?_eq_some hfirst
      have hfree : ∀ j ∈ rest, ¬ g.Follows j first := by
        simpa [← hasEdge_iff] using List.find?_some hfirst
      refine ⟨(hperm.cons first).trans (List.perm_cons_erase hmem).symm, fun i hi j hj hij => ?_⟩
      -- nothing leads to the first place
      have hj' : j ≠ first := fun heq => hfree i hi (heq ▸ hij)
      rw [List.idxOf_cons_ne _ hj'.symm]
      by_cases hi' : i = first
      · rw [hi', List.idxOf_cons_self]
        omega
      · rw [List.idxOf_cons_ne _ (Ne.symm hi')]
        exact Nat.succ_lt_succ (hforward i ((List.mem_erase_of_ne hi').2 hi) j
          ((List.mem_erase_of_ne hj').2 hj) hij)
    · obtain ⟨rfl, rfl⟩ : rest = [] ∧ [] = order := by simpa using h
      exact ⟨.refl _, by simp⟩

/-- Without cycles, some of finitely many places has no other of them lead to it. -/
theorem Acyclic.exists_free (hg : g.Acyclic) (hrest : rest ≠ []) :
    ∃ i ∈ rest, ∀ j ∈ rest, ¬ g.Follows j i := by
  have : Std.Irrefl (TransGen g.Follows) := ⟨hg⟩
  have : IsStrictOrder Nat (TransGen g.Follows) := { }
  have hwf : {i | i ∈ rest}.WellFoundedOn (TransGen g.Follows) := (List.finite_toSet rest).wellFoundedOn
  obtain ⟨first, others, rfl⟩ := List.exists_cons_of_ne_nil hrest
  obtain ⟨i, hi, hmin⟩ := hwf.has_min (Set.univ) ⟨⟨first, List.mem_cons_self⟩, trivial⟩
  exact ⟨i, i.2, fun j hj hfollows => hmin ⟨j, hj⟩ trivial (.single hfollows)⟩

theorem Acyclic.order_ne_none (hg : g.Acyclic) (hn : rest.length ≤ n) : g.order n rest ≠ none := by
  induction n generalizing rest with
  | zero =>
    obtain rfl := List.length_eq_zero_iff.1 (Nat.le_zero.1 hn)
    exact nofun
  | succ n ih =>
    rw [UnitGraph.order]
    split
    · next first hfirst =>
      have hmem := List.mem_of_find?_eq_some hfirst
      have hlen := List.length_erase_of_mem hmem
      rw [Ne, Option.map_eq_none_iff]
      exact ih (by omega)
    · next hnone =>
      have hempty : rest = [] := by
        by_contra hrest
        obtain ⟨i, hi, hfree⟩ := hg.exists_free hrest
        refine absurd (List.find?_eq_none.1 hnone i hi) ?_
        simpa [← hasEdge_iff] using hfree
      rw [hempty]
      exact nofun

end UnitGraph

theorem GraphAlgorithms.search_correct : search.Correct where
  ordered g hg order h := by
    obtain ⟨hperm, hforward⟩ := UnitGraph.order_spec h List.nodup_range
    refine ⟨hperm, fun e he => hforward _ ?_ _ ?_ (UnitGraph.follows_iff.2 ⟨e, he, rfl, rfl⟩)⟩
    · exact List.mem_range.2 (hg e he).1
    · exact List.mem_range.2 (hg e he).2
  accepted g _ hacyclic := hacyclic.order_ne_none (by rw [List.length_range])
  divided g hg := UnitGraph.flatten_components_perm hg
  connected g hg c hc i hi j := by
    obtain ⟨k, -, -, rfl⟩ := UnitGraph.mem_components.1 hc
    rw [← UnitGraph.componentOf_eq hg hi, UnitGraph.mem_componentOf hg, and_iff_right_iff_imp]
    rintro ⟨hij, -⟩
    have hlt := ((UnitGraph.mem_componentOf hg).1 hi).1
    rcases Relation.ReflTransGen.cases_tail hij with rfl | ⟨_, -, hlast⟩
    · exact hlt
    · exact hg.lt hlast

end HdlLint.Design
