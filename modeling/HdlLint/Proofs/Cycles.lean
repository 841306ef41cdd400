import Mathlib.Data.List.Nodup
import Mathlib.Logic.Relation
import HdlLint.Proofs.Placement
import HdlLint.Proofs.Reachability

/-!
# Cycles of units

`UnitGraph.checkAcyclic_exact`: whatever correct algorithms it is checked with, a graph is refused exactly
if a unit that is reached from the top unit reaches itself, and what is told then is such a cycle
(`CycleTold`), at a place in one of the files if the library was read from files.

A graph has no order exactly if it has a cycle (`toposort_isSome_iff`). Then some component has a cycle
(`isCyclic_iff`), and the first unit of the one that is chosen is the first of all units that are on a
cycle (`firstCyclic?_spec`).

The search for a way back to the start is depth first and never takes a mark away. A search that fails
leaves only units whose edges were all tried (`Settled`): none of them leads to the start, and those
that lead to a unit from which the start is reached lead to a marked one. A way back to the start would
have to leave the marked units somewhere, so there is none.
-/

namespace HdlLint.Design.UnitGraph
open Syntax (Library Instantiation)
open Relation (ReflTransGen TransGen)

variable {algorithms : GraphAlgorithms} {g : UnitGraph} {start node n : Nat} {members visited : List Nat}

/-! ### The component of the first unit on a cycle -/

section
variable (hA : algorithms.Correct) (hg : g.Bounded)
include hA hg

/-- An order is found exactly if there is no cycle. -/
theorem toposort_isSome_iff : (algorithms.toposort g).isSome = true ↔ g.Acyclic := by
  constructor
  · intro h
    obtain ⟨order, horder⟩ := Option.isSome_iff_exists.1 h
    -- a way leads forward in the order, so it does not lead back
    have hforward : ∀ {i j}, TransGen g.Follows i j → order.idxOf i < order.idxOf j := by
      intro i j hway
      induction hway with
      | single hfollows =>
        obtain ⟨e, he, rfl, rfl⟩ := follows_iff.1 hfollows
        exact (hA.ordered g hg order horder).2 e he
      | tail _ hfollows ih =>
        obtain ⟨e, he, rfl, rfl⟩ := follows_iff.1 hfollows
        exact ih.trans ((hA.ordered g hg order horder).2 e he)
    exact fun i hcycle => Nat.lt_irrefl _ (hforward hcycle)
  · exact fun hacyclic => Option.isSome_iff_ne_none.2 (hA.accepted g hg hacyclic)

/-- A component has a cycle exactly if each of its units is on one. -/
theorem isCyclic_iff {c : List Nat} (hc : c ∈ algorithms.components g) {i : Nat} (hi : i ∈ c) :
    g.isCyclic c = true ↔ TransGen g.Follows i i := by
  have hconnected := hA.connected g hg c hc i hi
  have hnodup : c.Nodup :=
    (List.nodup_flatten.1 ((hA.divided g hg).nodup_iff.2 List.nodup_range)).1 c hc
  -- a way to another unit of the component and back
  have hround : ∀ j ∈ c, j ≠ i → TransGen g.Follows i i := by
    intro j hj hne
    obtain ⟨hij, hji⟩ := (hconnected j).1 hj
    rcases Relation.reflTransGen_iff_eq_or_transGen.1 hij with heq | hij
    · exact absurd heq hne
    · exact hij.trans_left hji
  rw [isCyclic, Bool.or_eq_true, decide_eq_true_eq, Option.any_eq_true]
  constructor
  · rintro (hlen | ⟨a, ha, hself⟩)
    · rcases c with _ | ⟨a, _ | ⟨b, more⟩⟩
      · cases hi
      · cases Nat.lt_irrefl 1 hlen
      · by_cases ha : a = i
        · refine hround b (by simp) ?_
          rintro rfl
          exact (List.nodup_cons.1 hnodup).1 (by simp [ha])
        · exact hround a (by simp) ha
    · have hmem : a ∈ c := List.mem_of_mem_head? ha
      by_cases hai : a = i
      · exact hai ▸ .single (hasEdge_iff.1 hself)
      · exact hround a hmem hai
  · intro hcycle
    obtain ⟨j, hfollows, hback⟩ := TransGen.head'_iff.1 hcycle
    have hj : j ∈ c := (hconnected j).2 ⟨.single hfollows, hback⟩
    rcases c with _ | ⟨a, _ | ⟨b, more⟩⟩
    · cases hi
    · obtain rfl := List.mem_singleton.1 hi
      obtain rfl := List.mem_singleton.1 hj
      exact .inr ⟨_, rfl, hasEdge_iff.2 hfollows⟩
    · exact .inl (by simp)

/-- The component that is chosen is that of the first unit on a cycle. -/
theorem firstCyclic?_spec (hcyclic : ¬ g.Acyclic) : ∃ members start,
    g.firstCyclic? algorithms = some members ∧ members.min? = some start ∧
      start < g.units.length ∧ TransGen g.Follows start start ∧
      (∀ i < start, ¬ TransGen g.Follows i i) ∧
      ∀ j, j ∈ members ↔ ReflTransGen g.Follows start j ∧ ReflTransGen g.Follows j start := by
  have hcover : ∀ i, TransGen g.Follows i i → ∃ c ∈ (algorithms.components g).filter g.isCyclic, i ∈ c := by
    intro i hi
    obtain ⟨_, -, hlast⟩ := TransGen.tail'_iff.1 hi
    have hmem := (hA.divided g hg).mem_iff.2 (List.mem_range.2 (hg.lt hlast))
    obtain ⟨c, hc, hic⟩ := List.mem_flatten.1 hmem
    exact ⟨c, List.mem_filter.2 ⟨hc, (isCyclic_iff hA hg hc hic).2 hi⟩, hic⟩
  obtain ⟨i₀, hi₀⟩ : ∃ i, TransGen g.Follows i i := by
    simpa [Acyclic] using hcyclic
  obtain ⟨c₀, hc₀, -⟩ := hcover i₀ hi₀
  obtain ⟨members, hmembers⟩ := Option.isSome_iff_exists.1
    (List.isSome_minOn?_of_mem (f := fun c : List Nat => c.min?.getD 0) hc₀)
  obtain ⟨hmem, hmemCyclic⟩ := List.mem_filter.1 (List.minOn?_mem hmembers)
  have hleast : ∀ c ∈ (algorithms.components g).filter g.isCyclic,
      members.min?.getD 0 ≤ c.min?.getD 0 := by
    intro c hc
    have hle := List.apply_get_minOn?_le_of_mem (f := fun c : List Nat => c.min?.getD 0) hc
    simpa only [hmembers, Option.get_some] using hle
  -- a component with a cycle has a first unit
  have hfirst : ∀ c ∈ (algorithms.components g).filter g.isCyclic, ∃ first, c.min? = some first := by
    intro c hc
    refine Option.isSome_iff_exists.1 (List.isSome_min?_of_ne_nil ?_)
    rintro rfl
    cases (List.mem_filter.1 hc).2
  obtain ⟨start, hstart⟩ := hfirst members (List.minOn?_mem hmembers)
  have hstartMem := (List.min?_eq_some_iff.1 hstart).1
  refine ⟨members, start, hmembers, hstart, ?_, (isCyclic_iff hA hg hmem hstartMem).1 hmemCyclic,
    fun i hi hcycle => ?_, hA.connected g hg members hmem start hstartMem⟩
  · exact List.mem_range.1 ((hA.divided g hg).mem_iff.1 (List.mem_flatten.2 ⟨_, hmem, hstartMem⟩))
  · obtain ⟨c, hc, hic⟩ := hcover i hcycle
    obtain ⟨first, hfirst⟩ := hfirst c hc
    have hle := hleast c hc
    rw [hstart, hfirst, Option.getD_some, Option.getD_some] at hle
    have := (List.min?_eq_some_iff.1 hfirst).2 i hic
    omega

end

/-! ### Edges -/

theorem mem_edgesOf {e : Edge} : e ∈ g.edgesOf node ↔ e ∈ g.edges ∧ e.source = node := by
  simp [edgesOf]

theorem follows_of_mem_edgesOf {e : Edge} (h : e ∈ g.edgesOf node) : g.Follows node e.target :=
  List.mem_map_of_mem h

/-! ### Ways back to the start -/

/-- The edges lead from `node` to `start`, each from where the one before it ends. -/
inductive Way (g : UnitGraph) (start : Nat) : Nat → List Edge → Prop
  | last {node : Nat} {e : Edge} : e ∈ g.edgesOf node → e.target = start → Way g start node [e]
  | step {node : Nat} {e : Edge} {es : List Edge} :
    e ∈ g.edgesOf node → Way g start e.target es → Way g start node (e :: es)

/-- The places that edges come through before their end. -/
def inner (es : List Edge) : List Nat := (es.map (·.target)).dropLast

theorem Way.ne_nil {es : List Edge} (h : Way g start node es) : es ≠ [] := by
  cases h <;> simp

theorem Way.mem_edges {es : List Edge} (h : Way g start node es) : ∀ e ∈ es, e ∈ g.edges := by
  induction h with
  | last he _ => simpa using (mem_edgesOf.1 he).1
  | step he _ ih =>
    intro d hd
    rcases List.mem_cons.1 hd with rfl | hd
    exacts [(mem_edgesOf.1 he).1, ih d hd]

theorem inner_cons {e : Edge} {es : List Edge} (h : es ≠ []) :
    inner (e :: es) = e.target :: inner es := by
  rw [inner, List.map_cons, List.dropLast_cons_of_ne_nil (by simpa using h)]
  rfl

theorem Way.targets {es : List Edge} (h : Way g start node es) :
    es.map (·.target) = inner es ++ [start] := by
  induction h with
  | last he htarget => simp [inner, htarget]
  | step he hway ih => rw [List.map_cons, ih, inner_cons hway.ne_nil, List.cons_append]

/-! ### The search -/

/-- Tries one edge, unless a way has been found. -/
def tryEdge (g : UnitGraph) (members : List Nat) (start n : Nat) (r : Option (List Edge) × List Nat)
    (e : Edge) : Option (List Edge) × List Nat :=
  if r.1.isSome then r
  else if e.target = start then (some [e], r.2)
  else if !members.contains e.target || r.2.contains e.target then (none, r.2)
  else
    ((g.wayBack members start n e.target (e.target :: r.2)).1.map (e :: ·),
      (g.wayBack members start n e.target (e.target :: r.2)).2)

theorem wayBack_succ (g : UnitGraph) (members : List Nat) (start n node : Nat) (visited : List Nat) :
    g.wayBack members start (n + 1) node visited =
      (g.edgesOf node).foldl (g.tryEdge members start n) (none, visited) :=
  rfl

/-- It matters only which units are members, not how they are listed. -/
theorem wayBack_congr {members' : List Nat} (h : ∀ x, x ∈ members ↔ x ∈ members') (node : Nat)
    (visited : List Nat) :
    g.wayBack members start n node visited = g.wayBack members' start n node visited := by
  induction n generalizing node visited with
  | zero => rfl
  | succ n ih =>
    have htry : g.tryEdge members start n = g.tryEdge members' start n := by
      funext r e
      have hmem : members.contains e.target = members'.contains e.target := by
        rw [Bool.eq_iff_iff, List.contains_iff_mem, List.contains_iff_mem, h]
      rw [tryEdge, tryEdge, hmem, ih]
    rw [wayBack_succ, wayBack_succ, htry]

theorem foldl_tryEdge_some {es way : List Edge} :
    es.foldl (g.tryEdge members start n) (some way, visited) = (some way, visited) := by
  induction es with
  | nil => rfl
  | cons e es ih => rw [List.foldl_cons]; exact ih

/-- The marks of a search are distinct units. -/
structure Marks (g : UnitGraph) (visited : List Nat) : Prop where
  nodup : visited.Nodup
  lt : ∀ x ∈ visited, x < g.units.length

theorem Marks.length_le (h : Marks g visited) : visited.length ≤ g.units.length :=
  length_le_of_nodup h.nodup h.lt

/-- The edge leads neither to the start nor to an unmarked member of its component. -/
def DeadEnd (members : List Nat) (start : Nat) (visited : List Nat) (e : Edge) : Prop :=
  e.target ≠ start ∧ (e.target ∈ members → e.target ∈ visited)

theorem DeadEnd.mono {visited' : List Nat} {e : Edge} (h : DeadEnd members start visited e)
    (hsub : visited ⊆ visited') : DeadEnd members start visited' e :=
  ⟨h.1, fun hc => hsub (h.2 hc)⟩

/-- All edges of the unit were tried in vain. -/
def Settled (g : UnitGraph) (members : List Nat) (start : Nat) (visited : List Nat) (x : Nat) : Prop :=
  ∀ e ∈ g.edgesOf x, DeadEnd members start visited e

/-- What a search along the edges `es` of `node` has come to. -/
structure Searched (g : UnitGraph) (members : List Nat) (start node : Nat) (visited : List Nat)
    (es : List Edge) (r : Option (List Edge) × List Nat) : Prop where
  marks : Marks g r.2
  grows : visited ⊆ r.2
  found : ∀ way, r.1 = some way →
    Way g start node way ∧ (inner way).Nodup ∧ ∀ x ∈ inner way, x ∉ visited
  failed : r.1 = none → (∀ e ∈ es, DeadEnd members start r.2 e) ∧
    ∀ x ∈ r.2, x ∈ visited ∨ Settled g members start r.2 x

theorem Searched.length_le {es : List Edge} {r : Option (List Edge) × List Nat}
    (h : Searched g members start node visited es r) (hvisited : visited.Nodup) :
    visited.length ≤ r.2.length :=
  (hvisited.subperm h.grows).length_le

/-- Trying one edge, if the searches behind it are as they should be. -/
theorem tryEdge_searched {e : Edge} (hg : g.Bounded) (he : e ∈ g.edgesOf node)
    (hvisited : Marks g visited)
    (ih : Marks g (e.target :: visited) → Searched g members start e.target (e.target :: visited)
      (g.edgesOf e.target) (g.wayBack members start n e.target (e.target :: visited))) :
    Searched g members start node visited [e] (g.tryEdge members start n (none, visited) e) := by
  unfold tryEdge
  rw [if_neg (by simp)]
  by_cases hstart : e.target = start
  · rw [if_pos hstart]
    refine ⟨hvisited, fun _ h => h, fun way hway => ?_, nofun⟩
    obtain rfl := Option.some.inj hway
    exact ⟨.last he hstart, by simp [inner], by simp [inner]⟩
  rw [if_neg hstart]
  by_cases hskip : (!members.contains e.target || visited.contains e.target) = true
  · rw [if_pos hskip]
    refine ⟨hvisited, fun _ h => h, nofun, fun _ => ⟨fun x hx => ?_, fun x hx => .inl hx⟩⟩
    obtain rfl := List.mem_singleton.1 hx
    refine ⟨hstart, fun hc => ?_⟩
    rcases Bool.or_eq_true_iff.1 hskip with hno | hmem
    · rw [List.contains_iff_mem.2 hc] at hno
      cases hno
    · exact List.contains_iff_mem.1 hmem
  rw [if_neg hskip]
  have hnew : e.target ∉ visited := fun h => hskip (by simp [h])
  have hmarks : Marks g (e.target :: visited) := by
    refine ⟨List.nodup_cons.2 ⟨hnew, hvisited.nodup⟩, fun x hx => ?_⟩
    rcases List.mem_cons.1 hx with rfl | hx
    exacts [hg.lt (follows_of_mem_edgesOf he), hvisited.lt x hx]
  have hbelow := ih hmarks
  refine ⟨hbelow.marks, fun x hx => hbelow.grows (List.mem_cons_of_mem _ hx), fun way hway => ?_,
    fun hnone => ?_⟩
  · obtain ⟨rest, hrest, rfl⟩ := Option.map_eq_some_iff.1 hway
    obtain ⟨hrestWay, hnodup, hfree⟩ := hbelow.found rest hrest
    rw [inner_cons hrestWay.ne_nil]
    -- the way behind the edge keeps clear of all that was marked when it was taken
    refine ⟨.step he hrestWay, List.nodup_cons.2 ⟨fun h => hfree _ h List.mem_cons_self, hnodup⟩, ?_⟩
    intro x hx
    rcases List.mem_cons.1 hx with rfl | hx
    · exact hnew
    · exact fun h => hfree x hx (List.mem_cons_of_mem _ h)
  · obtain ⟨hedges, hsettled⟩ := hbelow.failed (Option.map_eq_none_iff.1 hnone)
    refine ⟨fun x hx => ?_, fun x hx => ?_⟩
    · obtain rfl := List.mem_singleton.1 hx
      exact ⟨hstart, fun _ => hbelow.grows List.mem_cons_self⟩
    · rcases hsettled x hx with hx | hx
      · rcases List.mem_cons.1 hx with rfl | hx
        exacts [.inr hedges, .inl hx]
      · exact .inr hx

theorem Searched.cons {e : Edge} {es : List Edge} {r r' : Option (List Edge) × List Nat}
    (h : Searched g members start node visited [e] r) (hnone : r.1 = none)
    (h' : Searched g members start node r.2 es r') : Searched g members start node visited (e :: es) r' := by
  obtain ⟨hedge, hsettled⟩ := h.failed hnone
  refine ⟨h'.marks, fun x hx => h'.grows (h.grows hx), fun way hway => ?_, fun hnone' => ?_⟩
  · obtain ⟨hfound, hnodup, hfree⟩ := h'.found way hway
    exact ⟨hfound, hnodup, fun x hx hmem => hfree x hx (h.grows hmem)⟩
  · obtain ⟨hedges, hsettled'⟩ := h'.failed hnone'
    refine ⟨fun x hx => ?_, fun x hx => ?_⟩
    · rcases List.mem_cons.1 hx with rfl | hx
      exacts [(hedge x (by simp)).mono h'.grows, hedges x hx]
    · rcases hsettled' x hx with hx | hx
      · rcases hsettled x hx with hx | hx
        exacts [.inl hx, .inr fun y hy => (hx y hy).mono h'.grows]
      · exact .inr hx

/-- Every mark lets the search go one step deeper, so it does not run short as long as the fuel and
the marks are together more than the units. -/
theorem wayBack_searched (hg : g.Bounded) (hvisited : Marks g visited)
    (hn : g.units.length < visited.length + n) :
    Searched g members start node visited (g.edgesOf node) (g.wayBack members start n node visited) := by
  induction n generalizing node visited with
  | zero =>
    have hle := hvisited.length_le
    omega
  | succ n ih =>
    rw [wayBack_succ]
    -- the edges are tried one after the other, each with the marks that the ones before it left
    have hfold : ∀ es : List Edge, es ⊆ g.edgesOf node → ∀ vis, Marks g vis →
        visited.length ≤ vis.length →
        Searched g members start node vis es (es.foldl (g.tryEdge members start n) (none, vis)) := by
      intro es
      induction es with
      | nil =>
        intro _ vis hvis _
        exact ⟨hvis, fun _ h => h, nofun, fun _ => ⟨by simp, fun x hx => .inl hx⟩⟩
      | cons e es ihes =>
        intro hes vis hvis hlen
        have hstep : Searched g members start node vis [e] (g.tryEdge members start n (none, vis) e) :=
          tryEdge_searched hg (hes List.mem_cons_self) hvis
            fun hmarks => ih hmarks (by rw [List.length_cons]; omega)
        rw [List.foldl_cons]
        cases hr : g.tryEdge members start n (none, vis) e with | mk found vis' => ?_
        rw [hr] at hstep
        cases found with
        | some way =>
          rw [foldl_tryEdge_some]
          exact ⟨hstep.marks, hstep.grows, hstep.found, nofun⟩
        | none =>
          have hlen' : vis.length ≤ vis'.length := hstep.length_le hvis.nodup
          exact hstep.cons rfl
            (ihes (fun x hx => hes (List.mem_cons_of_mem _ hx)) vis' hstep.marks (by omega))
    exact hfold _ (fun _ h => h) visited hvisited (Nat.le_refl _)

/-- A unit that reaches itself has a way back to itself that comes through no unit twice, and it is found
among the members of a component that holds all units on such ways. -/
theorem exists_wayBack (hg : g.Bounded) (hstart : start < g.units.length)
    (hcyclic : TransGen g.Follows start start)
    (hmembers : ∀ x, ReflTransGen g.Follows start x → ReflTransGen g.Follows x start → x ∈ members) :
    ∃ way, (g.wayBack members start g.units.length start [start]).1 = some way ∧ Way g start start way ∧
      (start :: inner way).Nodup := by
  have hmarks : Marks g [start] := ⟨by simp, by simpa using hstart⟩
  have hsearch : Searched g members start start [start] (g.edgesOf start)
      (g.wayBack members start g.units.length start [start]) := wayBack_searched hg hmarks (by simp)
  cases hr : (g.wayBack members start g.units.length start [start]).1 with
  | some way =>
    obtain ⟨hway, hnodup, hfree⟩ := hsearch.found way hr
    exact ⟨way, rfl, hway, List.nodup_cons.2 ⟨fun h => hfree _ h (by simp), hnodup⟩⟩
  | none =>
    exfalso
    obtain ⟨hedges, hsettled⟩ := hsearch.failed hr
    have hall : ∀ x ∈ (g.wayBack members start g.units.length start [start]).2,
        Settled g members start (g.wayBack members start g.units.length start [start]).2 x := by
      intro x hx
      rcases hsettled x hx with hx | hx
      · obtain rfl := List.mem_singleton.1 hx
        exact hedges
      · exact hx
    -- follow a way from a marked unit to the start: each of its units is marked, and the last one
    -- has an edge to the start
    have hstuck : ∀ x, TransGen g.Follows x start → ReflTransGen g.Follows start x →
        x ∉ (g.wayBack members start g.units.length start [start]).2 := by
      intro x hx
      induction hx using TransGen.head_induction_on with
      | single hlast =>
        intro _ hmem
        obtain ⟨e, he, htarget⟩ := List.mem_map.1 hlast
        exact (hall _ hmem e he).1 htarget
      | head hfollows hrest ih =>
        intro hreach hmem
        obtain ⟨e, he, rfl⟩ := List.mem_map.1 hfollows
        have hreach' := hreach.tail hfollows
        exact ih hreach' ((hall _ hmem e he).2 (hmembers _ hreach' hrest.to_reflTransGen))
    exact hstuck start hcyclic .refl (hsearch.grows (by simp))

/-! ### What is told of a cycle -/

/-- The unit at a place. -/
def unitAt (g : UnitGraph) (s : Nat) : UnitKey := (g.units[s]?).getD default

theorem unitAt_eq {s : Nat} {k : UnitKey} (hs : g.units[s]? = some k) : g.unitAt s = k := by
  rw [unitAt, hs, Option.getD_some]

theorem getElem?_units {s : Nat} (hs : s < g.units.length) : g.units[s]? = some (g.unitAt s) := by
  have hget := List.getElem?_eq_getElem hs
  rw [unitAt_eq hget, hget]

theorem entityAt_eq (g : UnitGraph) (s : Nat) : g.entityAt s = (g.unitAt s).entity := by
  unfold entityAt unitAt
  cases g.units[s]? <;> rfl

section
variable {l : Library} {top k : UnitKey} {s : Nat}

/-- A unit of the graph reaches itself in the graph exactly if it does in the library. -/
theorem Exact.transGen_self_iff (h : Exact l top g) (hs : g.units[s]? = some k) :
    TransGen g.Follows s s ↔ TransGen l.Instantiates k k := by
  rw [h.transGen_iff hs]
  constructor
  · exact fun hway => ⟨s, hs, hway⟩
  · rintro ⟨t, ht, hway⟩
    rwa [h.unit_inj hs ht] at hway ⊢

/-- In a graph without cycles no unit reaches itself. -/
theorem Exact.not_transGen (h : Exact l top g) (hacyclic : g.Acyclic) (hk : k ∈ g.units) :
    ¬ TransGen l.Instantiates k k := by
  intro hcycle
  obtain ⟨s, hs⟩ := List.getElem?_of_mem hk
  exact hacyclic s ((h.transGen_self_iff hs).2 hcycle)

/-- The units of the graph are those that are reached from the top unit. -/
theorem Exact.mem_units (h : Exact l top g) : k ∈ g.units ↔ ReflTransGen l.Instantiates top k := by
  refine ⟨h.reached k, fun hway => ?_⟩
  induction hway with
  | refl => exact List.mem_of_getElem? h.top
  | tail _ hstep ih =>
    obtain ⟨s, hs⟩ := List.getElem?_of_mem ih
    obtain ⟨t, ht, -⟩ := (h.instantiates_iff hs).1 hstep
    exact List.mem_of_getElem? ht

theorem Exact.isChain_of_way (h : Exact l top g) {es : List Edge} (hway : Way g start node es) :
    ((node :: es.map (·.target)).map g.unitAt).IsChain l.Instantiates := by
  have hstep : ∀ {x : Nat} {e : Edge}, e ∈ g.edgesOf x →
      l.Instantiates (g.unitAt x) (g.unitAt e.target) := by
    intro x e he
    obtain ⟨hmem, rfl⟩ := mem_edgesOf.1 he
    obtain ⟨k, i, k', hsource, htarget, hasks, -⟩ := h.edge e hmem
    rw [unitAt_eq hsource, unitAt_eq htarget]
    exact ⟨i, hasks⟩
  induction hway with
  | last he _ => simpa using hstep he
  | step he hrest ih => exact List.isChain_cons_cons.2 ⟨hstep he, ih⟩

end

/-- The units from `first` over `others` back to `first` are a cycle of the graph, no unit that was
discovered before `first` is on a cycle, and the statement `i` is the one by which `first` asks for
the unit after it. -/
structure CycleTold (l : Library) (g : UnitGraph) (first : UnitKey) (others : List UnitKey)
    (i : Instantiation) : Prop where
  units : ∀ k ∈ first :: others, k ∈ g.units
  distinct : (first :: others).Nodup
  cycle : (first :: others ++ [first]).IsChain l.Instantiates
  earliest : ∃ s, g.units[s]? = some first ∧
    ∀ (t : Nat) k, t < s → g.units[t]? = some k → ¬ TransGen l.Instantiates k k
  statement : ∃ second, (others ++ [first]).head? = some second ∧ l.Asks first i second

theorem Exact.cycleTold {l : Library} {top : UnitKey} (h : Exact l top g) (hA : algorithms.Correct)
    (hcyclic : ¬ g.Acyclic) :
    ∃ first others i, g.checkAcyclic algorithms = .error (.cycle
        ((first :: others ++ [first]).map (·.entity)) i.span) ∧ CycleTold l g first others i := by
  obtain ⟨members, start, hfirst, hmin, hstart, hcycle, hbefore, hmembers⟩ :=
    firstCyclic?_spec hA h.bounded hcyclic
  have hrefused : ¬ (algorithms.toposort g).isSome = true := fun hsome =>
    hcyclic ((toposort_isSome_iff hA h.bounded).1 hsome)
  obtain ⟨way, hfound, hway, hnodup⟩ :=
    exists_wayBack h.bounded hstart hcycle fun x hto hback => (hmembers x).2 ⟨hto, hback⟩
  have htargets := hway.targets
  have hlt : ∀ x ∈ start :: inner way, x < g.units.length := by
    intro x hx
    rcases List.mem_cons.1 hx with rfl | hx
    · exact hstart
    · have hmem : x ∈ way.map (·.target) := htargets ▸ List.mem_append_left _ hx
      obtain ⟨e, he, rfl⟩ := List.mem_map.1 hmem
      exact (h.bounded e (hway.mem_edges e he)).2
  -- the first edge is a statement of the first unit
  have hhead : ∃ i : Instantiation, way.head?.elim Span.nowhere (·.span) = i.span ∧
      ∃ second, ((way.map (·.target)).map g.unitAt).head? = some second ∧
        l.Asks (g.unitAt start) i second := by
    obtain ⟨e, rest, rfl⟩ := List.exists_cons_of_ne_nil hway.ne_nil
    have he : e ∈ g.edgesOf start := by cases hway <;> assumption
    obtain ⟨hmem, rfl⟩ := mem_edgesOf.1 he
    obtain ⟨k, i, k', hk, hk', hasks, hspan⟩ := h.edge e hmem
    rw [unitAt_eq hk]
    exact ⟨i, hspan, k', by simp [unitAt_eq hk'], hasks⟩
  obtain ⟨i, hspan, second, hsecond, hasks⟩ := hhead
  refine ⟨g.unitAt start, (inner way).map g.unitAt, i, ?_, fun k hk => ?_, ?_, ?_, ⟨start, ?_, ?_⟩,
    second, ?_, hasks⟩
  · have hcycleFrom : g.cycleFrom members start = (start :: inner way, i.span) := by
      rw [cycleFrom, hfound, ← hspan]
      rfl
    rw [checkAcyclic, if_neg hrefused]
    simp [hfirst, hmin, hcycleFrom, entityAt_eq, Function.comp_def]
  · rw [← List.map_cons] at hk
    obtain ⟨x, hx, rfl⟩ := List.mem_map.1 hk
    exact List.mem_of_getElem? (getElem?_units (hlt x hx))
  · rw [← List.map_cons]
    refine List.Nodup.map_on (fun x hx y hy heq => ?_) hnodup
    exact h.unit_inj (getElem?_units (hlt x hx)) (heq ▸ getElem?_units (hlt y hy))
  · have hchain := h.isChain_of_way hway
    rw [htargets] at hchain
    simpa using hchain
  · exact getElem?_units hstart
  · intro t k ht hk hcycle
    exact hbefore t ht ((h.transGen_self_iff hk).2 hcycle)
  · rw [htargets] at hsecond
    simpa using hsecond

/-- The first unit of a cycle reaches itself. -/
theorem CycleTold.transGen {l : Library} {first : UnitKey} {others : List UnitKey} {i : Instantiation}
    (h : CycleTold l g first others i) : TransGen l.Instantiates first first := by
  have hway : (first :: others ++ [first]).Pairwise (TransGen l.Instantiates) :=
    (h.cycle.imp fun _ _ hstep => TransGen.single hstep).pairwise
  exact (List.pairwise_cons.1 hway).1 first (by simp)

/-- The place at which a cycle is told is one at which the library asks for an instance. -/
theorem CycleTold.placed {l : Library} {first : UnitKey} {others : List UnitKey} {i : Instantiation}
    {P : Span → Prop} (h : CycleTold l g first others i) (hl : l.Placed P) : P i.span := by
  obtain ⟨_, -, _, a, _, _, hbinds, hi, -⟩ := h.statement
  obtain ⟨-, -, -, ha⟩ := hbinds.spec
  exact hl a ha i hi

theorem checkAcyclic_eq_ok (hA : algorithms.Correct) (hg : g.Bounded) (hacyclic : g.Acyclic) :
    g.checkAcyclic algorithms = .ok () :=
  if_pos ((toposort_isSome_iff hA hg).2 hacyclic)

/-- What is told does not depend on the algorithms, as long as they are correct. -/
theorem checkAcyclic_congr {algorithms' : GraphAlgorithms} (hA : algorithms.Correct)
    (hA' : algorithms'.Correct) (hg : g.Bounded) :
    g.checkAcyclic algorithms = g.checkAcyclic algorithms' := by
  by_cases hacyclic : g.Acyclic
  · rw [checkAcyclic_eq_ok hA hg hacyclic, checkAcyclic_eq_ok hA' hg hacyclic]
  obtain ⟨members, start, hfirst, hmin, -, hcycle, hbefore, hmembers⟩ := firstCyclic?_spec hA hg hacyclic
  obtain ⟨members', start', hfirst', hmin', -, hcycle', hbefore', hmembers'⟩ :=
    firstCyclic?_spec hA' hg hacyclic
  -- both start with the first unit on a cycle, so they have the same members
  obtain rfl : start = start' := by
    rcases Nat.lt_trichotomy start start' with hlt | heq | hlt
    exacts [absurd hcycle (hbefore' _ hlt), heq, absurd hcycle' (hbefore _ hlt)]
  have hsame : ∀ x, x ∈ members ↔ x ∈ members' := fun x => (hmembers x).trans (hmembers' x).symm
  have hrefused : ∀ {A : GraphAlgorithms}, A.Correct → ¬ (A.toposort g).isSome = true := fun hA hsome =>
    hacyclic ((toposort_isSome_iff hA hg).1 hsome)
  rw [checkAcyclic, checkAcyclic, if_neg (hrefused hA), if_neg (hrefused hA'), hfirst, hfirst']
  simp only [hmin, hmin', Option.getD_some, cycleFrom, wayBack_congr hsame]

/-- A graph that passes has no cycle. -/
theorem Exact.acyclic {l : Library} {top : UnitKey} (h : Exact l top g) (hA : algorithms.Correct)
    (hok : g.checkAcyclic algorithms = .ok ()) : g.Acyclic := by
  by_contra hcyclic
  obtain ⟨_, _, _, herror, -⟩ := h.cycleTold hA hcyclic
  rw [hok] at herror
  cases herror

/-- A graph is refused exactly if some unit that is reached from the top unit reaches itself, and what
is told then is a cycle, and never nowhere. -/
theorem checkAcyclic_exact (hA : algorithms.Correct) {l : Library} {name : String} {span : Span}
    (h : build l name span = .ok g) :
    ∃ e a, l.bindUnit name none span = .ok (e, a) ∧
      ((∃ err, g.checkAcyclic algorithms = .error err) ↔
        ∃ k, ReflTransGen l.Instantiates ⟨name, a.name⟩ k ∧ TransGen l.Instantiates k k) ∧
      ∀ err, g.checkAcyclic algorithms = .error err → ∃ first others i,
        err = .cycle ((first :: others ++ [first]).map (·.entity)) i.span ∧
          CycleTold l g first others i ∧
          ∀ files, l = (Workspace.ofFiles files).library → files.length ≤ Span.noFile →
            i.span.isNowhere = false := by
  obtain ⟨⟨e, a⟩, htop, -⟩ := Result.bind_eq_ok.1 h
  have hexact := build_exact h htop
  refine ⟨e, a, htop, ?_⟩
  by_cases hacyclic : g.Acyclic
  · have hok := checkAcyclic_eq_ok hA hexact.bounded hacyclic
    refine ⟨⟨fun ⟨err, herr⟩ => ?_, fun ⟨k, hreached, hcycle⟩ => ?_⟩, fun err herr => ?_⟩
    · rw [hok] at herr
      cases herr
    · exact absurd hcycle (hexact.not_transGen hacyclic (hexact.mem_units.2 hreached))
    · rw [hok] at herr
      cases herr
  · obtain ⟨first, others, i, herror, htold⟩ := hexact.cycleTold hA hacyclic
    refine ⟨⟨fun _ => ⟨first, ?_, ?_⟩, fun _ => ⟨_, herror⟩⟩, fun err herr => ?_⟩
    · exact hexact.mem_units.1 (htold.units first List.mem_cons_self)
    · exact htold.transGen
    · obtain rfl := Except.error.inj (herr.symm.trans herror)
      refine ⟨first, others, i, rfl, htold, fun files hl hfiles => ?_⟩
      have hfile := htold.placed (hl ▸ Workspace.ofFiles_placed files)
      exact beq_false_of_ne (Nat.ne_of_lt (Nat.lt_of_lt_of_le hfile hfiles))

/-- Two entities that ask for each other, the second one in a loop that has no round. -/
def ring : Library :=
  (Workspace.ofFiles [("ring.vhd", "entity a is end;
entity b is end;
architecture x of a is begin u : b; end;
architecture x of b is begin g : for i in 1 to 0 generate v : a; end generate; end;")]).library

theorem checkAcyclic_exact_ring : GraphAlgorithms.search.Correct ∧ ∃ g, build ring "a" .nowhere = .ok g ∧
    g.checkAcyclic = .error (.cycle ["a", "b", "a"] ⟨0, 63, 69⟩) ∧
    ∃ first others i, ["a", "b", "a"] = (first :: others ++ [first]).map (·.entity) ∧
      i.span = ⟨0, 63, 69⟩ ∧ i.span.isNowhere = false ∧ CycleTold ring g first others i := by
  refine ⟨GraphAlgorithms.search_correct, ?_⟩
  have hcheck : (build ring "a" .nowhere).toOption.map (·.checkAcyclic) =
      some (.error (.cycle ["a", "b", "a"] ⟨0, 63, 69⟩)) := by decide +kernel
  cases h : build ring "a" .nowhere with
  | error e => rw [h] at hcheck; cases hcheck
  | ok g =>
    rw [h] at hcheck
    have herr := Option.some.inj hcheck
    obtain ⟨_, _, -, -, htold⟩ := checkAcyclic_exact GraphAlgorithms.search_correct h
    obtain ⟨first, others, i, heq, hcycle, hplace⟩ := htold _ herr
    obtain ⟨hunits, hspan⟩ := DesignError.cycle.inj heq
    exact ⟨g, rfl, herr, first, others, i, hunits, hspan.symm, hplace _ rfl (by decide), hcycle⟩

end HdlLint.Design.UnitGraph
