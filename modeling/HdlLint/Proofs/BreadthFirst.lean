import Mathlib.Data.List.Nodup
import HdlLint.Proofs.Provenance
import HdlLint.Proofs.Unrolling

/-!
# The order of the instances

The instances of a hierarchy are numbered in the order in which they are asked for. Put one behind the
other, the numbers that they give to those below them are `1, 2, 3, …` (`Worklist.Arena.numbers`), and
from this the rest follows: every instance but the first has one parent, which has a lower number, and
the parents are in the order of their children, so that no instance is numbered before one of a lesser
depth (`Hierarchy.Depth.le_of_le`).

`elaborate_breadthFirst` also says which instances these are. The children of an instance are what its
unrolling asks for, and the path of a child is made of the path of its parent, the rounds of the loops
around the statement that asks for it, and the label of that statement.
-/

namespace HdlLint.Design
open Syntax (Library)
open Relation (ReflTransGen)

/-! ### Paths of copies -/

/-- The part stands among these parts, inside of the loops `gs`, the outermost first. -/
inductive Enclosed : List Part → List Syntax.Generate → Part → Prop
  | here {xs : List Part} {x : Part} : x ∈ xs → Enclosed xs [] x
  | inside {xs : List Part} {x : Part} {g : Syntax.Generate} {gs : List Syntax.Generate} :
    .stmt (.generate g) ∈ xs → Enclosed (partsOf g) gs x → Enclosed xs (g :: gs) x

theorem Enclosed.cons {xs : List Part} {x y : Part} {gs : List Syntax.Generate}
    (h : Enclosed xs gs x) : Enclosed (y :: xs) gs x := by
  cases h with
  | here hx => exact .here (List.mem_cons_of_mem _ hx)
  | inside hg h => exact .inside (List.mem_cons_of_mem _ hg) h

theorem stmt_mem_stmts {c : Syntax.Concurrent} {cs : List Syntax.Concurrent} :
    .stmt c ∈ cs.map Part.stmt ↔ c ∈ cs := by
  simp

theorem stmt_mem_partsOf {c : Syntax.Concurrent} {g : Syntax.Generate} :
    .stmt c ∈ partsOf g ↔ c ∈ g.body := by
  simp [partsOf]

/-- The way into rounds of loops, one segment for each of them. -/
def roundSegments (gs : List Syntax.Generate) (ks : List Int) : Path :=
  List.zipWith (fun g k => .generate g.label k) gs ks

/-- The path to a copy has a segment for each loop around it. -/
theorem Reaches.path {ν : Site → SignalId} {o q : Place} {xs : List Part} {y : Part}
    (h : Reaches ν o xs q y) : ∃ gs ks, Enclosed xs gs y ∧ ks.length = gs.length ∧
      q.rounds.length = o.rounds.length + gs.length ∧ q.path = o.path ++ roundSegments gs ks := by
  induction h with
  | here => exact ⟨[], [], .here List.mem_cons_self, rfl, rfl, (List.append_nil _).symm⟩
  | @later o o' q x y xs hnext _ ih =>
    obtain ⟨gs, ks, hgs, hlen, hrounds, hpath⟩ := ih
    obtain ⟨scope, rfl⟩ := Place.next_eq hnext
    exact ⟨gs, ks, hgs.cons, hlen, hrounds, hpath⟩
  | @inside o q y g r k xs _ _ ih =>
    obtain ⟨gs, ks, hgs, hlen, hrounds, hpath⟩ := ih
    refine ⟨g :: gs, k :: ks, .inside List.mem_cons_self hgs, congrArg (· + 1) hlen, ?_, ?_⟩
    · rw [hrounds, Place.round, List.length_append, List.length_cons]
      exact Nat.add_right_comm ..
    · rw [hpath, Place.round, List.append_assoc]
      rfl

variable {l : Library}

/-! ### Numbers -/

/-- The numbers are those of what the unrolling of the instance asks for. They are successive, and under
them this is found among the entries, which give the unit and the path of each instance. -/
def Instance.ListedIn (l : Library) (entries : List (UnitKey × Path)) (numbers : List Nat) (i : Instance) :
    Prop :=
  ∃ (p : Pending) (u : Unrolling) (children : List Pending) (first : Nat),
    p.Bound l ∧ p.unit = i.unit ∧ p.path = i.path ∧ u.Of l p i children ∧
      numbers = List.range' first children.length ∧
      ∀ (j : Nat) c, children[j]? = some c → entries[first + j]? = some (c.unit, c.path)

theorem Unrolling.Of.withChildren {u : Unrolling} {p : Pending} {i : Instance} {children : List Pending}
    (h : u.Of l p i children) (ns : List Nat) : u.Of l p { i with children := ns } children :=
  ⟨h.opening, h.signals, h.processes, h.children, h.order, h.numbered, h.answers⟩

theorem Instance.ListedIn.grow {entries more : List (UnitKey × Path)} {numbers : List Nat} {i : Instance}
    (h : i.ListedIn l entries numbers) (ns : List Nat) :
    Instance.ListedIn l (entries ++ more) numbers { i with children := ns } := by
  obtain ⟨p, u, children, first, hp, hunit, hpath, hu, hchildren, hentries⟩ := h
  refine ⟨p, u, children, first, hp, hunit, hpath, hu.withChildren ns, hchildren, fun j c hc => ?_⟩
  have hj := hentries j c hc
  rw [List.getElem?_append_left (List.getElem?_eq_some_iff.1 hj).1, hj]

theorem Pending.Gives.unrolling {p : Pending} {children : List Pending} {i : Instance}
    (h : p.Gives l children i) : ∃ u : Unrolling, u.Of l p i children := by
  obtain ⟨i₀, ns, hbuild, rfl⟩ := h
  obtain ⟨u, hu⟩ := Pending.build_unrolling hbuild
  exact ⟨u, hu.withChildren ns⟩

/-- The instance of a number was there before, or it has been put at the end. -/
theorem getElem?_concat_eq_some {is : List Instance} {i j : Instance} {m : Nat}
    (h : (is ++ [i])[m]? = some j) : is[m]? = some j ∨ m = is.length ∧ i = j := by
  have hlt := (List.getElem?_eq_some_iff.1 h).1
  rw [List.length_append, List.length_singleton] at hlt
  rcases Nat.lt_or_eq_of_le (Nat.le_of_lt_succ hlt) with hm | rfl
  · rw [List.getElem?_append_left hm] at h
    exact .inl h
  · rw [List.getElem?_concat_length] at h
    exact .inr ⟨rfl, Option.some.inj h⟩

namespace Worklist

def entries (w : Worklist) : List (UnitKey × Path) :=
  w.built.map (fun i => (i.unit, i.path)) ++ w.queue.map fun p => (p.unit, p.path)

/-- What every step keeps. -/
structure Arena (l : Library) (w : Worklist) : Prop where
  bound : ∀ p ∈ w.queue, p.Bound l
  owned : w.Owned
  root : ∃ k, w.entries[0]? = some (k, [])
  numbers : (List.range w.built.length).flatMap w.childrenOf = List.range' 1 (w.entries.length - 1)
  later : ∀ m n, n ∈ w.childrenOf m → m < n
  listed : ∀ (m : Nat) i, w.built[m]? = some i → i.ListedIn l w.entries (w.childrenOf m)

theorem Arena.start {p : Pending} (hp : p.Bound l) (hpath : p.path = []) (hparent : p.parent = none) :
    Arena l ⟨[], [p]⟩ := by
  have howned := owned_start hparent
  refine ⟨fun q hq => ?_, howned, ⟨p.unit, ?_⟩, rfl, fun m n hn => ?_, fun m i hi => ?_⟩
  · rwa [List.mem_singleton.1 hq]
  · rw [← hpath]
    rfl
  · rw [childrenOf_eq_nil howned (Nat.zero_le m)] at hn
    cases hn
  · cases hi

theorem length_entries (w : Worklist) : w.entries.length = w.built.length + w.queue.length := by
  rw [entries, List.length_append, List.length_map, List.length_map]

/-- What is built keeps its number, and what it asks for comes behind the others. -/
theorem entries_build {built : List Instance} {queue : List Pending} {p : Pending} {i : Instance}
    (hunit : i.unit = p.unit) (hpath : i.path = p.path) (children : List Pending) :
    entries ⟨attach built p.parent i, queue ++ children.map (Pending.askedBy built.length)⟩ =
      entries ⟨built, p :: queue⟩ ++ children.map fun c => (c.unit, c.path) := by
  have hasked : (children.map (Pending.askedBy built.length)).map (fun c => (c.unit, c.path)) =
      children.map fun c => (c.unit, c.path) := List.map_map
  simp only [entries, map_attach (f := fun i => (i.unit, i.path)) fun _ _ => rfl, List.map_append,
    List.map_cons, hasked, hunit, hpath, List.append_assoc, List.cons_append, List.nil_append]

theorem Arena.step {w w' : Worklist} (hw : w.Arena l) (hstep : Step l w w') : w'.Arena l := by
  cases hstep with
  | @build built p queue children i hbuild =>
    have hp := hw.bound p List.mem_cons_self
    obtain ⟨hunit, hasks⟩ := Pending.build_asks hp hbuild
    have hpath := Pending.path_of_build hbuild
    obtain ⟨k, hk⟩ := hw.root
    have hsize := length_entries ⟨built, p :: queue⟩
    have hentries := @entries_build built queue p i hunit hpath children
    have hchildren := @childrenOf_build built p queue children i hw.owned (Pending.children_of_build hbuild)
    refine ⟨List.forall_mem_append.2 ⟨fun q hq => ?_, List.forall_mem_map.2 fun c hc => ?_⟩,
      hw.owned.build i children, ⟨k, ?_⟩, ?_, fun m n hn => ?_, fun m j hj => ?_⟩
    · exact hw.bound q (List.mem_cons_of_mem _ hq)
    · exact (hasks c hc).1
    · rw [hentries, List.getElem?_append_left (List.getElem?_eq_some_iff.1 hk).1, hk]
    · have hold : (List.range built.length).flatMap (childrenOf ⟨attach built p.parent i,
          queue ++ children.map (Pending.askedBy built.length)⟩) =
          (List.range built.length).flatMap (childrenOf ⟨built, p :: queue⟩) := by
        refine List.flatMap_congr fun m hm => ?_
        rw [hchildren, if_neg (Nat.ne_of_lt (List.mem_range.1 hm))]
      have hnext : built.length + (p :: queue).length = 1 + (built.length + queue.length) := by
        rw [List.length_cons]
        omega
      have hall : built.length + (p :: queue).length + children.length - 1
          = built.length + queue.length + children.length := by omega
      have hprevious : built.length + (p :: queue).length - 1 = built.length + queue.length := by omega
      dsimp only
      rw [length_attach, List.range_succ, List.flatMap_append, hold, hw.numbers, List.flatMap_singleton,
        hchildren, if_pos rfl, hentries, List.length_append, List.length_map, hsize, hall, hprevious, hnext]
      exact List.range'_append_1
    · rw [hchildren] at hn
      split at hn
      · next hm =>
        have hfirst := (List.mem_range'_1.1 hn).1
        rw [List.length_cons] at hfirst
        omega
      · exact hw.later m n hn
    · obtain ⟨j₀, ns, hj₀, rfl⟩ := attach_getElem? hj
      rw [hentries, hchildren]
      rcases getElem?_concat_eq_some hj₀ with hj₀ | ⟨rfl, rfl⟩
      · rw [if_neg (Nat.ne_of_lt (List.getElem?_eq_some_iff.1 hj₀).1)]
        exact (hw.listed m j₀ hj₀).grow ns
      · rw [if_pos rfl]
        obtain ⟨u, hu⟩ := Pending.build_unrolling hbuild
        refine ⟨p, u, children, _, hp, hunit.symm, hpath.symm, hu.withChildren ns, rfl, fun n c hc => ?_⟩
        rw [← hsize, List.getElem?_append_right (Nat.le_add_right ..), Nat.add_sub_cancel_left,
          List.getElem?_map, hc]
        rfl

theorem Arena.steps {w w' : Worklist} (hw : w.Arena l) (hsteps : ReflTransGen (Step l) w w') :
    w'.Arena l :=
  kept_of_steps (fun _ _ hw => hw.step) hw hsteps

theorem flatMap_childrenOf_done (is : List Instance) :
    (List.range is.length).flatMap (childrenOf ⟨is, []⟩) = is.flatMap (·.children) := by
  have hmap : (List.range is.length).map (childrenOf ⟨is, []⟩) = is.map (·.children) := by
    refine List.ext_getElem (by simp) fun m hm hm' => ?_
    rw [List.length_map] at hm'
    rw [List.getElem_map, List.getElem_map, List.getElem_range, childrenOf_done, List.getElem?_eq_getElem hm']
    rfl
  rw [List.flatMap_def, List.flatMap_def, hmap]

end Worklist

/-! ### Depth -/

namespace Hierarchy

/-- The instance of the first number has that of the second among its children. -/
def Parent (d : Hierarchy) (m n : Nat) : Prop := ∃ i, d.instances[m]? = some i ∧ n ∈ i.children

/-- The first number is that of an instance as many steps down as the second says. -/
inductive Depth (d : Hierarchy) : Nat → Nat → Prop
  | root : d.Depth 0 0
  | child {m n k : Nat} : d.Depth m k → d.Parent m n → d.Depth n (k + 1)

/-- Instances are numbered in the order in which they are children. -/
structure Successive (d : Hierarchy) : Prop where
  numbers : d.instances.flatMap (·.children) = List.range' 1 (d.instances.length - 1)
  later : ∀ m n, d.Parent m n → m < n

namespace Successive
variable {d : Hierarchy} {m m' n n' : Nat}

theorem pairwise (h : d.Successive) : (∀ i ∈ d.instances, i.children.Pairwise (· < ·)) ∧
    d.instances.Pairwise fun i j => ∀ n ∈ i.children, ∀ n' ∈ j.children, n < n' := by
  rw [← List.pairwise_flatMap, h.numbers]
  exact List.pairwise_lt_range'

theorem lt_of_lt (h : d.Successive) (hn : d.Parent m n) (hn' : d.Parent m' n') (hlt : m < m') :
    n < n' := by
  obtain ⟨i, hi, hmem⟩ := hn
  obtain ⟨i', hi', hmem'⟩ := hn'
  obtain ⟨hm, rfl⟩ := List.getElem?_eq_some_iff.1 hi
  obtain ⟨hm', rfl⟩ := List.getElem?_eq_some_iff.1 hi'
  exact List.pairwise_iff_getElem.1 h.pairwise.2 m m' hm hm' hlt n hmem n' hmem'

theorem parent_unique (h : d.Successive) (hn : d.Parent m n) (hn' : d.Parent m' n) : m = m' := by
  rcases Nat.lt_trichotomy m m' with hlt | heq | hlt
  · exact absurd (h.lt_of_lt hn hn' hlt) (Nat.lt_irrefl n)
  · exact heq
  · exact absurd (h.lt_of_lt hn' hn hlt) (Nat.lt_irrefl n)

theorem exists_parent_iff (h : d.Successive) : (∃ m, d.Parent m n) ↔ 0 < n ∧ n < d.instances.length := by
  have hmem : (∃ m, d.Parent m n) ↔ n ∈ d.instances.flatMap (·.children) := by
    rw [List.mem_flatMap]
    constructor
    · rintro ⟨m, i, hi, hn⟩
      exact ⟨i, List.mem_of_getElem? hi, hn⟩
    · rintro ⟨i, hi, hn⟩
      obtain ⟨m, hm⟩ := List.mem_iff_getElem?.1 hi
      exact ⟨m, i, hm, hn⟩
  rw [hmem, h.numbers, List.mem_range'_1]
  omega

/-- No instance is numbered before one that is less deep. -/
theorem depth_le (h : d.Successive) {k k' : Nat} (hle : m ≤ n) (hm : d.Depth m k) (hn : d.Depth n k') :
    k ≤ k' := by
  induction hn generalizing m k with
  | root =>
    cases hm with
    | root => exact Nat.le_refl 0
    | child _ hparent =>
      have hlt := h.later _ _ hparent
      omega
  | @child m₁ n k₁ _ hparent ih =>
    cases hm with
    | root => exact Nat.zero_le _
    | @child m₂ _ k₂ hdepth hparent' =>
      -- parents are in the order of their children
      have hparents : m₂ ≤ m₁ := by
        by_contra hlt
        have hlt' := h.lt_of_lt hparent hparent' (Nat.lt_of_not_le hlt)
        omega
      exact Nat.succ_le_succ (ih hparents hdepth)

theorem exists_depth (h : d.Successive) (hn : n < d.instances.length) : ∃ k, d.Depth n k := by
  induction n using Nat.strong_induction_on with
  | _ n ih =>
    rcases Nat.eq_zero_or_pos n with rfl | hpos
    · exact ⟨0, .root⟩
    · obtain ⟨m, hparent⟩ := h.exists_parent_iff.2 ⟨hpos, hn⟩
      have hlt := h.later m n hparent
      obtain ⟨k, hk⟩ := ih m hlt (Nat.lt_trans hlt hn)
      exact ⟨k + 1, .child hk hparent⟩

end Successive

end Hierarchy

/-! ### The tree of instances -/

/-- A statement of the unit asks for the pending instance: in one round of each of the loops `gs`, inside
of which it stands. The path leads through these rounds to the label of the statement. -/
def Unrolling.AsksFor (u : Unrolling) (l : Library) (p c : Pending) : Prop :=
  ∃ q s gs ks, u.Copy p q (.stmt (.instantiation s)) ∧ instantiate l q.scope q.path s = .ok c ∧
    Enclosed (p.architecture.body.map .stmt) gs (.stmt (.instantiation s)) ∧
    q.rounds.length = gs.length ∧ ks.length = gs.length ∧ q.path = p.path ++ roundSegments gs ks ∧
    c.path = p.path ++ roundSegments gs ks ++ [.inst s.label]

theorem Unrolling.Of.asksFor {u : Unrolling} {p c : Pending} {i : Instance} {children : List Pending}
    (h : u.Of l p i children) (hc : c ∈ children) : u.AsksFor l p c := by
  rw [h.children] at hc
  obtain ⟨⟨site, item⟩, hm, hitem⟩ := List.mem_filterMap.1 hc
  obtain ⟨q, x, hq, -, hdescribes⟩ := h.answers.sound _ hm
  cases hdescribes with
  | signal _ => cases hitem
  | process _ _ => cases hitem
  | @child s c' hinstantiate =>
    obtain rfl := Option.some.inj hitem
    obtain ⟨gs, ks, hgs, hlen, hrounds, hpath⟩ := hq.path
    refine ⟨q, s, gs, ks, hq, hinstantiate, hgs, hrounds.trans (Nat.zero_add _), hlen, hpath, ?_⟩
    rw [path_of_instantiate hinstantiate, hpath]
    rfl

/-- The instances are the tree of what they ask for, level after level. -/
structure Hierarchy.BreadthFirst (l : Library) (d : Hierarchy) : Prop where
  root : ∃ i, d.instances[0]? = some i ∧ i.path = []
  /-- Put one behind the other, the lists of children hold every number but zero once. -/
  numbers : d.instances.flatMap (·.children) = List.range' 1 (d.instances.length - 1)
  parent : ∀ n, 0 < n → n < d.instances.length → ∃! m, d.Parent m n
  later : ∀ m n, d.Parent m n → m < n
  ascending : ∀ i ∈ d.instances, i.children.Pairwise (· < ·)
  depth : ∀ n < d.instances.length, ∃! k, d.Depth n k
  byDepth : ∀ m n k k', m ≤ n → d.Depth m k → d.Depth n k' → k ≤ k'
  /-- The children of an instance are what its unrolling asks for. -/
  children : ∀ i ∈ d.instances, ∃ (p : Pending) (u : Unrolling) (children : List Pending),
    p.Bound l ∧ p.unit = i.unit ∧ p.path = i.path ∧ u.Of l p i children ∧
    children.length = i.children.length ∧
    ∀ (j : Nat) n, i.children[j]? = some n → ∃ c i', children[j]? = some c ∧ u.AsksFor l p c ∧
      d.instances[n]? = some i' ∧ i'.unit = c.unit ∧ i'.path = c.path

theorem Worklist.Arena.breadthFirst {d : Hierarchy} (h : Worklist.Arena l ⟨d.instances, []⟩) :
    d.BreadthFirst l := by
  have hentries : (Worklist.mk d.instances []).entries = d.instances.map fun i => (i.unit, i.path) :=
    List.append_nil _
  have hsuccessive : d.Successive := by
    refine ⟨?_, fun m n hparent => h.later m n (Worklist.mem_childrenOf_done.2 hparent)⟩
    rw [← Worklist.flatMap_childrenOf_done, h.numbers, hentries, List.length_map]
  refine ⟨?_, hsuccessive.numbers, fun n hpos hlt => ?_, hsuccessive.later, hsuccessive.pairwise.1,
    fun n hlt => ?_, fun m n k k' => hsuccessive.depth_le, fun i hi => ?_⟩
  · obtain ⟨k, hk⟩ := h.root
    rw [hentries, List.getElem?_map] at hk
    obtain ⟨i, hi, heq⟩ := Option.map_eq_some_iff.1 hk
    exact ⟨i, hi, (Prod.mk.inj heq).2⟩
  · obtain ⟨m, hparent⟩ := hsuccessive.exists_parent_iff.2 ⟨hpos, hlt⟩
    exact ⟨m, hparent, fun m' hparent' => hsuccessive.parent_unique hparent' hparent⟩
  · obtain ⟨k, hk⟩ := hsuccessive.exists_depth hlt
    refine ⟨k, hk, fun k' hk' => ?_⟩
    exact Nat.le_antisymm (hsuccessive.depth_le (Nat.le_refl n) hk' hk)
      (hsuccessive.depth_le (Nat.le_refl n) hk hk')
  · obtain ⟨m, hm⟩ := List.getElem?_of_mem hi
    obtain ⟨p, u, children, first, hp, hunit, hpath, hu, hchildren, hlisted⟩ := h.listed m i hm
    rw [Worklist.childrenOf_done, hm, Option.elim_some] at hchildren
    refine ⟨p, u, children, hp, hunit, hpath, hu, ?_, fun j n hn => ?_⟩
    · rw [hchildren, List.length_range']
    · rw [hchildren] at hn
      obtain ⟨hj, rfl⟩ := List.getElem?_eq_some_iff.1 hn
      rw [List.length_range'] at hj
      have hc : children[j]? = some children[j] := List.getElem?_eq_getElem hj
      have hentry := hlisted j _ hc
      rw [hentries, List.getElem?_map] at hentry
      obtain ⟨i', hi', heq⟩ := Option.map_eq_some_iff.1 hentry
      obtain ⟨hunit', hpath'⟩ := Prod.mk.inj heq
      refine ⟨children[j], i', hc, hu.asksFor (List.getElem_mem hj), ?_, hunit', hpath'⟩
      rw [List.getElem_range', Nat.one_mul]
      exact hi'

theorem arena_of_elaborate {name : String} {overrides : Overrides} {d : Hierarchy}
    (h : elaborate l name overrides = .ok d) : Worklist.Arena l ⟨d.instances, []⟩ :=
  Worklist.holds_of_elaborate (fun _ => .start) (fun _ _ hw => hw.step) h

theorem elaborate_breadthFirst {name : String} {overrides : Overrides} {d : Hierarchy}
    (h : elaborate l name overrides = .ok d) : d.BreadthFirst l := by
  obtain ⟨t, htop, helaborate⟩ := Result.bind_eq_ok.1 h
  obtain ⟨generics, hgenerics, -⟩ := Result.bind_eq_ok.1 helaborate
  obtain ⟨w, hsteps, hhalt⟩ := ends_of_findTop htop hgenerics
  rw [h] at hhalt
  cases hhalt with
  | done =>
    have hstart : (t.start generics).Arena l := .start (exact_of_findTop htop).2.2 rfl rfl
    exact (hstart.steps hsteps).breadthFirst

theorem elaborate_breadthFirst_inverterPair : ∃ d, elaborate inverterPair "Pair" [] = .ok d ∧
    d.instances.map (·.children) = [[1, 2], [], []] ∧
    d.instances.map (·.path) = [[], [.generate "halves" 0, .inst "half"],
      [.generate "halves" 1, .inst "half"]] ∧ d.BreadthFirst inverterPair := by
  have htree : (elaborate inverterPair "Pair" []).toOption.map
      (fun d => (d.instances.map (·.children), d.instances.map (·.path))) = some ([[1, 2], [], []],
        [[], [.generate "halves" 0, .inst "half"], [.generate "halves" 1, .inst "half"]]) := by
    decide +kernel
  cases h : elaborate inverterPair "Pair" [] with
  | error e => rw [h] at htree; cases htree
  | ok d =>
    rw [h] at htree
    obtain ⟨hchildren, hpaths⟩ := Prod.mk.inj (Option.some.inj htree)
    exact ⟨d, rfl, hchildren, hpaths, elaborate_breadthFirst h⟩

end HdlLint.Design
