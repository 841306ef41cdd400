import Mathlib.Data.List.Nodup
import Mathlib.Data.List.Chain
import Mathlib.Logic.Relation
import HdlLint.Design.Elaborate
import HdlLint.Proofs.Cycles
import HdlLint.Proofs.Faults

/-!
# Building a hierarchy comes to an end

Instances wait in a queue; the one that waits longest is built, and those that it asks for wait behind
the others (`Worklist.Step`). An instance has its number among the children of its parent only when it is
built, but the number can be told before: `Worklist.childrenOf` counts on from the instances that are
built, and with this count the children of an instance never change once it is built, and have successive
numbers (`Worklist.childrenOf_build`). `worklist_ends`: if the unit graph of the top unit has been built and
has no cycle, the queue runs empty, or an instance cannot be built, after finitely many steps, with
what `elaborate` gives. On the way every instance is one of a unit of the graph, and every instance
that asks for another one does so along an edge of the graph (`Worklist.Within`); so no chain of
instances is longer than the list of units, and none of them fails for want of a unit.

The levels of the hierarchy are the queue cut into pieces. An instance `d` levels down is at the end
of a chain of `d + 1` units, each of which asks for the next (`Pending.AtDepth`). As no unit reaches
itself these are distinct, so the levels end before the units do.
-/

namespace HdlLint.Design
open Syntax (Library)
open Relation (ReflTransGen TransGen)

variable {l : Library} {g : UnitGraph} {top : UnitKey}

/-! ### The queue -/

/-- The instances that are built, and those that wait, the first of them the longest. -/
structure Worklist where
  built : List Instance
  queue : List Pending

namespace Worklist

/-- Builds the instance that waits longest. Those that it asks for wait behind the others. -/
inductive Step (l : Library) : Worklist → Worklist → Prop
  | build {built : List Instance} {p : Pending} {queue children : List Pending} {i : Instance} :
    p.build l = .ok (i, children) →
      Step l ⟨built, p :: queue⟩
        ⟨attach built p.parent i, queue ++ children.map (Pending.askedBy built.length)⟩

/-- Nothing waits, or what waits longest cannot be built. -/
inductive Halts (l : Library) : Worklist → Result (List Instance) → Prop
  | done {built : List Instance} : Halts l ⟨built, []⟩ (.ok built)
  | fault {built : List Instance} {p : Pending} {queue : List Pending} {e : DesignError} :
    p.build l = .error e → Halts l ⟨built, p :: queue⟩ (.error e)

/-- The steps lead to a halt with this result. -/
def Ends (l : Library) (w : Worklist) (r : Result (List Instance)) : Prop :=
  ∃ w', ReflTransGen (Step l) w w' ∧ w'.Halts l r

/-- What every step keeps holds of whatever is reached. -/
theorem kept_of_steps {P : Worklist → Prop} (hP : ∀ w w', P w → Step l w w' → P w') {w w' : Worklist}
    (hw : P w) (hsteps : ReflTransGen (Step l) w w') : P w' := by
  induction hsteps with
  | refl => exact hw
  | tail _ hstep ih => exact hP _ _ ih hstep

/-- The steps from a list that ends go no other way. -/
theorem Ends.acc {w : Worklist} {r : Result (List Instance)} (h : w.Ends l r) :
    Acc (fun w' w => Step l w w') w := by
  obtain ⟨w', hsteps, hhalt⟩ := h
  induction hsteps using ReflTransGen.head_induction_on with
  | refl =>
    refine ⟨_, fun w'' hstep => ?_⟩
    cases hhalt with
    | done => cases hstep
    | fault herror =>
      cases hstep with
      | build hok => rw [herror] at hok; cases hok
  | head hstep _ ih =>
    refine ⟨_, fun w'' hstep' => ?_⟩
    cases hstep with
    | build hok =>
      cases hstep' with
      | build hok' =>
        obtain ⟨rfl, rfl⟩ := Prod.mk.inj (Except.ok.inj (hok.symm.trans hok'))
        exact ih

/-! ### Levels -/

/-- The first of a level is built, while the others of the level and then `rest` wait. -/
theorem Step.ofLevel {built : List Instance} {p : Pending} {ps rest children : List Pending}
    {i : Instance} (h : p.build l = .ok (i, children)) : Step l ⟨built, p :: ps ++ rest⟩
      ⟨attach built p.parent i, ps ++ (rest ++ children.map (Pending.askedBy built.length))⟩ := by
  rw [← List.append_assoc]
  exact .build h

theorem steps_of_buildLevel {ps rest below : List Pending} {built all : List Instance}
    (h : buildLevel l built ps = .ok (all, below)) :
    ReflTransGen (Step l) ⟨built, ps ++ rest⟩ ⟨all, rest ++ below⟩ := by
  induction ps generalizing rest below built with
  | nil => cases h; simpa using ReflTransGen.refl
  | cons p ps ih =>
    obtain ⟨⟨i, children⟩, hbuild, h⟩ := Result.bind_eq_ok.1 h
    obtain ⟨⟨all', more⟩, hrest, h⟩ := Result.bind_eq_ok.1 h
    cases h
    refine .head (.ofLevel hbuild) ?_
    -- the instances that the first one asks for now wait behind `rest`
    rw [← List.append_assoc rest]
    exact ih hrest

theorem ends_of_buildLevel_error {ps rest : List Pending} {built : List Instance} {e : DesignError}
    (h : buildLevel l built ps = .error e) : Ends l ⟨built, ps ++ rest⟩ (.error e) := by
  induction ps generalizing rest built with
  | nil => cases h
  | cons p ps ih =>
    rcases Result.bind_eq_error.1 h with hbuild | ⟨⟨i, children⟩, hbuild, h⟩
    · exact ⟨_, .refl, .fault hbuild⟩
    · rcases Result.bind_eq_error.1 h with hrest | ⟨_, -, h⟩
      · obtain ⟨w, hsteps, hhalt⟩ := ih hrest
        exact ⟨w, .head (.ofLevel hbuild) hsteps, hhalt⟩
      · cases h

end Worklist

/-! ### Depth -/

/-- Units of a graph without cycles, each of which asks for the next, are distinct. -/
theorem UnitGraph.Exact.length_le_of_isChain (h : g.Exact l top) (hacyclic : g.Acyclic)
    {ks : List UnitKey} (hchain : ks.IsChain l.Instantiates) (hks : ∀ k ∈ ks, k ∈ g.units) :
    ks.length ≤ g.units.length := by
  have hway : ks.Pairwise (TransGen l.Instantiates) :=
    (hchain.imp fun _ _ hstep => TransGen.single hstep).pairwise
  have hnodup : ks.Nodup := by
    refine hway.imp_of_mem fun {a b} ha _ hab heq => ?_
    subst heq
    exact h.not_transGen hacyclic (hks _ ha) hab
  exact (hnodup.subperm hks).length_le

/-- The pending instance is at the end of a chain of units of the graph, behind `d` others. -/
def Pending.AtDepth (l : Library) (g : UnitGraph) (d : Nat) (p : Pending) : Prop :=
  p.Bound l ∧ ∃ ks : List UnitKey, ks.length = d ∧ (ks ++ [p.unit]).IsChain l.Instantiates ∧
    ∀ k ∈ ks ++ [p.unit], k ∈ g.units

theorem Pending.AtDepth.lt (h : g.Exact l top) (hacyclic : g.Acyclic) {d : Nat}
    {p : Pending} (hp : p.AtDepth l g d) : d < g.units.length := by
  obtain ⟨-, ks, rfl, hchain, hks⟩ := hp
  have hlen := h.length_le_of_isChain hacyclic hchain hks
  rwa [List.length_append, List.length_singleton] at hlen

theorem Pending.AtDepth.child (h : g.Exact l top) {d : Nat} {p c : Pending} {i : Instance}
    {children : List Pending} (hp : p.AtDepth l g d) (hbuild : p.build l = .ok (i, children))
    (hc : c ∈ children) : c.AtDepth l g (d + 1) := by
  obtain ⟨hbound, ks, rfl, hchain, hks⟩ := hp
  obtain ⟨hcbound, hasks⟩ := (build_asks hbound hbuild).2 c hc
  have hp : p.unit ∈ g.units := hks _ (List.mem_append_right _ (List.mem_singleton.2 rfl))
  have hunit : c.unit ∈ g.units := h.mem_units.2 ((h.mem_units.1 hp).tail hasks)
  refine ⟨hcbound, ks ++ [p.unit], List.length_append, ?_, fun k hk => ?_⟩
  · refine List.isChain_append.2 ⟨hchain, .singleton _, fun x hx y hy => ?_⟩
    rw [List.getLast?_concat, Option.mem_some_iff] at hx
    rw [List.head?_singleton, Option.mem_some_iff] at hy
    rwa [← hx, ← hy]
  · rcases List.mem_append.1 hk with hk | hk
    · exact hks k hk
    · rwa [List.mem_singleton.1 hk]

theorem Pending.AtDepth.below (h : g.Exact l top) {d : Nat} {ps below : List Pending}
    {built all : List Instance} (hps : ∀ p ∈ ps, p.AtDepth l g d)
    (hbuild : buildLevel l built ps = .ok (all, below)) : ∀ c ∈ below, c.AtDepth l g (d + 1) := by
  induction ps generalizing built below with
  | nil => cases hbuild; exact fun c hc => absurd hc List.not_mem_nil
  | cons p ps ih =>
    obtain ⟨⟨i, children⟩, hp, hbuild⟩ := Result.bind_eq_ok.1 hbuild
    obtain ⟨⟨all', more⟩, hrest, hbuild⟩ := Result.bind_eq_ok.1 hbuild
    cases hbuild
    refine List.forall_mem_append.2 ⟨List.forall_mem_map.2 fun c hc => ?_, ?_⟩
    · have hdepth : c.AtDepth l g (d + 1) := (hps p List.mem_cons_self).child h hp hc
      exact hdepth
    · exact ih (fun q hq => hps q (List.mem_cons_of_mem _ hq)) hrest

namespace Worklist

/-- The steps come to the same end as building level after level. -/
theorem ends_of_buildLevels (h : g.Exact l top) (hacyclic : g.Acyclic) {n d : Nat}
    {level : List Pending} {built : List Instance} (hlevel : ∀ p ∈ level, p.AtDepth l g d)
    (hfuel : g.units.length ≤ d + n) : Ends l ⟨built, level⟩ (buildLevels l n built level) := by
  induction n generalizing d level built with
  | zero =>
    -- as deep as there are units, nothing waits
    cases level with
    | nil => exact ⟨_, .refl, .done⟩
    | cons p ps =>
      have hlt := (hlevel p List.mem_cons_self).lt h hacyclic
      omega
  | succ n ih =>
    cases level with
    | nil => exact ⟨_, .refl, .done⟩
    | cons p ps =>
      rw [buildLevels]
      cases hbuild : buildLevel l built (p :: ps) with
      | error e =>
        have hends : Ends l ⟨built, p :: ps ++ []⟩ (.error e) := ends_of_buildLevel_error hbuild
        rwa [List.append_nil] at hends
      | ok r =>
        obtain ⟨all, below⟩ := r
        have hlevel' : ReflTransGen (Step l) ⟨built, p :: ps ++ []⟩ ⟨all, [] ++ below⟩ :=
          steps_of_buildLevel hbuild
        rw [List.append_nil] at hlevel'
        obtain ⟨w, hsteps, hhalt⟩ := ih (Pending.AtDepth.below h hlevel hbuild) (by omega)
        exact ⟨w, hlevel'.trans hsteps, hhalt⟩

/-! ### Numbers -/

/-- The numbers, counted on from `n`, of those pending instances that the instance `m` asks for. -/
def numbersFor (m : Nat) : Nat → List Pending → List Nat
  | _, [] => []
  | n, p :: ps => if p.parent = some m then n :: numbersFor m (n + 1) ps else numbersFor m (n + 1) ps

/-- The numbers of what the instance `m` asks for, built or waiting. -/
def childrenOf (w : Worklist) (m : Nat) : List Nat :=
  (w.built[m]?).elim [] (·.children) ++ numbersFor m w.built.length w.queue

/-- What waits is asked for by instances that are built. -/
def Owned (w : Worklist) : Prop := ∀ p ∈ w.queue, ∀ m, p.parent = some m → m < w.built.length

section
variable {m n : Nat} {ps qs : List Pending}

theorem numbersFor_append :
    numbersFor m n (ps ++ qs) = numbersFor m n ps ++ numbersFor m (n + ps.length) qs := by
  induction ps generalizing n with
  | nil => rfl
  | cons p ps ih =>
    have hlen : n + 1 + ps.length = n + (p :: ps).length := by rw [List.length_cons]; omega
    simp only [List.cons_append, numbersFor, ih, hlen]
    split <;> rfl

theorem numbersFor_eq_nil (h : ∀ p ∈ ps, p.parent ≠ some m) : numbersFor m n ps = [] := by
  induction ps generalizing n with
  | nil => rfl
  | cons p ps ih =>
    obtain ⟨hp, hps⟩ := List.forall_mem_cons.1 h
    rw [numbersFor, if_neg hp, ih hps]

theorem numbersFor_askedBy : numbersFor m n (ps.map (Pending.askedBy m)) = List.range' n ps.length := by
  induction ps generalizing n with
  | nil => rfl
  | cons p ps ih =>
    have hp : (p.askedBy m).parent = some m := rfl
    rw [List.map_cons, numbersFor, if_pos hp, ih]
    rfl

end

section
variable {built : List Instance} {i : Instance} {parent : Option Nat}

theorem length_attach (parent : Option Nat) : (attach built parent i).length = built.length + 1 := by
  cases parent <;> simp [attach]

/-- To attach an instance changes no more than the children of another one. -/
theorem attach_getElem? {m : Nat} {j : Instance} (h : (attach built parent i)[m]? = some j) :
    ∃ j₀ ns, (built ++ [i])[m]? = some j₀ ∧ j = { j₀ with children := ns } := by
  cases parent with
  | none => exact ⟨j, j.children, h, rfl⟩
  | some k =>
    rw [attach, List.getElem?_modify] at h
    obtain ⟨j₀, hj₀, rfl⟩ := Option.map_eq_some_iff.1 h
    split
    · exact ⟨j₀, _, hj₀, rfl⟩
    · exact ⟨j₀, j₀.children, hj₀, rfl⟩

theorem exists_attach_getElem? (parent : Option Nat) {m : Nat} {j : Instance}
    (h : (built ++ [i])[m]? = some j) :
    ∃ ns, (attach built parent i)[m]? = some { j with children := ns } := by
  have hlt : m < (attach built parent i).length := by
    have hlt := (List.getElem?_eq_some_iff.1 h).1
    rwa [List.length_append, List.length_singleton, ← length_attach parent] at hlt
  have hget := List.getElem?_eq_getElem hlt
  obtain ⟨j₀, ns, hj₀, heq⟩ := attach_getElem? hget
  obtain rfl := Option.some.inj (h.symm.trans hj₀)
  exact ⟨ns, hget.trans (congrArg some heq)⟩

theorem map_attach {α : Type} {f : Instance → α} (hf : ∀ i ns, f { i with children := ns } = f i) :
    (attach built parent i).map f = built.map f ++ [f i] := by
  have hlast : (built ++ [i]).map f = built.map f ++ [f i] := by rw [List.map_append]; rfl
  rw [← hlast]
  refine List.ext_getElem? fun m => ?_
  rw [List.getElem?_map, List.getElem?_map]
  cases h : (attach built parent i)[m]? with
  | none =>
    have hlen : (built ++ [i]).length ≤ m := by
      rw [List.length_append, List.length_singleton, ← length_attach parent]
      exact List.getElem?_eq_none_iff.1 h
    rw [List.getElem?_eq_none hlen]
  | some j =>
    obtain ⟨j₀, ns, hj₀, rfl⟩ := attach_getElem? h
    rw [hj₀]
    exact congrArg some (hf j₀ ns)

/-- The new number goes to the parent. -/
theorem children_attach (m : Nat) : ((attach built parent i)[m]?).elim [] (·.children) =
    ((built ++ [i])[m]?).elim [] (·.children) ++
      if parent = some m ∧ m < built.length + 1 then [built.length] else [] := by
  cases parent with
  | none => simp [attach]
  | some k =>
    rw [attach, List.getElem?_modify]
    by_cases hlt : m < built.length + 1
    · have hm : m < (built ++ [i]).length := by rwa [List.length_append, List.length_singleton]
      rw [List.getElem?_eq_getElem hm]
      by_cases hk : k = m
      · simp [hk, hlt]
      · simp [hk]
    · have hm : ¬ (some k = some m ∧ m < built.length + 1) := fun h => hlt h.2
      have hnone : (built ++ [i])[m]? = none := List.getElem?_eq_none (by simp; omega)
      rw [if_neg hm, hnone]
      rfl

end

/-- When nothing waits, the children are those that the instances name. -/
theorem childrenOf_done (is : List Instance) (m : Nat) :
    childrenOf ⟨is, []⟩ m = (is[m]?).elim [] (·.children) :=
  List.append_nil _

theorem mem_childrenOf_done {is : List Instance} {m n : Nat} :
    n ∈ childrenOf ⟨is, []⟩ m ↔ ∃ i, is[m]? = some i ∧ n ∈ i.children := by
  rw [childrenOf_done]
  cases is[m]? <;> simp

/-- What is not built asks for nothing. -/
theorem childrenOf_eq_nil {w : Worklist} (howned : w.Owned) {m : Nat} (hm : w.built.length ≤ m) :
    w.childrenOf m = [] := by
  have hnone : numbersFor m w.built.length w.queue = [] :=
    numbersFor_eq_nil fun p hp h => Nat.not_lt_of_le hm (howned p hp m h)
  rw [childrenOf, hnone, List.getElem?_eq_none hm]
  rfl

/-- Once an instance is built, it is known which numbers its children have, and what is built later
changes nothing about it. -/
theorem childrenOf_build {built : List Instance} {p : Pending} {queue children : List Pending}
    {i : Instance} (howned : Owned ⟨built, p :: queue⟩) (hi : i.children = []) (m : Nat) :
    childrenOf ⟨attach built p.parent i, queue ++ children.map (Pending.askedBy built.length)⟩ m =
      if m = built.length then List.range' (built.length + (p :: queue).length) children.length
      else childrenOf ⟨built, p :: queue⟩ m := by
  have hparent : ∀ k, p.parent = some k → k < built.length := howned p List.mem_cons_self
  have hqueue : ∀ q ∈ queue, ∀ k, q.parent = some k → k < built.length :=
    fun q hq => howned q (List.mem_cons_of_mem _ hq)
  have hlen : built.length + 1 + queue.length = built.length + (p :: queue).length := by
    rw [List.length_cons]
    omega
  simp only [childrenOf, length_attach, children_attach, numbersFor_append, hlen]
  by_cases hm : m = built.length
  · subst hm
    have hp : ¬ (p.parent = some built.length ∧ built.length < built.length + 1) :=
      fun h => Nat.lt_irrefl _ (hparent _ h.1)
    have hnone : numbersFor built.length (built.length + 1) queue = [] :=
      numbersFor_eq_nil fun q hq h => Nat.lt_irrefl _ (hqueue q hq _ h)
    rw [if_pos rfl, if_neg hp, hnone, List.getElem?_concat_length, numbersFor_askedBy, List.append_nil,
      List.nil_append]
    exact congrArg (· ++ _) hi
  · have hnone : numbersFor m (built.length + (p :: queue).length)
        (children.map (Pending.askedBy built.length)) = [] := by
      refine numbersFor_eq_nil (List.forall_mem_map.2 fun c _ h => hm ?_)
      exact (Option.some.inj h).symm
    have hold : (built ++ [i])[m]? = built[m]? := by
      rcases Nat.lt_or_gt_of_ne hm with hlt | hlt
      · exact List.getElem?_append_left hlt
      · rw [List.getElem?_eq_none (by simp; omega), List.getElem?_eq_none (by omega)]
    rw [if_neg hm, hnone, hold, List.append_nil, List.append_assoc, numbersFor]
    by_cases hp : p.parent = some m
    · have hlt := hparent m hp
      rw [if_pos ⟨hp, by omega⟩, if_pos hp]
      rfl
    · rw [if_neg fun h => hp h.1, if_neg hp]
      rfl

end Worklist

/-! ### Staying inside the graph -/

/-- An instance that has just been built has no children yet. -/
theorem Pending.children_of_build {p : Pending} {i : Instance} {children : List Pending}
    (h : p.build l = .ok (i, children)) : i.children = [] := by
  rw [Pending.build_eq] at h
  obtain ⟨_, -, h⟩ := Result.bind_eq_ok.1 h
  obtain ⟨_, -, h⟩ := Result.bind_eq_ok.1 h
  obtain ⟨_, -, h⟩ := Result.bind_eq_ok.1 h
  obtain ⟨_, -, h⟩ := Result.bind_eq_ok.1 h
  cases h
  rfl

/-- An edge leads from the first unit to the second. -/
def UnitGraph.Joins (g : UnitGraph) (k k' : UnitKey) : Prop :=
  ∃ e ∈ g.edges, g.units[e.source]? = some k ∧ g.units[e.target]? = some k'

namespace Worklist

/-- The units of the instances, by number. -/
def units (w : Worklist) : List UnitKey := w.built.map Instance.unit ++ w.queue.map Pending.unit

/-- The instance of the first number has asked for that of the second. -/
def Parent (w : Worklist) (m n : Nat) : Prop := n ∈ w.childrenOf m

/-- What every step keeps. -/
structure Inv (l : Library) (g : UnitGraph) (w : Worklist) : Prop where
  unit : ∀ k ∈ w.units, k ∈ g.units
  bound : ∀ p ∈ w.queue, p.Bound l
  owned : w.Owned
  asks : ∀ m n, w.Parent m n →
    ∃ k k', w.units[m]? = some k ∧ w.units[n]? = some k' ∧ l.Instantiates k k'
  /-- Only the first instance has no parent. -/
  asked : ∀ n, 0 < n → n < w.units.length → ∃ m < n, w.Parent m n

theorem owned_start {p : Pending} (hp : p.parent = none) : Owned ⟨[], [p]⟩ := by
  intro q hq m hm
  rw [List.mem_singleton.1 hq, hp] at hm
  cases hm

theorem Inv.start (h : g.Exact l top) {p : Pending} (hp : p.Bound l) (hunit : p.unit = top)
    (hparent : p.parent = none) : Inv l g ⟨[], [p]⟩ := by
  have howned := owned_start hparent
  refine ⟨fun k hk => ?_, fun q hq => ?_, howned, fun m n hmn => ?_, fun n hn hlt => ?_⟩
  · obtain rfl := List.mem_singleton.1 hk
    exact hunit ▸ h.mem_units.2 .refl
  · rwa [List.mem_singleton.1 hq]
  · rw [Parent, childrenOf_eq_nil howned (Nat.zero_le m)] at hmn
    cases hmn
  · rw [units, List.length_append, List.length_map, List.length_map] at hlt
    simp only [List.length_nil, List.length_singleton] at hlt
    omega

theorem Owned.build {built : List Instance} {p : Pending} {queue : List Pending}
    (h : Owned ⟨built, p :: queue⟩) (i : Instance) (children : List Pending) :
    Owned ⟨attach built p.parent i, queue ++ children.map (Pending.askedBy built.length)⟩ := by
  refine List.forall_mem_append.2 ⟨fun q hq m hm => ?_, List.forall_mem_map.2 fun c _ m hm => ?_⟩
  · rw [length_attach]
    exact Nat.lt_succ_of_lt (h q (List.mem_cons_of_mem _ hq) m hm)
  · obtain rfl := Option.some.inj hm
    rw [length_attach]
    exact Nat.lt_succ_self _

/-- A step leaves the numbers as they are. The new instances come behind the others, and their parent
is the one that has been built. -/
theorem Step.grows {w w' : Worklist} (hstep : Step l w w') (hbound : ∀ p ∈ w.queue, p.Bound l)
    (howned : w.Owned) : (∀ p ∈ w'.queue, p.Bound l) ∧ w'.Owned ∧ w.built.length < w.units.length ∧
      ∃ k ks, w.units[w.built.length]? = some k ∧ w'.units = w.units ++ ks ∧
        (∀ k' ∈ ks, l.Instantiates k k') ∧
        ∀ m n, w'.Parent m n ↔ w.Parent m n ∨
          m = w.built.length ∧ w.units.length ≤ n ∧ n < w.units.length + ks.length := by
  cases hstep with
  | @build built p queue children i hbuild =>
    obtain ⟨hunit, hchildren⟩ := Pending.build_asks (hbound p List.mem_cons_self) hbuild
    have hlen : (Worklist.mk built (p :: queue)).units.length = built.length + (p :: queue).length := by
      rw [units, List.length_append, List.length_map, List.length_map]
    refine ⟨List.forall_mem_append.2 ⟨fun q hq => ?_, List.forall_mem_map.2 fun c hc => ?_⟩,
      howned.build i children, ?_, p.unit, children.map Pending.unit, ?_, ?_, fun k' hk' => ?_,
      fun m n => ?_⟩
    · exact hbound q (List.mem_cons_of_mem _ hq)
    · exact (hchildren c hc).1
    · rw [hlen, List.length_cons]
      exact Nat.lt_add_of_pos_right (Nat.succ_pos _)
    · simp [units]
    · have hasked : (children.map (Pending.askedBy built.length)).map Pending.unit =
          children.map Pending.unit := List.map_map
      simp only [units, map_attach (f := Instance.unit) fun _ _ => rfl, List.map_append, List.map_cons,
        hasked, hunit, List.append_assoc, List.cons_append, List.nil_append]
    · obtain ⟨c, hc, rfl⟩ := List.mem_map.1 hk'
      exact (hchildren c hc).2
    · rw [Parent, Parent, childrenOf_build howned (Pending.children_of_build hbuild), hlen,
        List.length_map]
      split
      · next hm =>
        rw [childrenOf_eq_nil howned (Nat.le_of_eq hm.symm), List.mem_range'_1]
        simp [hm]
      · next hm => simp [hm]

theorem Inv.step (h : g.Exact l top) {w w' : Worklist} (hw : Inv l g w) (hstep : Step l w w') :
    Inv l g w' := by
  obtain ⟨hbound, howned, hlt, k, ks, hk, hunits, hasks, hparent⟩ := hstep.grows hw.bound hw.owned
  refine ⟨fun k' hk' => ?_, hbound, howned, fun m n hmn => ?_, fun n hn hlt' => ?_⟩
  · rw [hunits] at hk'
    rcases List.mem_append.1 hk' with hk' | hk'
    · exact hw.unit k' hk'
    · exact h.mem_units.2 ((h.mem_units.1 (hw.unit k (List.mem_of_getElem? hk))).tail (hasks k' hk'))
  · rw [hunits]
    rcases (hparent m n).1 hmn with hmn | ⟨rfl, hle, hlt'⟩
    · obtain ⟨k₁, k₂, hk₁, hk₂, hstep⟩ := hw.asks m n hmn
      refine ⟨k₁, k₂, ?_, ?_, hstep⟩
      · rw [List.getElem?_append_left (List.getElem?_eq_some_iff.1 hk₁).1, hk₁]
      · rw [List.getElem?_append_left (List.getElem?_eq_some_iff.1 hk₂).1, hk₂]
    · have hj : n - w.units.length < ks.length := by omega
      refine ⟨k, ks.get ⟨_, hj⟩, ?_, ?_, hasks _ (List.get_mem ks _)⟩
      · rw [List.getElem?_append_left hlt, hk]
      · rw [List.getElem?_append_right hle, List.getElem?_eq_getElem hj]
        rfl
  · rw [hunits, List.length_append] at hlt'
    by_cases hold : n < w.units.length
    · obtain ⟨m, hm, hmn⟩ := hw.asked n hn hold
      exact ⟨m, hm, (hparent m n).2 (.inl hmn)⟩
    · exact ⟨w.built.length, by omega, (hparent _ n).2 (.inr ⟨rfl, by omega, hlt'⟩)⟩

theorem Inv.steps (h : g.Exact l top) {w w' : Worklist} (hw : Inv l g w)
    (hsteps : ReflTransGen (Step l) w w') : Inv l g w' :=
  kept_of_steps (fun _ _ hw => hw.step h) hw hsteps

/-- The instances keep to the units and the edges of the graph. -/
structure Within (l : Library) (g : UnitGraph) (w : Worklist) : Prop where
  unit : ∀ k ∈ w.units, k ∈ g.units
  edge : ∀ m n, w.Parent m n → ∃ k k', w.units[m]? = some k ∧ w.units[n]? = some k' ∧ g.Joins k k'
  /-- Only the first instance has no parent. -/
  asked : ∀ n, 0 < n → n < w.units.length → ∃ m < n, w.Parent m n
  chain : ∀ ns : List Nat, ns.IsChain w.Parent → ns.length ≤ g.units.length
  fault : ∀ p ∈ w.queue, (p.build l).MissesNoUnit

/-- The unit of the instance with this number. -/
def unitAt (w : Worklist) (n : Nat) : UnitKey := (w.units[n]?).getD default

theorem Inv.asks_unitAt {w : Worklist} (hw : Inv l g w) {m n : Nat} (h : w.Parent m n) :
    l.Instantiates (w.unitAt m) (w.unitAt n) ∧ w.unitAt m ∈ g.units ∧ w.unitAt n ∈ g.units := by
  obtain ⟨k, k', hk, hk', hstep⟩ := hw.asks m n h
  rw [unitAt, unitAt, hk, hk']
  exact ⟨hstep, hw.unit k (List.mem_of_getElem? hk), hw.unit k' (List.mem_of_getElem? hk')⟩

theorem Inv.unitAt_mem_of_isChain {w : Worklist} (hw : Inv l g w) {m n : Nat} {rest : List Nat}
    (h : (m :: n :: rest).IsChain w.Parent) : ∀ x ∈ m :: n :: rest, w.unitAt x ∈ g.units := by
  induction rest generalizing m n with
  | nil =>
    have hmn := hw.asks_unitAt (List.isChain_cons_cons.1 h).1
    exact List.forall_mem_cons.2 ⟨hmn.2.1, List.forall_mem_singleton.2 hmn.2.2⟩
  | cons c rest ih =>
    obtain ⟨hmn, htail⟩ := List.isChain_cons_cons.1 h
    exact List.forall_mem_cons.2 ⟨(hw.asks_unitAt hmn).2.1, ih htail⟩

theorem Inv.length_le (h : g.Exact l top) (hacyclic : g.Acyclic) {w : Worklist}
    (hw : Inv l g w) {ns : List Nat} (hns : ns.IsChain w.Parent) : ns.length ≤ g.units.length := by
  rcases ns with _ | ⟨m, _ | ⟨n, rest⟩⟩
  · exact Nat.zero_le _
  · exact List.length_pos_of_mem (h.mem_units.2 .refl)
  · have hchain : ((m :: n :: rest).map w.unitAt).IsChain l.Instantiates :=
      (List.isChain_map _).2 (hns.imp fun _ _ hparent => (hw.asks_unitAt hparent).1)
    have hlen := h.length_le_of_isChain hacyclic hchain
      (List.forall_mem_map.2 (hw.unitAt_mem_of_isChain hns))
    rwa [List.length_map] at hlen

theorem Inv.missesNoUnit (h : g.Exact l top) {w : Worklist} (hw : Inv l g w) :
    ∀ p ∈ w.queue, (p.build l).MissesNoUnit := by
  intro p hp
  refine Pending.build_missesNoUnit fun i hi => ?_
  have hunit : p.unit ∈ g.units := hw.unit _ (List.mem_append_right _ (List.mem_map_of_mem hp))
  obtain ⟨s, hs⟩ := List.getElem?_of_mem hunit
  have hlt := (List.getElem?_eq_some_iff.1 hs).1
  obtain ⟨-, -, -, ⟨-, -, e', a', -, -, hbind, -⟩, -⟩ :=
    h.covers s hlt _ _ _ hs (hw.bound p hp) i hi
  rw [hbind]
  exact .ok _

theorem Inv.within (h : g.Exact l top) (hacyclic : g.Acyclic) {w : Worklist}
    (hw : Inv l g w) : w.Within l g := by
  refine ⟨hw.unit, fun m n hmn => ?_, hw.asked, fun ns hns => hw.length_le h hacyclic hns,
    hw.missesNoUnit h⟩
  obtain ⟨k, k', hk, hk', hstep⟩ := hw.asks m n hmn
  obtain ⟨s, hs⟩ := List.getElem?_of_mem (hw.unit k (List.mem_of_getElem? hk))
  obtain ⟨t, ht, hfollows⟩ := (h.instantiates_iff hs).1 hstep
  obtain ⟨e, he, rfl, rfl⟩ := UnitGraph.follows_iff.1 hfollows
  exact ⟨k, k', hk, hk', e, he, hs, ht⟩

end Worklist

theorem exact_of_findTop {name : String} {t : Top} (h : findTop l name = .ok t) :
    t.graph.Exact l ⟨t.entity.name, t.architecture.name⟩ ∧ t.graph.Acyclic ∧
      l.Binds ⟨t.entity.name, t.architecture.name⟩ t.entity t.architecture := by
  unfold findTop at h
  split at h
  · cases h
  · next e _ =>
    obtain ⟨⟨e', a⟩, hbind, h⟩ := Result.bind_eq_ok.1 h
    obtain ⟨graph, hgraph, h⟩ := Result.bind_eq_ok.1 h
    obtain ⟨⟨⟩, hacyclic, h⟩ := Result.bind_eq_ok.1 h
    cases h
    obtain ⟨hbinds, hname, -⟩ := Library.bindUnit_spec hbind
    rw [← hname] at hbind hbinds
    have hexact := UnitGraph.build_exact hgraph (Library.bindUnit_eq_ok hbind _)
    exact ⟨hexact, hexact.acyclic GraphAlgorithms.search_correct hacyclic, hbinds⟩

/-- The list that the hierarchy of a top unit is built from. -/
def Top.start (t : Top) (generics : List (Option (Value × Span))) : Worklist :=
  ⟨[], [{ Pending.bare t.entity t.architecture [] t.entity.span with generics }]⟩

theorem elaborate_eq {name : String} {t : Top} (h : findTop l name = .ok t) (overrides : Overrides) :
    elaborate l name overrides = (applyOverrides t.entity overrides
      (Pending.bare t.entity t.architecture [] t.entity.span).generics >>= fun generics =>
        (buildLevels l t.graph.units.length [] (t.start generics).queue).map
          (Hierarchy.mk t.entity.name)) := by
  rw [elaborate, h]
  rfl

theorem within_of_findTop {name : String} {t : Top} (h : findTop l name = .ok t)
    (generics : List (Option (Value × Span))) {w : Worklist}
    (hw : ReflTransGen (Worklist.Step l) (t.start generics) w) : w.Within l t.graph := by
  obtain ⟨hexact, hacyclic, hbinds⟩ := exact_of_findTop h
  have hstart : Worklist.Inv l t.graph (t.start generics) := .start hexact hbinds rfl rfl
  exact (hstart.steps hexact hw).within hexact hacyclic

theorem ends_of_findTop {name : String} {t : Top} (h : findTop l name = .ok t) {overrides : Overrides}
    {generics : List (Option (Value × Span))} (hgenerics : applyOverrides t.entity overrides
      (Pending.bare t.entity t.architecture [] t.entity.span).generics = .ok generics) :
    (t.start generics).Ends l ((elaborate l name overrides).map (·.instances)) := by
  obtain ⟨hexact, hacyclic, hbinds⟩ := exact_of_findTop h
  have hlevels : (elaborate l name overrides).map (·.instances) =
      buildLevels l t.graph.units.length [] (t.start generics).queue := by
    rw [elaborate_eq h, hgenerics]
    dsimp only [bind, Except.bind]
    cases buildLevels l t.graph.units.length [] (t.start generics).queue <;> rfl
  rw [hlevels]
  refine Worklist.ends_of_buildLevels hexact hacyclic (d := 0) (fun p hp => ?_) (by omega)
  obtain rfl := List.mem_singleton.1 hp
  refine ⟨hbinds, [], rfl, .singleton _, fun k hk => ?_⟩
  obtain rfl := List.mem_singleton.1 hk
  exact hexact.mem_units.2 .refl

/-- A hierarchy is what the list of its top unit comes to. -/
theorem steps_of_elaborate {name : String} {overrides : Overrides} {d : Hierarchy}
    (h : elaborate l name overrides = .ok d) : ∃ t generics, findTop l name = .ok t ∧
      applyOverrides t.entity overrides
        (Pending.bare t.entity t.architecture [] t.entity.span).generics = .ok generics ∧
      ReflTransGen (Worklist.Step l) (t.start generics) ⟨d.instances, []⟩ := by
  obtain ⟨t, htop, helaborate⟩ := Result.bind_eq_ok.1 h
  obtain ⟨generics, hgenerics, -⟩ := Result.bind_eq_ok.1 helaborate
  obtain ⟨w, hsteps, hhalt⟩ := ends_of_findTop htop hgenerics
  rw [h] at hhalt
  cases hhalt with
  | done => exact ⟨t, generics, htop, hgenerics, hsteps⟩

/-- What holds of the top unit alone, and is kept by every step, holds of a hierarchy. -/
theorem Worklist.holds_of_elaborate {P : Worklist → Prop}
    (hstart : ∀ p : Pending, p.Bound l → p.path = [] → p.parent = none → P ⟨[], [p]⟩)
    (hstep : ∀ w w', P w → Worklist.Step l w w' → P w') {name : String} {overrides : Overrides}
    {d : Hierarchy} (h : elaborate l name overrides = .ok d) : P ⟨d.instances, []⟩ := by
  obtain ⟨t, generics, htop, -, hsteps⟩ := steps_of_elaborate h
  have htopmost : P (t.start generics) :=
    hstart { Pending.bare t.entity t.architecture [] t.entity.span with generics }
      (exact_of_findTop htop).2.2 rfl rfl
  exact kept_of_steps hstep htopmost hsteps

theorem applyOverrides_missesNoUnit (e : Syntax.Entity) (overrides : Overrides)
    (given : List (Option (Value × Span))) : (applyOverrides e overrides given).MissesNoUnit := by
  induction overrides generalizing given with
  | nil => exact .ok _
  | cons o rest ih =>
    rw [applyOverrides]
    split
    · exact .error nofun
    · exact ih _

/-- Once the graph of the top unit is built and found to have no cycle, the hierarchy is built in
finitely many steps, all of them inside the graph, and none of them fails for want of a unit. -/
theorem worklist_ends {name : String} {t : Top} (h : findTop l name = .ok t) (overrides : Overrides) :
    (∀ generics, applyOverrides t.entity overrides
        (Pending.bare t.entity t.architecture [] t.entity.span).generics = .ok generics →
      (t.start generics).Ends l ((elaborate l name overrides).map (·.instances)) ∧
      Acc (fun w' w => Worklist.Step l w w') (t.start generics) ∧
      ∀ w, ReflTransGen (Worklist.Step l) (t.start generics) w → w.Within l t.graph) ∧
    (elaborate l name overrides).MissesNoUnit := by
  refine ⟨fun generics hgenerics => ?_, fun e he => ?_⟩
  · have hends := ends_of_findTop h hgenerics
    exact ⟨hends, hends.acc, fun w => within_of_findTop h generics⟩
  · cases hgenerics : applyOverrides t.entity overrides
        (Pending.bare t.entity t.architecture [] t.entity.span).generics with
    | error e' =>
      -- a value for a generic that the top unit does not have
      have heq : elaborate l name overrides = .error e' := by
        rw [elaborate_eq h, hgenerics]
        rfl
      obtain rfl := Except.error.inj (heq.symm.trans he)
      exact applyOverrides_missesNoUnit _ _ _ _ hgenerics
    | ok generics =>
      obtain ⟨w, hsteps, hhalt⟩ := ends_of_findTop h hgenerics
      rw [he] at hhalt
      cases hhalt with
      | fault hfault =>
        exact (within_of_findTop h generics hsteps).fault _ List.mem_cons_self _ hfault

/-- Two rounds of a loop, each with a signal and an inverter of its own, that drive one signal. -/
def inverterPair : Library :=
  let bit : Syntax.Subtype := ⟨"bit", none, .nowhere⟩
  let named (name : String) : Syntax.Expr := .name ⟨name, .nowhere⟩
  let assign (target : String) (value : Syntax.Expr) : Syntax.Stmt :=
    .assign ⟨⟨target, .nowhere⟩, none⟩ value .nowhere
  let inverter : Syntax.Entity :=
    ⟨"inverter", [], [⟨"a", .input, bit, .nowhere⟩, ⟨"y", .output, bit, .nowhere⟩], .nowhere⟩
  let invert : Syntax.Process :=
    ⟨none, .list [⟨"a", .nowhere⟩], [assign "y" (.unary .not (named "a") .nowhere)], .nowhere⟩
  let pair : Syntax.Entity := ⟨"pair", [], [⟨"x", .input, bit, .nowhere⟩], .nowhere⟩
  let half : Syntax.Instantiation :=
    ⟨"half", "inverter", none, [],
      [⟨none, .expr (named "x"), .nowhere⟩, ⟨none, .expr (named "t"), .nowhere⟩], .nowhere⟩
  let drive : Syntax.Process := ⟨none, .all, [assign "s" (named "t")], .nowhere⟩
  let halves : Syntax.Generate :=
    ⟨"halves", "i", ⟨.int 0 .nowhere, .to, .int 1 .nowhere⟩, [.signal "t" bit none .nowhere],
      [.instantiation half, .process drive], .nowhere⟩
  { entities := [inverter, pair]
    architectures :=
      [⟨"rtl", "inverter", [], [.process invert], .nowhere⟩,
        ⟨"rtl", "pair", [.signal "s" bit none .nowhere], [.generate halves], .nowhere⟩] }

theorem worklist_ends_inverterPair : ∃ t, findTop inverterPair "Pair" = .ok t ∧
    t.graph.units = [⟨"pair", "rtl"⟩, ⟨"inverter", "rtl"⟩] ∧
    ∃ generics, (t.start generics).Ends inverterPair
        ((elaborate inverterPair "Pair" []).map (·.instances)) ∧
      Acc (fun w' w => Worklist.Step inverterPair w w') (t.start generics) ∧
      (∀ w, ReflTransGen (Worklist.Step inverterPair) (t.start generics) w →
        w.Within inverterPair t.graph) ∧
      (elaborate inverterPair "Pair" []).MissesNoUnit := by
  have hunits : (findTop inverterPair "Pair").toOption.map (·.graph.units) =
      some [⟨"pair", "rtl"⟩, ⟨"inverter", "rtl"⟩] := by decide +kernel
  cases h : findTop inverterPair "Pair" with
  | error e => rw [h] at hunits; cases hunits
  | ok t =>
    rw [h] at hunits
    obtain ⟨hsteps, hfault⟩ := worklist_ends h []
    obtain ⟨hends, hacc, hwithin⟩ := hsteps _ rfl
    exact ⟨t, rfl, Option.some.inj hunits, _, hends, hacc, hwithin, hfault⟩

end HdlLint.Design
