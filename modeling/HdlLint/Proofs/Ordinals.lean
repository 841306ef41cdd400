import Mathlib.Data.List.Nodup
import HdlLint.Proofs.Unrolling

/-!
# The ordinals of processes

A process that is built carries the number of the process of the text that it is a copy of. Processes
of the text are counted in its order, those inside of loops once (`Architecture.processes`), so the
number does not depend on how often a loop runs. No two of them stand at one place
(`Architecture.nodup_places`), and so equal ordinals are equal origins.
-/

namespace HdlLint.Syntax

/-! ### Places in the text -/

theorem Concurrent.place_of_mem_processesAt {n : Nat} {c : Concurrent} {x : List Nat × Process}
    (h : x ∈ c.processesAt n) : ∃ rest, x.1 = n :: rest := by
  cases c with
  | process p =>
    obtain rfl := List.mem_singleton.1 h
    exact ⟨[], rfl⟩
  | instantiation i => cases h
  | generate g =>
    obtain ⟨label, var, range, decls, body, span⟩ := g
    obtain ⟨y, -, rfl⟩ := List.mem_map.1 h
    exact ⟨y.1, rfl⟩

theorem place_of_mem_processesFrom {n : Nat} {cs : List Concurrent} {x : List Nat × Process}
    (h : x ∈ processesFrom n cs) : ∃ m rest, x.1 = m :: rest ∧ n ≤ m := by
  induction cs generalizing n with
  | nil => cases h
  | cons c cs ih =>
    rcases List.mem_append.1 h with h | h
    · obtain ⟨rest, hrest⟩ := Concurrent.place_of_mem_processesAt h
      exact ⟨n, rest, hrest, Nat.le_refl n⟩
    · obtain ⟨m, rest, hrest, hle⟩ := ih h
      exact ⟨m, rest, hrest, by omega⟩

mutual

theorem Concurrent.nodup_processesAt (n : Nat) :
    ∀ c : Concurrent, (c.processesAt n).Pairwise fun x y => x.1 ≠ y.1
  | .process _ => List.pairwise_singleton _ _
  | .instantiation _ => .nil
  | .generate ⟨_, _, _, decls, body, _⟩ =>
    List.pairwise_map.2 ((nodup_processesFrom decls.length body).imp fun hne heq =>
      hne (List.cons.inj heq).2)

theorem nodup_processesFrom (n : Nat) :
    ∀ cs : List Concurrent, (processesFrom n cs).Pairwise fun x y => x.1 ≠ y.1
  | [] => .nil
  | c :: cs => by
    refine List.pairwise_append.2 ⟨c.nodup_processesAt n, nodup_processesFrom (n + 1) cs, ?_⟩
    intro x hx y hy heq
    obtain ⟨rest, hrest⟩ := c.place_of_mem_processesAt hx
    obtain ⟨m, rest', hrest', hle⟩ := place_of_mem_processesFrom hy
    rw [hrest, hrest'] at heq
    have hnum : n = m := (List.cons.inj heq).1
    omega

end

namespace Architecture
variable {a : Architecture} {m n : Nat} {x y : List Nat × Process}

theorem nodup_places (a : Architecture) : (a.processes.map (·.1)).Nodup :=
  List.pairwise_map.2 (nodup_processesFrom 0 a.body)

/-- Processes of the text are numbered by their places. -/
theorem processes_inj (hm : a.processes[m]? = some x) (hn : a.processes[n]? = some y) :
    m = n ↔ x.1 = y.1 := by
  constructor
  · rintro rfl
    exact congrArg Prod.fst (Option.some.inj (hm.symm.trans hn))
  · intro heq
    have hm' : (a.processes.map (·.1))[m]? = some x.1 := by rw [List.getElem?_map, hm]; rfl
    have hn' : (a.processes.map (·.1))[n]? = some x.1 := by rw [List.getElem?_map, hn, heq]; rfl
    obtain ⟨hlt, -⟩ := List.getElem?_eq_some_iff.1 hm'
    exact (List.getElem?_inj hlt a.nodup_places).1 (hm'.trans hn'.symm)

end Architecture

end HdlLint.Syntax

namespace HdlLint.Design
open Syntax (Library)

theorem ordinal_of_buildProcess {a : Syntax.Architecture} {scope : Scope} {path : Path} {n : Nat}
    {p : Syntax.Process} {r : Process} (h : buildProcess a scope path n p = .ok r) :
    r.origin = ⟨a.entity, a.name, n, p.label, p.span⟩ := by
  obtain ⟨sensitivity, -, h⟩ := Result.bind_eq_ok.1 h
  obtain ⟨body, -, h⟩ := Result.bind_eq_ok.1 h
  cases h
  rfl

/-- A process that is made for the copy at a site is the copy of the process of the text that stands
at the place of the site, and its ordinal is the number of that process. -/
theorem Unrolling.Of.ordinal {l : Library} {p : Pending} {i : Instance} {children : List Pending}
    {u : Unrolling} (h : u.Of l p i children) {site : Site} {r : Process}
    (hr : ⟨site, .process r⟩ ∈ u.made) : ∃ q src, u.Copy p q (.stmt (.process src)) ∧ q.site = site ∧
      p.architecture.processes[r.origin.ordinal]? = some (site.place, src) := by
  obtain ⟨q, x, hq, hsite, hdescribes⟩ := h.answers.sound _ hr
  cases hdescribes with
  | @process src n _ hn hbuild =>
    obtain rfl : site = q.site := hsite
    refine ⟨q, src, hq, rfl, ?_⟩
    rw [ordinal_of_buildProcess hbuild]
    exact hn

/-- Each process of an instance has as its ordinal the number of the process of the text that it is a
copy of, among all the processes of the architecture. Of two instances of one architecture, processes
have equal ordinals if and only if they are copies of one process. -/
theorem Pending.build_ordinals {l l' : Library} {p p' : Pending} {i i' : Instance}
    {children children' : List Pending} (h : p.build l = .ok (i, children))
    (h' : p'.build l' = .ok (i', children')) (ha : p'.architecture = p.architecture) :
    ∃ u u' : Unrolling, u.Of l p i children ∧ u'.Of l' p' i' children' ∧
      (∀ site r, ⟨site, .process r⟩ ∈ u.made → ∃ q src, u.Copy p q (.stmt (.process src)) ∧
        q.site = site ∧ p.architecture.processes[r.origin.ordinal]? = some (site.place, src)) ∧
      ∀ site r site' r', ⟨site, .process r⟩ ∈ u.made → ⟨site', .process r'⟩ ∈ u'.made →
        (r.origin.ordinal = r'.origin.ordinal ↔ site.place = site'.place) := by
  obtain ⟨u, hu⟩ := build_unrolling h
  obtain ⟨u', hu'⟩ := build_unrolling h'
  refine ⟨u, u', hu, hu', fun site r hr => hu.ordinal hr, fun site r site' r' hr hr' => ?_⟩
  obtain ⟨-, src, -, -, hsrc⟩ := hu.ordinal hr
  obtain ⟨-, src', -, -, hsrc'⟩ := hu'.ordinal hr'
  rw [ha] at hsrc'
  exact Syntax.Architecture.processes_inj hsrc hsrc'

/-- A unit with a process, a loop over `range` and a loop of one round. Each of the loops declares a
signal and drives it; the second one connects it to an instance as well. -/
def laneBank (range : Syntax.Range) : Syntax.Architecture :=
  let bit : Syntax.Subtype := ⟨"bit", none, .nowhere⟩
  let named (name : String) : Syntax.Expr := .name ⟨name, .nowhere⟩
  let drive (name : String) : Syntax.Concurrent :=
    .process ⟨none, .all, [.assign ⟨⟨name, .nowhere⟩, none⟩ (named "x") .nowhere], .nowhere⟩
  let lane : Syntax.Generate :=
    ⟨"lane", "i", range, [.signal "t" bit none .nowhere], [drive "t"], .nowhere⟩
  let probe : Syntax.Instantiation :=
    ⟨"probe", "cell", none, [], [⟨none, .expr (named "z"), .nowhere⟩], .nowhere⟩
  let last : Syntax.Generate :=
    ⟨"last", "i", ⟨.int 0 .nowhere, .to, .int 0 .nowhere⟩, [.signal "z" bit none .nowhere],
      [drive "z", .instantiation probe], .nowhere⟩
  ⟨"rtl", "bank", [.signal "s" bit none .nowhere], [drive "s", .generate lane, .generate last], .nowhere⟩

/-- The library of the unit. -/
def laneBankUnits (range : Syntax.Range) : Library :=
  let bit : Syntax.Subtype := ⟨"bit", none, .nowhere⟩
  { entities := [⟨"cell", [], [⟨"a", .input, bit, .nowhere⟩], .nowhere⟩]
    architectures := [⟨"rtl", "cell", [], [], .nowhere⟩, laneBank range] }

/-- The unit as a top unit, with a number of lanes put in. -/
def laneBankTop (range : Syntax.Range) (lanes : Int) : Pending :=
  let bit : Syntax.Subtype := ⟨"bit", none, .nowhere⟩
  { entity := ⟨"bank", [⟨"lanes", .natural, none, .nowhere⟩], [⟨"x", .input, bit, .nowhere⟩], .nowhere⟩
    architecture := laneBank range, path := [], span := .nowhere
    generics := [some (.int lanes, .nowhere)], ports := [.leftOpen] }

/-- The range `1 to lanes`. -/
def allLanes : Syntax.Range := ⟨.int 1 .nowhere, .to, .name ⟨"lanes", .nowhere⟩⟩

theorem build_ordinals_laneBank : ∃ i children i' children',
    (laneBankTop allLanes 0).build (laneBankUnits allLanes) = .ok (i, children) ∧
    (laneBankTop allLanes 3).build (laneBankUnits allLanes) = .ok (i', children') ∧
    i.processes.toList.map (·.origin.ordinal) = [0, 2] ∧
    i'.processes.toList.map (·.origin.ordinal) = [0, 1, 1, 1, 2] ∧
    ∃ u u' : Unrolling, processesOf u.made = i.processes.toList ∧
      processesOf u'.made = i'.processes.toList ∧
      ∀ site r site' r', ⟨site, .process r⟩ ∈ u.made → ⟨site', .process r'⟩ ∈ u'.made →
        (r.origin.ordinal = r'.origin.ordinal ↔ site.place = site'.place) := by
  have hnone : ((laneBankTop allLanes 0).build (laneBankUnits allLanes)).toOption.map
      (fun b => b.1.processes.toList.map (·.origin.ordinal)) = some [0, 2] := by decide +kernel
  have hthree : ((laneBankTop allLanes 3).build (laneBankUnits allLanes)).toOption.map
      (fun b => b.1.processes.toList.map (·.origin.ordinal)) = some [0, 1, 1, 1, 2] := by decide +kernel
  cases h : (laneBankTop allLanes 0).build (laneBankUnits allLanes) with
  | error e => rw [h] at hnone; cases hnone
  | ok b =>
    cases h' : (laneBankTop allLanes 3).build (laneBankUnits allLanes) with
    | error e => rw [h'] at hthree; cases hthree
    | ok b' =>
      rw [h] at hnone
      rw [h'] at hthree
      obtain ⟨u, u', hu, hu', -, hsame⟩ := Pending.build_ordinals h h' rfl
      exact ⟨b.1, b.2, b'.1, b'.2, rfl, rfl, Option.some.inj hnone, Option.some.inj hthree,
        u, u', hu.processes.symm, hu'.processes.symm, hsame⟩

end HdlLint.Design
