import Mathlib.Data.List.Basic
import HdlLint.Proofs.Scoping
import HdlLint.Proofs.Worklist

/-!
# The hierarchy of a top unit is well scoped

`elaborate_wellScoped`: in a hierarchy that was elaborated every instance is well scoped
(`Instance.WellScoped`), every instance but the first is asked for by another one, and its ports are
connected to signals of that one. The first instance is the top unit, whose ports are left open.

`Worklist.Linked` is what every step keeps: an instance that waits is connected to signals of its parent,
and still is when it is built.
-/

namespace HdlLint.Design
open Syntax (Library)

/-! ### Steps -/

namespace Worklist
variable {l : Library}

/-- The connections of the instances, by number. -/
def ports (w : Worklist) : List (List PortActual) := w.built.map (·.ports) ++ w.queue.map (·.ports)

/-- What every step keeps. -/
structure Linked (l : Library) (w : Worklist) : Prop where
  fits : ∀ p ∈ w.queue, p.Fits l
  owned : w.Owned
  instances : ∀ i ∈ w.built, ∃ e, l.entity? i.entity = some e ∧ i.WellScoped e
  top : ∃ as, w.ports[0]? = some as ∧ ∀ a ∈ as, a = .leftOpen
  child : ∀ (m : Nat) i, w.built[m]? = some i → ∀ n ∈ w.childrenOf m, m < n ∧
    ∃ as, w.ports[n]? = some as ∧ PortsWithin as i.signals

theorem Linked.start {p : Pending} (hp : p.Fits l) (hparent : p.parent = none)
    (hopen : ∀ a ∈ p.ports, a = .leftOpen) : Linked l ⟨[], [p]⟩ := by
  refine ⟨List.forall_mem_singleton.2 hp, owned_start hparent, ?_, ⟨p.ports, rfl, hopen⟩, ?_⟩
  · exact fun i hi => absurd hi List.not_mem_nil
  · exact fun m i hi => nomatch hi

theorem Linked.step {w w' : Worklist} (hw : w.Linked l) (hstep : Step l w w') : w'.Linked l := by
  cases hstep with
  | @build built p queue children i hbuild =>
    have hp := hw.fits p List.mem_cons_self
    obtain ⟨hbuilds, hchildren⟩ := Pending.build_spec hbuild hp
    have hasked : (children.map (Pending.askedBy built.length)).map (·.ports) = children.map (·.ports) :=
      List.map_map
    have hports : ports ⟨attach built p.parent i, queue ++ children.map (Pending.askedBy built.length)⟩ =
        ports ⟨built, p :: queue⟩ ++ children.map (·.ports) := by
      simp only [ports, map_attach (f := (·.ports)) fun _ _ => rfl, hbuilds.ports, List.map_append,
        List.map_cons, hasked, List.append_assoc, List.cons_append, List.nil_append]
    have hlen : (ports ⟨built, p :: queue⟩).length = built.length + (p :: queue).length := by
      rw [ports, List.length_append, List.length_map, List.length_map]
    have hkeep : ∀ {n : Nat} {as : List PortActual}, (ports ⟨built, p :: queue⟩)[n]? = some as →
        (ports ⟨built, p :: queue⟩ ++ children.map (·.ports))[n]? = some as := by
      intro n as h
      rw [List.getElem?_append_left (List.getElem?_eq_some_iff.1 h).1, h]
    refine ⟨List.forall_mem_append.2 ⟨fun q hq => ?_, List.forall_mem_map.2 fun c hc => ?_⟩,
      hw.owned.build i children, fun j hj => ?_, ?_, fun m j hj n hn => ?_⟩
    · exact hw.fits q (List.mem_cons_of_mem _ hq)
    · exact ⟨(hchildren c hc).1.entity, (hchildren c hc).1.ports⟩
    · obtain ⟨m, hm⟩ := List.getElem?_of_mem hj
      obtain ⟨j₀, ns, hj₀, rfl⟩ := attach_getElem? hm
      have hscoped : ∃ e, l.entity? j₀.entity = some e ∧ j₀.WellScoped e := by
        rcases List.mem_append.1 (List.mem_of_getElem? hj₀) with hold | hnew
        · exact hw.instances j₀ hold
        · rw [List.mem_singleton.1 hnew]
          exact ⟨p.entity, by rw [hbuilds.entity, hp.entity], hbuilds.wellScoped⟩
      obtain ⟨e, he, hscoped⟩ := hscoped
      exact ⟨e, he, hscoped.port, hscoped.internal, hscoped.connected, hscoped.processes⟩
    · obtain ⟨as, has, hopen⟩ := hw.top
      rw [hports]
      exact ⟨as, hkeep has, hopen⟩
    · obtain ⟨j₀, ns, hj₀, rfl⟩ := attach_getElem? hj
      rw [childrenOf_build hw.owned (Pending.children_of_build hbuild)] at hn
      rw [hports]
      split at hn
      · -- what the new instance asks for comes behind all others
        next hm =>
        subst hm
        rw [List.getElem?_concat_length] at hj₀
        obtain rfl := Option.some.inj hj₀
        obtain ⟨hle, hlt⟩ := List.mem_range'_1.1 hn
        have hk : n - (ports ⟨built, p :: queue⟩).length < children.length := by omega
        refine ⟨by rw [List.length_cons] at hle; omega, children[n - _].ports, ?_, ?_⟩
        · rw [List.getElem?_append_right (by omega), List.getElem?_map, List.getElem?_eq_getElem hk]
          rfl
        · exact (hchildren _ (List.getElem_mem hk)).2
      · next hm =>
        have hlt : m < built.length := by
          have hlt := (List.getElem?_eq_some_iff.1 hj₀).1
          rw [List.length_append, List.length_singleton] at hlt
          omega
        rw [List.getElem?_append_left hlt] at hj₀
        obtain ⟨hmn, as, has, hwithin⟩ := hw.child m j₀ hj₀ n hn
        exact ⟨hmn, as, hkeep has, hwithin⟩

end Worklist

/-! ### Hierarchies -/

/-- Instances are well scoped, the top unit is left open, and every other instance is connected to
signals of the one that asks for it. -/
structure Hierarchy.WellScoped (l : Library) (d : Hierarchy) : Prop where
  instances : ∀ i ∈ d.instances, ∃ e, l.entity? i.entity = some e ∧ i.WellScoped e
  top : ∃ i, d.instances[0]? = some i ∧ ∀ a ∈ i.ports, a = .leftOpen
  parent : ∀ (k : Nat) i, d.instances[k]? = some i → 0 < k → ∃ j ∈ d.instances, k ∈ j.children
  child : ∀ i ∈ d.instances, ∀ k ∈ i.children, 0 < k ∧
    ∀ j, d.instances[k]? = some j → PortsWithin j.ports i.signals

theorem elaborate_wellScoped {l : Library} {top : String} {overrides : Overrides} {d : Hierarchy}
    (h : elaborate l top overrides = .ok d) : d.WellScoped l := by
  obtain ⟨t, generics, htop, -, hsteps⟩ := steps_of_elaborate h
  have hlinked : Worklist.Linked l ⟨d.instances, []⟩ := by
    refine Worklist.kept_of_steps (fun _ _ hw => hw.step) (.start ?_ rfl fun a ha => ?_) hsteps
    · exact ⟨entity?_of_bindUnit ((exact_of_findTop htop).2.2 .nowhere), List.length_map ..⟩
    · obtain ⟨_, -, rfl⟩ := List.mem_map.1 ha
      rfl
  have hwithin := within_of_findTop htop generics hsteps
  have hports : Worklist.ports ⟨d.instances, []⟩ = d.instances.map (·.ports) := List.append_nil _
  have hunits : Worklist.units ⟨d.instances, []⟩ = d.instances.map Instance.unit := List.append_nil _
  refine ⟨hlinked.instances, ?_, fun k i hi hk => ?_, fun i hi k hk => ?_⟩
  · obtain ⟨as, has, hopen⟩ := hlinked.top
    rw [hports, List.getElem?_map] at has
    obtain ⟨i, hi, rfl⟩ := Option.map_eq_some_iff.1 has
    exact ⟨i, hi, hopen⟩
  · have hlt := (List.getElem?_eq_some_iff.1 hi).1
    obtain ⟨m, -, hm⟩ := hwithin.asked k hk (by rwa [hunits, List.length_map])
    obtain ⟨j, hj, hmem⟩ := Worklist.mem_childrenOf_done.1 hm
    exact ⟨j, List.mem_of_getElem? hj, hmem⟩
  · obtain ⟨m, hm⟩ := List.getElem?_of_mem hi
    obtain ⟨hlt, as, has, hwithin⟩ := hlinked.child m i hm k (Worklist.mem_childrenOf_done.2 ⟨i, hm, hk⟩)
    refine ⟨Nat.zero_lt_of_lt hlt, fun j hj => ?_⟩
    rw [hports, List.getElem?_map, hj] at has
    obtain rfl := Option.some.inj has
    exact hwithin

theorem elaborate_wellScoped_inverterPair : ∃ d, elaborate inverterPair "Pair" [] = .ok d ∧
    d.instances.map (·.signals.size) = [4, 2, 2] ∧ d.WellScoped inverterPair := by
  have hsizes : (elaborate inverterPair "Pair" []).toOption.map
      (fun d => d.instances.map (·.signals.size)) = some [4, 2, 2] := by decide +kernel
  cases h : elaborate inverterPair "Pair" [] with
  | error e => rw [h] at hsizes; cases hsizes
  | ok d =>
    rw [h] at hsizes
    exact ⟨d, rfl, Option.some.inj hsizes, elaborate_wellScoped h⟩

end HdlLint.Design
