import HdlLint.Design.Elaborate
import HdlLint.Proofs.Cycles
import HdlLint.Proofs.Faults

/-!
# Where the faults of a design stand

If all spans of a library have `P`, so has the span of every fault that is found while one of its units
is elaborated (`elaborate_fails`). Only a top unit that does not exist is a fault that stands nowhere.
-/

namespace HdlLint.Design
open Syntax (Library)
open Result

/-- The fault stands at a span with `P`, or nowhere. -/
def DesignError.Within (P : Span → Prop) (e : DesignError) : Prop :=
  P e.span ∨ e.span = .nowhere

section
variable {P : Span → Prop} {l : Library}

theorem admits_within : Admits (DesignError.Within P) P := fun _ h _ => .inl h

theorem bindUnit_fails {entity : String} {architecture : Option String} {span : Span} (hspan : P span) :
    Fails (DesignError.Within P) (l.bindUnit entity architecture span) := by
  unfold Library.bindUnit
  split
  · exact .error (.inl hspan)
  · split
    · split
      · exact .ok _
      · exact .error (.inl hspan)
    · split
      · exact .ok _
      · exact .error (.inl hspan)

variable (hl : l.Within P)
include hl

theorem bindUnit_yields {entity : String} {architecture : Option String} {span : Span}
    (hspan : P span) : Yields (DesignError.Within P) (l.bindUnit entity architecture span)
      fun u => u.1.Within P ∧ u.2.Within P :=
  Library.bindUnit_yields hl (bindUnit_fails hspan)

/-! ### The graph of units -/

namespace UnitGraph

theorem explore_fails {span : Span} (hspan : P span) (n next : Nat) (g : UnitGraph) :
    Fails (DesignError.Within P) (explore l span n next g) := by
  induction n generalizing next g with
  | zero => exact .ok _
  | succ n ih =>
    unfold explore
    split
    · exact .ok _
    · refine (bindUnit_yields hl hspan).bind fun u hu => ?_
      have hadd : Fails (DesignError.Within P)
          ((Syntax.instantiations u.2.body).foldlM (addInstance l next) g) := by
        refine .foldlM (fun g _ i hi => ?_) trivial
        exact (bindUnit_fails (hu.2.body.instantiations i hi).span).map
      exact hadd.bind fun g => ih _ g

theorem build_fails (top : String) {span : Span} (hspan : P span) :
    Fails (DesignError.Within P) (build l top span) :=
  (bindUnit_fails hspan).bind fun _ => explore_fails hl hspan _ _ _

theorem checkAcyclic_fails {g : UnitGraph} {top : UnitKey} (h : g.Exact l top) :
    Fails (DesignError.Within P) g.checkAcyclic := by
  have hcorrect := GraphAlgorithms.search_correct
  by_cases hacyclic : g.Acyclic
  · rw [checkAcyclic_eq_ok hcorrect h.bounded hacyclic]
    exact .ok ()
  · obtain ⟨first, others, i, herror, htold⟩ := h.cycleTold hcorrect hacyclic
    rw [herror]
    exact .error (.inl (htold.placed hl.placed))

end UnitGraph

theorem findTop_yields (top : String) :
    Yields (DesignError.Within P) (findTop l top)
      fun t => t.entity.Within P ∧ t.architecture.Within P := by
  unfold findTop
  split
  · exact .error (.inr rfl)
  · rename_i e he
    have hspan : P e.span :=
      (hl.entities e (List.mem_reverse.1 (List.mem_of_find?_eq_some he))).span
    refine (bindUnit_yields hl hspan).eq_ok.bind fun u hu => ?_
    obtain ⟨hbind, hentity, harchitecture⟩ := hu
    refine (UnitGraph.build_fails hl u.1.name hentity.span).eq_ok.bind fun g hg => ?_
    have htop : l.bindUnit u.1.name none u.1.span = .ok (u.1, u.2) := by
      rw [(Library.bindUnit_spec hbind).2.1]
      exact Library.bindUnit_eq_ok hbind _
    refine (UnitGraph.checkAcyclic_fails hl (UnitGraph.build_exact hg.1 htop)).bind fun _ => ?_
    exact .ok ⟨hentity, harchitecture⟩

/-! ### The top unit and its levels -/

omit hl in
theorem applyOverrides_yields {e : Syntax.Entity} (he : e.Within P) (overrides : Overrides)
    {given : List (Option (Value × Span))} (hgiven : GivenWithin P given) :
    Yields (DesignError.Within P) (applyOverrides e overrides given) (GivenWithin P) := by
  induction overrides generalizing given with
  | nil => exact .ok hgiven
  | cons o rest ih =>
    rw [applyOverrides]
    split
    · exact .error (.inl he.span)
    · rename_i i hi
      refine ih (hgiven.set ?_ i)
      cases hg : e.generics[i]? with
      | none => exact he.span
      | some g => exact (he.generics g (List.mem_of_getElem? hg)).span

theorem build_yields {p : Pending} (hp : p.Within P) :
    Yields (DesignError.Within P) (p.build l) fun r => ∀ c ∈ r.2, c.Within P :=
  p.build_yields admits_within hl hp fun i hi =>
    bindUnit_fails (hp.architecture.body.instantiations i hi).span

theorem buildLevel_yields (built : List Instance) {ps : List Pending} (hps : ∀ p ∈ ps, p.Within P) :
    Yields (DesignError.Within P) (buildLevel l built ps) fun r => ∀ c ∈ r.2, c.Within P := by
  induction ps generalizing built with
  | nil => exact .ok nofun
  | cons p ps ih =>
    obtain ⟨hp, hps⟩ := List.forall_mem_cons.1 hps
    refine (build_yields hl hp).bind fun r hr => (ih _ hps).bind fun below hbelow => .ok ?_
    refine List.forall_mem_append.2 ⟨List.forall_mem_map.2 fun c hc => ?_, hbelow⟩
    exact ⟨(hr c hc).entity, (hr c hc).architecture, (hr c hc).span, (hr c hc).generics⟩

theorem buildLevels_fails (n : Nat) (built : List Instance) {level : List Pending}
    (hlevel : ∀ p ∈ level, p.Within P) : Fails (DesignError.Within P) (buildLevels l n built level) := by
  induction n generalizing built level with
  | zero => exact .ok _
  | succ n ih =>
    unfold buildLevels
    split
    · exact .ok _
    · exact (buildLevel_yields hl _ hlevel).bind fun r hr => ih _ hr

/-- The faults of elaborating a unit of the library stand where the library stands, or nowhere. -/
theorem elaborate_fails (top : String) (overrides : Overrides) :
    Fails (DesignError.Within P) (elaborate l top overrides) := by
  refine (findTop_yields hl top).bind fun t ht => ?_
  have hbare := Pending.within_bare ht.1 ht.2 ht.1.span []
  refine (applyOverrides_yields ht.1 overrides hbare.generics).bind fun generics hgenerics => ?_
  refine Fails.map (buildLevels_fails hl _ _ (List.forall_mem_singleton.2 ?_))
  exact ⟨hbare.entity, hbare.architecture, hbare.span, hgenerics⟩

end

end HdlLint.Design
