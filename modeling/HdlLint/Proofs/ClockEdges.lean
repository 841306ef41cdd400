import Mathlib.Data.List.Basic
import HdlLint.Flow.Clock

/-!
# Conditions that ask for a clock edge

A condition asks for an edge of a signal if it calls the function for this edge on the signal or a part of
it, or if it asks for an event of the signal and compares the signal with the value it has after the edge,
each in either order (`AsksForEdge`). What is found are these conditions and, besides, those in which only
a part of the signal is compared (`ComparesPart`, `edge?_eq_some_iff`).

`clockGuard_recognises`: so a clocked process is recognised for what it is, but for two cases
(`Misjudged`): its only edge is a comparison with a part of a signal, which is taken for one, or such a
comparison stands beside the edge, which is then one of two.
-/

namespace HdlLint.Flow
open Design (SignalId Expr Branch Process Sensitivity)

/-! ### Edges -/

namespace Edge

/-- The function that asks for the edge. -/
def function : Edge → String
  | .rising => "rising_edge"
  | .falling => "falling_edge"

/-- The value of a signal after the edge. -/
def level : Edge → Char
  | .rising => '1'
  | .falling => '0'

end Edge

def IsWhole (id : SignalId) (e : Expr) : Prop := ∃ span, e = .signal id span

/-- The expression is an element or a slice of the signal. -/
def IsPart (id : SignalId) (e : Expr) : Prop :=
  (∃ nameSpan position span, e = .index id nameSpan position span) ∨
    ∃ nameSpan left right span, e = .slice id nameSpan left right span

/-- The expression names the signal, as a whole or in part. -/
def IsNamed (id : SignalId) (e : Expr) : Prop := IsWhole id e ∨ IsPart id e

/-- One of the expressions has the one property and the other one the other. -/
def EitherWay (P Q : Expr → Prop) (l r : Expr) : Prop := P l ∧ Q r ∨ P r ∧ Q l

def IsEvent (id : SignalId) (e : Expr) : Prop := ∃ nameSpan span, e = .attribute id nameSpan "event" span

def IsLevel (edge : Edge) (e : Expr) : Prop := ∃ span, e = .const (.char edge.level) span

/-- Something that is `named` is compared with the value after the edge. -/
def Compares (named : Expr → Prop) (edge : Edge) (e : Expr) : Prop :=
  ∃ l r span, e = .binary .eq l r span ∧ EitherWay named (IsLevel edge) l r

/-- There is an event of the signal, and what is `named` has the value after the edge. -/
def EventAndLevel (named : SignalId → Expr → Prop) (c : Expr) (id : SignalId) (edge : Edge) : Prop :=
  ∃ l r span, c = .binary .and l r span ∧ EitherWay (IsEvent id) (Compares (named id) edge) l r

/-- The function for the edge is called on the signal or on a part of it. -/
def IsEdgeCall (c : Expr) (id : SignalId) (edge : Edge) : Prop :=
  ∃ arg span, c = .call edge.function [arg] span ∧ IsNamed id arg

/-- The condition asks for an edge of the signal, and for nothing besides. -/
def AsksForEdge (c : Expr) (id : SignalId) (edge : Edge) : Prop :=
  IsEdgeCall c id edge ∨ EventAndLevel IsWhole c id edge

/-- The condition asks for an event of the signal, but compares only a part of it. -/
def ComparesPart (c : Expr) (id : SignalId) (edge : Edge) : Prop := EventAndLevel IsPart c id edge

section
variable {c e l r : Expr} {id : SignalId} {edge : Edge}

theorem edgeFunction?_eq_some_iff {name : String} :
    edgeFunction? name = some edge ↔ name = edge.function := by
  unfold edgeFunction?
  split_ifs with hrising hfalling
  · subst hrising
    cases edge <;> decide
  · subst hfalling
    cases edge <;> decide
  · cases edge <;> simp_all [Edge.function]

theorem clockSignal?_eq_some_iff : clockSignal? e = some id ↔ IsNamed id e := by
  cases e <;> simp [clockSignal?, IsNamed, IsWhole, IsPart]

theorem levelEdge?_eq_some_iff : levelEdge? e = some edge ↔ IsLevel edge e := by
  unfold levelEdge? IsLevel
  split
  · cases edge <;> simp [Edge.level]
  · cases edge <;> simp [Edge.level]
  · next hone hzero =>
    refine iff_of_false nofun ?_
    rintro ⟨span, rfl⟩
    cases edge
    · exact hone span rfl
    · exact hzero span rfl

theorem IsLevel.not_isNamed (h : IsLevel edge e) : ¬ IsNamed id e := by
  obtain ⟨span, rfl⟩ := h
  rintro (⟨_, h⟩ | ⟨_, _, _, h⟩ | ⟨_, _, _, _, h⟩) <;> cases h

theorem eventAndLevel?_eq_some_iff :
    eventAndLevel? l r = some (id, edge) ↔ IsEvent id l ∧ Compares (IsNamed id) edge r := by
  constructor
  · intro h
    unfold eventAndLevel? at h
    split at h
    · next id' nameSpan attr span x y span' =>
      split_ifs at h with hattr
      subst hattr
      split at h
      · next s hs =>
        split_ifs at h with hid
        obtain ⟨edge', hlevel, heq⟩ := Option.map_eq_some_iff.1 h
        cases heq
        exact ⟨⟨nameSpan, span, by rw [hid]⟩, x, y, span', rfl,
          .inl ⟨clockSignal?_eq_some_iff.1 hs, levelEdge?_eq_some_iff.1 hlevel⟩⟩
      · next s _ hs =>
        split_ifs at h with hid
        obtain ⟨edge', hlevel, heq⟩ := Option.map_eq_some_iff.1 h
        cases heq
        exact ⟨⟨nameSpan, span, by rw [hid]⟩, x, y, span', rfl,
          .inr ⟨clockSignal?_eq_some_iff.1 hs, levelEdge?_eq_some_iff.1 hlevel⟩⟩
      · cases h
    · cases h
  · rintro ⟨⟨nameSpan, span, rfl⟩, x, y, span', rfl, ⟨hnamed, hlevel⟩ | ⟨hnamed, hlevel⟩⟩
    · have hx := clockSignal?_eq_some_iff.2 hnamed
      have hy := levelEdge?_eq_some_iff.2 hlevel
      simp [eventAndLevel?, hx, hy]
    · have hy := clockSignal?_eq_some_iff.2 hnamed
      have hx : clockSignal? x = none :=
        Option.eq_none_iff_forall_ne_some.2 fun s hs => hlevel.not_isNamed (clockSignal?_eq_some_iff.1 hs)
      have hlevel := levelEdge?_eq_some_iff.2 hlevel
      simp [eventAndLevel?, hx, hy, hlevel]

/-- An event is no comparison, so at most one of the two orders fits a condition. -/
theorem eventAndLevel?_of_isEvent (h : IsEvent id r) : eventAndLevel? l r = none := by
  obtain ⟨nameSpan, span, rfl⟩ := h
  cases l <;> rfl

theorem edge?_eq_some_iff_isNamed :
    edge? c = some (id, edge) ↔ IsEdgeCall c id edge ∨ EventAndLevel IsNamed c id edge := by
  constructor
  · intro h
    unfold edge? at h
    split at h
    · next func arg span =>
      split at h
      · next e s hfunc hs =>
        cases h
        rw [edgeFunction?_eq_some_iff] at hfunc
        subst hfunc
        exact .inl ⟨arg, span, rfl, clockSignal?_eq_some_iff.1 hs⟩
      · cases h
    · next l r span =>
      refine .inr ⟨l, r, span, rfl, ?_⟩
      cases hlr : eventAndLevel? l r with
      | some x =>
        rw [hlr] at h
        cases h
        exact .inl (eventAndLevel?_eq_some_iff.1 hlr)
      | none =>
        rw [hlr] at h
        exact .inr (eventAndLevel?_eq_some_iff.1 h)
    · cases h
  · rintro (⟨arg, span, rfl, hnamed⟩ | ⟨l, r, span, rfl, hlr | hrl⟩)
    · have hfunc : edgeFunction? edge.function = some edge := edgeFunction?_eq_some_iff.2 rfl
      simp [edge?, hfunc, clockSignal?_eq_some_iff.2 hnamed]
    · rw [edge?, eventAndLevel?_eq_some_iff.2 hlr]
      rfl
    · rw [edge?, eventAndLevel?_of_isEvent hrl.1]
      exact eventAndLevel?_eq_some_iff.2 hrl

theorem compares_isNamed : Compares (IsNamed id) edge e ↔
    Compares (IsWhole id) edge e ∨ Compares (IsPart id) edge e := by
  simp only [Compares, EitherWay, IsNamed, ← exists_or]
  refine exists_congr fun l => exists_congr fun r => exists_congr fun span => ?_
  tauto

theorem eventAndLevel_isNamed : EventAndLevel IsNamed c id edge ↔
    EventAndLevel IsWhole c id edge ∨ EventAndLevel IsPart c id edge := by
  simp only [EventAndLevel, EitherWay, compares_isNamed, ← exists_or]
  refine exists_congr fun l => exists_congr fun r => exists_congr fun span => ?_
  tauto

/-- What is found are the conditions that ask for an edge, and those that compare a part of a signal. -/
theorem edge?_eq_some_iff : edge? c = some (id, edge) ↔ AsksForEdge c id edge ∨ ComparesPart c id edge := by
  rw [edge?_eq_some_iff_isNamed, eventAndLevel_isNamed, ← or_assoc]
  rfl

theorem IsPart.not_isWhole {id' : SignalId} (h : IsPart id e) : ¬ IsWhole id' e := by
  rintro ⟨span, rfl⟩
  rcases h with ⟨_, _, _, h⟩ | ⟨_, _, _, _, h⟩ <;> cases h

theorem Compares.not_isPart {id' : SignalId} {edge' : Edge} (h : Compares (IsWhole id) edge e) :
    ¬ Compares (IsPart id') edge' e := by
  obtain ⟨l, r, span, rfl, hwhole⟩ := h
  rintro ⟨_, _, _, ⟨⟩, hpart⟩
  rcases hwhole with ⟨hl, hr⟩ | ⟨hr, hl⟩ <;> rcases hpart with ⟨hl', hr'⟩ | ⟨hr', hl'⟩
  · exact hl'.not_isWhole hl
  · exact hr.not_isNamed (.inr hr')
  · exact hl.not_isNamed (.inr hl')
  · exact hr'.not_isWhole hr

theorem Compares.not_isEvent {named : Expr → Prop} (h : Compares named edge e) : ¬ IsEvent id e := by
  obtain ⟨l, r, span, rfl, -⟩ := h
  rintro ⟨_, _, h⟩
  cases h

theorem AsksForEdge.not_comparesPart {id' : SignalId} {edge' : Edge} (h : AsksForEdge c id edge) :
    ¬ ComparesPart c id' edge' := by
  rintro ⟨l, r, span, rfl, hpart⟩
  rcases h with ⟨_, _, h, -⟩ | ⟨_, _, _, ⟨⟩, hwhole⟩
  · cases h
  rcases hwhole with ⟨hl, hr⟩ | ⟨hr, hl⟩ <;> rcases hpart with ⟨hl', hr'⟩ | ⟨hr', hl'⟩
  · exact hr.not_isPart hr'
  · exact hr.not_isEvent hr'
  · exact hl.not_isEvent hl'
  · exact hl.not_isPart hl'

end

/-! ### Guards -/

section
variable {i : Nat} {bs : List Branch} {g : ClockGuard}

theorem guards_eq_nil : guards i bs = [] ↔ ∀ b ∈ bs, edge? b.condition = none := by
  induction bs generalizing i with
  | nil => simp [guards]
  | cons b bs ih =>
    rw [guards, List.forall_mem_cons]
    cases h : edge? b.condition with
    | none => simpa using ih
    | some x => simp

/-- The guard is that of the branch `k`, and the conditions of the others ask for no edge. -/
structure IsOnly (bs : List Branch) (k : Nat) (g : ClockGuard) : Prop where
  found : ∃ b, bs[k]? = some b ∧ edge? b.condition = some (g.signal, g.edge) ∧ g.span = b.condition.span
  only : ∀ j b, bs[j]? = some b → edge? b.condition ≠ none → j = k

theorem guards_eq_singleton : guards i bs = [g] ↔ ∃ k, g.branch = i + k ∧ IsOnly bs k g := by
  induction bs generalizing i with
  | nil =>
    refine iff_of_false nofun ?_
    rintro ⟨k, -, ⟨b, hb, -⟩, -⟩
    cases hb
  | cons b bs ih =>
    rw [guards]
    cases h : edge? b.condition with
    | none =>
      refine ih.trans ⟨?_, ?_⟩
      · rintro ⟨k, hk, hfound, honly⟩
        refine ⟨k + 1, by omega, hfound, fun j b' hj hne => ?_⟩
        cases j with
        | zero =>
          cases hj
          exact absurd h hne
        | succ j => rw [honly j b' hj hne]
      · rintro ⟨k, hk, hfound, honly⟩
        cases k with
        | zero =>
          obtain ⟨b', hb', hedge, -⟩ := hfound
          cases hb'
          cases h.symm.trans hedge
        | succ k =>
          refine ⟨k, by omega, hfound, fun j b' hj hne => ?_⟩
          exact Nat.succ.inj (honly (j + 1) b' hj hne)
    | some x =>
      obtain ⟨signal, edge⟩ := x
      rw [List.cons_eq_cons, guards_eq_nil]
      constructor
      · rintro ⟨rfl, hnone⟩
        refine ⟨0, rfl, ⟨b, rfl, h, rfl⟩, fun j b' hj hne => ?_⟩
        cases j with
        | zero => rfl
        | succ j => exact absurd (hnone b' (List.mem_of_getElem? hj)) hne
      · rintro ⟨k, hk, hfound, honly⟩
        obtain rfl : 0 = k := honly 0 b rfl (by rw [h]; nofun)
        obtain ⟨_, ⟨⟩, hedge, hspan⟩ := hfound
        have hbranch : g.branch = i := hk
        cases h.symm.trans hedge
        refine ⟨by rw [← hspan, ← hbranch], fun b' hb' => ?_⟩
        obtain ⟨j, hj⟩ := List.mem_iff_getElem?.1 hb'
        by_contra hne
        cases honly (j + 1) b' hj hne

end

/-! ### Clocked processes -/

/-- The process waits for a change of the signal, be it among others or among all. -/
def StartedBy (p : Process) (id : SignalId) : Prop :=
  p.sensitivity = .all ∨ ∃ signals span, p.sensitivity = .list signals ∧ (id, span) ∈ signals

theorem covers_iff {p : Process} {id : SignalId} : p.sensitivity.covers id = true ↔ StartedBy p id := by
  unfold StartedBy
  cases p.sensitivity with
  | all => simp [Sensitivity.covers]
  | list signals => simp [Sensitivity.covers]

/-- The body of the process is one `if`, of which just one condition asks for an edge of a signal, in the
sense of `asks`, and this signal starts the process. The guard tells the signal, the edge, and which
condition it is. -/
def GuardedBy (asks : Expr → SignalId → Edge → Prop) (p : Process) (g : ClockGuard) : Prop :=
  ∃ branches otherwise span, p.body = [.ifs branches otherwise span] ∧
    (∃ b, branches[g.branch]? = some b ∧ asks b.condition g.signal g.edge ∧ g.span = b.condition.span) ∧
    (∀ j b, branches[j]? = some b → (∃ id edge, asks b.condition id edge) → j = g.branch) ∧
    StartedBy p g.signal

/-- The condition is one of those of the `if` that is the body of the process. -/
def HasCondition (p : Process) (c : Expr) : Prop :=
  ∃ branches otherwise span, p.body = [.ifs branches otherwise span] ∧ ∃ b ∈ branches, b.condition = c

section
variable {p : Process} {g : ClockGuard}

theorem clockGuard?_eq_some_iff : clockGuard? p = some g ↔
    GuardedBy (fun c id edge => AsksForEdge c id edge ∨ ComparesPart c id edge) p g := by
  constructor
  · intro h
    unfold clockGuard? at h
    split at h
    · next branches otherwise span hbody =>
      split at h
      · next g' hguards =>
        split_ifs at h with hcovers
        cases h
        obtain ⟨k, hk, ⟨b, hb, hedge, hspan⟩, honly⟩ := guards_eq_singleton.1 hguards
        obtain rfl : g.branch = k := by omega
        refine ⟨branches, otherwise, span, hbody, ⟨b, hb, edge?_eq_some_iff.1 hedge, hspan⟩, ?_,
          covers_iff.1 hcovers⟩
        rintro j b' hj ⟨id, edge, hasks⟩
        refine honly j b' hj ?_
        rw [edge?_eq_some_iff.2 hasks]
        nofun
      · cases h
    · cases h
  · rintro ⟨branches, otherwise, span, hbody, ⟨b, hb, hasks, hspan⟩, honly, hstarted⟩
    have hguards : guards 0 branches = [g] := by
      refine guards_eq_singleton.2 ⟨g.branch, by omega, ⟨b, hb, edge?_eq_some_iff.2 hasks, hspan⟩, ?_⟩
      intro j b' hj hne
      obtain ⟨⟨id, edge⟩, hedge⟩ := Option.ne_none_iff_exists'.1 hne
      exact honly j b' hj ⟨id, edge, edge?_eq_some_iff.1 hedge⟩
    simp [clockGuard?, hbody, hguards, covers_iff.2 hstarted]

variable {A B : Expr → SignalId → Edge → Prop}

theorem hasCondition_iff {branches : List Branch} {otherwise : Option (List Design.Stmt)} {span : Span}
    (hbody : p.body = [.ifs branches otherwise span]) {c : Expr} :
    HasCondition p c ↔ ∃ (j : Nat) (b : Branch), branches[j]? = some b ∧ b.condition = c := by
  constructor
  · rintro ⟨_, _, _, hbody', b, hb, rfl⟩
    cases hbody.symm.trans hbody'
    obtain ⟨j, hj⟩ := List.mem_iff_getElem?.1 hb
    exact ⟨j, b, hj, rfl⟩
  · rintro ⟨j, b, hj, rfl⟩
    exact ⟨branches, otherwise, span, hbody, b, List.mem_of_getElem? hj, rfl⟩

/-- The guard has a condition, and no other condition is of its kind. -/
theorem GuardedBy.only (h : GuardedBy A p g) : ∃ c, HasCondition p c ∧ A c g.signal g.edge ∧
    ∀ c', HasCondition p c' → (∃ id edge, A c' id edge) → c' = c := by
  obtain ⟨branches, otherwise, span, hbody, ⟨b, hb, hasks, -⟩, honly, -⟩ := h
  refine ⟨b.condition, (hasCondition_iff hbody).2 ⟨_, b, hb, rfl⟩, hasks, fun c' hc' hkind => ?_⟩
  obtain ⟨j, b', hj, rfl⟩ := (hasCondition_iff hbody).1 hc'
  obtain rfl := honly j b' hj hkind
  rw [Option.some.inj (hb.symm.trans hj)]

theorem guardedBy_congr (h : ∀ c, HasCondition p c → ∀ id edge, A c id edge ↔ B c id edge) :
    GuardedBy A p g ↔ GuardedBy B p g := by
  refine exists_congr fun branches => exists_congr fun otherwise => exists_congr fun span =>
    and_congr_right fun hbody => and_congr (exists_congr fun b => and_congr_right fun hb => ?_)
      (and_congr_left fun _ => forall₃_congr fun j b hj => ?_)
  · rw [h _ ((hasCondition_iff hbody).2 ⟨_, b, hb, rfl⟩)]
  · simp only [h _ ((hasCondition_iff hbody).2 ⟨j, b, hj, rfl⟩)]

/-- Where two kinds of conditions exclude each other, a condition that is the only one of either kind is the
only one of its own, and there is none of the other. -/
theorem guardedBy_or (hdisjoint : ∀ c id edge id' edge', A c id edge → ¬ B c id' edge') :
    GuardedBy (fun c id edge => A c id edge ∨ B c id edge) p g ↔
      (GuardedBy A p g ∧ ∀ c, HasCondition p c → ∀ id edge, ¬ B c id edge) ∨
        (GuardedBy B p g ∧ ∀ c, HasCondition p c → ∀ id edge, ¬ A c id edge) := by
  have hleft : (∀ c, HasCondition p c → ∀ id edge, ¬ B c id edge) →
      (GuardedBy (fun c id edge => A c id edge ∨ B c id edge) p g ↔ GuardedBy A p g) :=
    fun hB => guardedBy_congr fun c hc id edge => or_iff_left (hB c hc id edge)
  have hright : (∀ c, HasCondition p c → ∀ id edge, ¬ A c id edge) →
      (GuardedBy (fun c id edge => A c id edge ∨ B c id edge) p g ↔ GuardedBy B p g) :=
    fun hA => guardedBy_congr fun c hc id edge => or_iff_right (hA c hc id edge)
  constructor
  · intro h
    obtain ⟨c, -, hA | hB, honly⟩ := h.only
    · have hnone : ∀ c', HasCondition p c' → ∀ id edge, ¬ B c' id edge := fun c' hc' id edge hB => by
        obtain rfl := honly c' hc' ⟨id, edge, .inr hB⟩
        exact hdisjoint _ _ _ _ _ hA hB
      exact .inl ⟨(hleft hnone).1 h, hnone⟩
    · have hnone : ∀ c', HasCondition p c' → ∀ id edge, ¬ A c' id edge := fun c' hc' id edge hA => by
        obtain rfl := honly c' hc' ⟨id, edge, .inl hA⟩
        exact hdisjoint _ _ _ _ _ hA hB
      exact .inr ⟨(hright hnone).1 h, hnone⟩
  · rintro (⟨h, hnone⟩ | ⟨h, hnone⟩)
    · exact (hleft hnone).2 h
    · exact (hright hnone).2 h

end

/-- The guard that is found is the one that the process has, if it has one. -/
def RecognisesEdge (p : Process) : Prop := ∀ g, clockGuard? p = some g ↔ GuardedBy AsksForEdge p g

/-- A comparison with a part of a signal is taken for the edge of a process that has none, or it makes the
edge that the process has one of two. -/
def Misjudged (p : Process) : Prop :=
  (∃ g, GuardedBy ComparesPart p g ∧ ∀ c, HasCondition p c → ∀ id edge, ¬ AsksForEdge c id edge) ∨
    ∃ g, GuardedBy AsksForEdge p g ∧ ∃ c, HasCondition p c ∧ ∃ id edge, ComparesPart c id edge

/-- A clocked process is found as such, and so is one whose only edge compares a part of a signal. So it is
recognised just if no such comparison is mistaken for an edge or stands in the way of one. -/
theorem clockGuard_recognises (p : Process) :
    (∀ g, clockGuard? p = some g ↔
      GuardedBy (fun c id edge => AsksForEdge c id edge ∨ ComparesPart c id edge) p g) ∧
    (RecognisesEdge p ↔ ¬ Misjudged p) := by
  refine ⟨fun g => clockGuard?_eq_some_iff, ?_⟩
  have hfound : ∀ g, clockGuard? p = some g ↔ _ := fun g =>
    clockGuard?_eq_some_iff.trans (guardedBy_or fun _ _ _ _ _ h => h.not_comparesPart)
  constructor
  · rintro h (⟨g, hpart, hnone⟩ | ⟨g, hasks, c, hc, id, edge, hpart⟩)
    · obtain ⟨c, hc, hasks, -⟩ := ((h g).1 ((hfound g).2 (.inr ⟨hpart, hnone⟩))).only
      exact hnone c hc _ _ hasks
    · rcases (hfound g).1 ((h g).2 hasks) with ⟨-, hnone⟩ | ⟨-, hnone⟩
      · exact hnone c hc id edge hpart
      · obtain ⟨c, hc, hasks, -⟩ := hasks.only
        exact hnone c hc _ _ hasks
  · intro h g
    constructor
    · intro hg
      rcases (hfound g).1 hg with ⟨hasks, -⟩ | hpart
      · exact hasks
      · exact absurd (.inl ⟨g, hpart⟩) h
    · intro hasks
      refine (hfound g).2 (.inl ⟨hasks, fun c hc id edge hpart => ?_⟩)
      exact h (.inr ⟨g, hasks, c, hc, id, edge, hpart⟩)

/-- `if clks'event and clks(0) = '1' then q <= d; end if;` with the signals `clks`, `d` and `q`, in this
order. -/
def laneRegister : Process where
  origin := ⟨"lane", "rtl", 0, some "reg", ⟨0, 0, 60⟩⟩
  name := "reg"
  scope := default
  sensitivity := .list [(0, ⟨0, 0, 4⟩)]
  body := [.ifs
    [⟨.binary .and (.attribute 0 ⟨0, 3, 7⟩ "event" ⟨0, 3, 13⟩)
        (.binary .eq (.index 0 ⟨0, 18, 22⟩ (.const (.int 0) ⟨0, 23, 24⟩) ⟨0, 18, 25⟩)
          (.const (.char '1') ⟨0, 28, 31⟩) ⟨0, 18, 31⟩) ⟨0, 3, 31⟩, "(clks'event and (clks(0) = '1'))",
        [.assign ⟨2, ⟨0, 37, 38⟩, none, .signal 1 ⟨0, 42, 43⟩, ⟨0, 37, 44⟩⟩]⟩]
    none ⟨0, 0, 52⟩]

theorem clockGuard_laneRegister :
    clockGuard? laneRegister = some ⟨0, .rising, 0, ⟨0, 3, 31⟩⟩ ∧ ¬ RecognisesEdge laneRegister := by
  have hfound : clockGuard? laneRegister = some ⟨0, .rising, 0, ⟨0, 3, 31⟩⟩ := by decide
  refine ⟨hfound, fun h => ?_⟩
  obtain ⟨c, hc, hasks, -⟩ := ((h _).1 hfound).only
  obtain ⟨_, _, _, ⟨⟩, b, hb, rfl⟩ := hc
  obtain rfl := List.mem_singleton.1 hb
  refine @AsksForEdge.not_comparesPart _ _ _ 0 .rising hasks ⟨_, _, _, rfl, .inl ⟨⟨_, _, rfl⟩, ?_⟩⟩
  exact ⟨_, _, _, rfl, .inl ⟨.inl ⟨_, _, _, rfl⟩, _, rfl⟩⟩

end HdlLint.Flow
