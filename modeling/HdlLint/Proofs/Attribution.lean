import Mathlib.Data.List.Forall2
import HdlLint.Check
import HdlLint.Proofs.Preorder
import HdlLint.Proofs.StableOrder

/-!
# One finding for each cause

A rule makes one finding for each thing that it objects to, and makes them in order. `Attributed`
says so of a list of findings, for any kind of causes. What the findings say of their causes decides
what they are, so that two lists that are attributed to the same causes are compared one finding at a
time (`Attributed.map_eq`).

Most rules look at one process after the other. Their causes are signals in a process, by the number
of the process (`Attributed.flatMap`).
-/

namespace HdlLint
open Design (SignalId Instance Process)

/-- The findings are one for each cause, in ascending order of the causes, and each of them fits its
cause. -/
def Attributed {κ : Type} (lt : κ → κ → Prop) (cause : κ → Prop) (fits : κ → Finding → Prop)
    (found : List Finding) : Prop :=
  ∃ causes : List κ, causes.Pairwise lt ∧ (∀ k, k ∈ causes ↔ cause k) ∧ List.Forall₂ fits causes found

/-- The finding without its notes. -/
def Finding.bare (f : Finding) : Finding := { f with notes := [] }

theorem Finding.eq_of_bare {f g : Finding} (h : f.bare = g.bare) (hnotes : f.notes = g.notes) : f = g := by
  cases f
  cases g
  simp_all [bare]

namespace Attributed
variable {κ : Type} {lt : κ → κ → Prop} {cause cause' : κ → Prop} {fits fits' : κ → Finding → Prop}
  {found found' : List Finding}

theorem of_map {σ : Type} {l : List σ} {key : σ → κ} {make : σ → Finding}
    (h : (l.map key).Pairwise lt) (hcause : ∀ k, k ∈ l.map key ↔ cause k)
    (hfits : ∀ x ∈ l, fits (key x) (make x)) : Attributed lt cause fits (l.map make) := by
  refine ⟨l.map key, h, hcause, ?_⟩
  rw [List.forall₂_map_left_iff, List.forall₂_map_right_iff, List.forall₂_same]
  exact hfits

theorem of_causes {causes : List κ} {make : κ → Finding} (h : causes.Pairwise lt)
    (hcause : ∀ k, k ∈ causes ↔ cause k) (hfits : ∀ k ∈ causes, fits k (make k)) :
    Attributed lt cause fits (causes.map make) := by
  refine ⟨causes, h, hcause, ?_⟩
  rw [List.forall₂_map_right_iff, List.forall₂_same]
  exact hfits

theorem nil (h : ∀ k, ¬ cause k) : Attributed lt cause fits [] :=
  ⟨[], .nil, fun k => iff_of_false List.not_mem_nil (h k), .nil⟩

/-- Only some of the candidates are causes, those for which something is found. -/
theorem of_filterMap {candidates : List κ} {make? : κ → Option Finding} (h : candidates.Pairwise lt)
    (hcause : ∀ k, cause k ↔ k ∈ candidates ∧ (make? k).isSome)
    (hfits : ∀ k f, make? k = some f → fits k f) :
    Attributed lt cause fits (candidates.filterMap make?) := by
  refine ⟨candidates.filter fun k => (make? k).isSome, h.filter _, fun k => ?_, ?_⟩
  · rw [List.mem_filter, hcause]
  · clear h hcause
    induction candidates with
    | nil => exact .nil
    | cons k ks ih =>
      cases hk : make? k with
      | none => simpa [hk] using ih
      | some f => simpa [hk] using ⟨hfits k f hk, ih⟩

/-- What is told by the cause is the same in two lists of findings for the same causes. -/
theorem map_eq {τ : Type} {g : Finding → τ} (hlt : ∀ j k, lt j k → ¬ lt k j)
    (h : Attributed lt cause fits found) (h' : Attributed lt cause' fits' found')
    (hcause : ∀ k, cause k ↔ cause' k) (hg : ∀ k f f', fits k f → fits' k f' → g f = g f') :
    found.map g = found'.map g := by
  obtain ⟨causes, hpair, hmem, hfits⟩ := h
  obtain ⟨causes', hpair', hmem', hfits'⟩ := h'
  obtain rfl : causes = causes' :=
    StableOrder.eq_of_mem_iff hlt hpair hpair' fun k => by rw [hmem, hmem', hcause]
  clear hpair hpair' hmem hmem'
  induction hfits generalizing found' with
  | nil =>
    cases hfits'
    rfl
  | cons hf _ ih =>
    cases hfits' with
    | cons hf' hfits' => rw [List.map_cons, List.map_cons, hg _ _ _ hf hf', ih hfits']

end Attributed

theorem forall₂_rows {α β γ : Type} {R : α → β → Prop} {row : γ → Nat → List α}
    {row' : γ → Nat → List β} {cs : List γ}
    (h : ∀ c k, cs[k]? = some c → List.Forall₂ R (row c k) (row' c k)) :
    List.Forall₂ R (Flow.rows row cs) (Flow.rows row' cs) := by
  refine List.rel_flatMap (R := fun ck ck' => ck = ck' ∧ cs[ck.2]? = some ck.1) ?_ ?_
  · exact List.forall₂_same.2 fun ck hck => ⟨rfl, List.mem_zipIdx_iff_getElem?.1 hck⟩
  · rintro ck _ ⟨rfl, hck⟩
    exact h ck.1 ck.2 hck

/-! ### Signals of processes -/

/-- The number of a process in its instance, and a signal. -/
abbrev Spot := Nat × SignalId

/-- Spots are ordered by process, then by signal. -/
def Spot.Before (s t : Spot) : Prop := s.1 < t.1 ∨ s.1 = t.1 ∧ s.2 < t.2

theorem Spot.Before.asymm (s t : Spot) (h : s.Before t) : ¬ t.Before s := by
  rintro (hlt | ⟨heq, hlt⟩) <;> rcases h with hlt' | ⟨heq', hlt'⟩
  · exact Nat.lt_asymm hlt hlt'
  · exact Nat.lt_irrefl _ (heq' ▸ hlt)
  · exact Nat.lt_irrefl _ (heq ▸ hlt')
  · exact Nat.lt_asymm hlt hlt'

/-- Something holds of the process with the number and of the signal. -/
def Spot.Holds (ps : List Process) (P : Process → SignalId → Prop) (s : Spot) : Prop :=
  ∃ p, ps[s.1]? = some p ∧ P p s.2

/-- What is found in each process for itself is found in all of them. -/
theorem Attributed.flatMap {cause : Process → SignalId → Prop}
    {fits : Process → SignalId → Finding → Prop} {find : Process → List Finding} {ps : List Process}
    (h : ∀ p ∈ ps, Attributed (· < ·) (cause p) (fits p) (find p)) :
    Attributed Spot.Before (Spot.Holds ps cause) (fun s f => s.Holds ps (fits · · f))
      (ps.flatMap find) := by
  choose! causes hpair hcause hfits using h
  refine ⟨Flow.rows (fun p n => (causes p).map (n, ·)) ps, ?_, fun s => ?_, ?_⟩
  · refine Flow.pairwise_rows (fun p n hp => ?_) fun p q m n hlt s hs t ht => ?_
    · exact List.pairwise_map.2
        ((hpair p (List.mem_of_getElem? hp)).imp fun hlt => .inr ⟨rfl, hlt⟩)
    · obtain ⟨_, -, rfl⟩ := List.mem_map.1 hs
      obtain ⟨_, -, rfl⟩ := List.mem_map.1 ht
      exact .inl hlt
  · simp only [Flow.mem_rows, List.mem_map]
    constructor
    · rintro ⟨p, n, hp, id, hid, rfl⟩
      exact ⟨p, hp, (hcause p (List.mem_of_getElem? hp) id).1 hid⟩
    · rintro ⟨p, hp, hid⟩
      exact ⟨p, s.1, hp, s.2, (hcause p (List.mem_of_getElem? hp) s.2).2 hid, rfl⟩
  · rw [← Flow.rows_flatMap]
    refine forall₂_rows fun p n hp => ?_
    rw [List.forall₂_map_left_iff]
    exact (hfits p (List.mem_of_getElem? hp)).imp fun id f hf => ⟨p, hp, hf⟩

@[simp] theorem View.top_ofInstance (top : String) (cap : Nat) (i : Instance) :
    (View.ofInstance top cap i).top = top :=
  rfl

@[simp] theorem View.inst_ofInstance (top : String) (cap : Nat) (i : Instance) :
    (View.ofInstance top cap i).inst = i :=
  rfl

theorem View.flatMap_processes (top : String) (cap : Nat) (i : Instance)
    (find : Process × Flow.Summary → List Finding) :
    (View.ofInstance top cap i).processes.flatMap find =
      i.processes.toList.flatMap fun p => find (p, Flow.summarize cap p) :=
  List.flatMap_map ..

end HdlLint
