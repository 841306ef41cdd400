import Mathlib.Data.List.Basic
import HdlLint.Flow.SignalMap

/-!
# Members of signal sets and keys of signal maps

The set operations of `Flow/SignalMap` by their members, and the order that they keep. A list in
ascending order is determined by its members, so a statement about the members of a set says all
that there is to say about it.
-/

namespace HdlLint.Flow
open Design (SignalId)

namespace SignalSet
variable {s t : SignalSet} {id x : SignalId}

/-- Each signal once, the smaller ones first. -/
def Ascending (s : SignalSet) : Prop := s.Pairwise (· < ·)

@[simp] theorem mem_insert : x ∈ SignalSet.insert s id ↔ x = id ∨ x ∈ s := by
  induction s with
  | nil => simp [SignalSet.insert]
  | cons y ys ih =>
    rw [SignalSet.insert]
    split_ifs with hlt heq
    · simp
    · subst heq; simp
    · rw [List.mem_cons, ih, List.mem_cons]; tauto

@[simp] theorem mem_union : x ∈ SignalSet.union s t ↔ x ∈ s ∨ x ∈ t := by
  unfold SignalSet.union
  induction t generalizing s with
  | nil => simp
  | cons y ys ih => rw [List.foldl_cons, ih, mem_insert, List.mem_cons]; tauto

@[simp] theorem mem_inter : x ∈ SignalSet.inter s t ↔ x ∈ s ∧ x ∈ t := by
  simp [SignalSet.inter]

namespace Ascending

theorem nil : Ascending [] := List.Pairwise.nil

theorem singleton (id : SignalId) : Ascending [id] := List.pairwise_singleton _ _

theorem insert (h : Ascending s) (id : SignalId) : Ascending (SignalSet.insert s id) := by
  induction s with
  | nil => exact singleton id
  | cons y ys ih =>
    obtain ⟨hy, hys⟩ := List.pairwise_cons.1 h
    rw [SignalSet.insert]
    split_ifs with hlt heq
    · refine List.pairwise_cons.2 ⟨fun z hz => ?_, h⟩
      rcases List.mem_cons.1 hz with rfl | hz
      · exact hlt
      · exact Nat.lt_trans hlt (hy z hz)
    · exact h
    · refine List.pairwise_cons.2 ⟨fun z hz => ?_, ih hys⟩
      rcases mem_insert.1 hz with rfl | hz
      · exact Nat.lt_of_le_of_ne (Nat.le_of_not_lt hlt) (Ne.symm heq)
      · exact hy z hz

theorem union (h : Ascending s) (t : SignalSet) : Ascending (SignalSet.union s t) := by
  unfold SignalSet.union
  induction t generalizing s with
  | nil => exact h
  | cons y ys ih => exact ih (h.insert y)

theorem inter (h : Ascending s) (t : SignalSet) : Ascending (SignalSet.inter s t) :=
  List.Pairwise.filter _ h

end Ascending
end SignalSet

namespace SignalMap
variable {α : Type} {m : SignalMap α} {id x : SignalId} {a : α}

@[simp] theorem mem_keys_insertNew : x ∈ (SignalMap.insertNew m id a).keys ↔ x = id ∨ x ∈ m.keys := by
  induction m with
  | nil => simp [SignalMap.insertNew, keys]
  | cons yb rest ih =>
    obtain ⟨y, b⟩ := yb
    rw [SignalMap.insertNew]
    split_ifs with hlt heq
    · simp [keys]
    · subst heq; simp [keys]
    · simp only [keys, List.map_cons, List.mem_cons] at ih ⊢
      rw [ih]; tauto

/-- The keys of a map of first values are the signals that occur. -/
@[simp] theorem mem_keys_firsts {occurrences : List (SignalId × α)} :
    x ∈ (firsts occurrences).keys ↔ ∃ a, (x, a) ∈ occurrences := by
  -- the fold keeps the keys that it starts from
  have hfold : ∀ (l : List (SignalId × α)) (m : SignalMap α),
      x ∈ keys (l.foldl (fun m ia => SignalMap.insertNew m ia.1 ia.2) m) ↔
        x ∈ m.keys ∨ ∃ a, (x, a) ∈ l := by
    intro l
    induction l with
    | nil => simp
    | cons yb rest ih =>
      intro m
      rw [List.foldl_cons, ih, mem_keys_insertNew]
      simp only [List.mem_cons, Prod.ext_iff]
      constructor
      · rintro ((rfl | hx) | ⟨a, ha⟩)
        exacts [.inr ⟨yb.2, .inl ⟨rfl, rfl⟩⟩, .inl hx, .inr ⟨a, .inr ha⟩]
      · rintro (hx | ⟨a, ⟨rfl, rfl⟩ | ha⟩)
        exacts [.inl (.inr hx), .inl (.inl rfl), .inr ⟨a, ha⟩]
  rw [firsts, hfold]
  simp [keys]

theorem ascending_keys_insertNew (h : m.keys.Ascending) (id : SignalId) (a : α) :
    (SignalMap.insertNew m id a).keys.Ascending := by
  induction m with
  | nil => exact SignalSet.Ascending.singleton id
  | cons yb rest ih =>
    obtain ⟨y, b⟩ := yb
    obtain ⟨hy, hrest⟩ := List.pairwise_cons.1 h
    rw [SignalMap.insertNew]
    split_ifs with hlt heq
    · refine List.pairwise_cons.2 ⟨fun z hz => ?_, h⟩
      rcases List.mem_cons.1 hz with rfl | hz
      · exact hlt
      · exact Nat.lt_trans hlt (hy z hz)
    · exact h
    · refine List.pairwise_cons.2 ⟨fun z hz => ?_, ih hrest⟩
      rcases mem_keys_insertNew.1 hz with rfl | hz
      · exact Nat.lt_of_le_of_ne (Nat.le_of_not_lt hlt) (Ne.symm heq)
      · exact hy z hz

theorem ascending_keys_firsts (occurrences : List (SignalId × α)) :
    (firsts occurrences).keys.Ascending := by
  have hfold : ∀ (l : List (SignalId × α)) (m : SignalMap α), m.keys.Ascending →
      (keys (l.foldl (fun m ia => SignalMap.insertNew m ia.1 ia.2) m)).Ascending := by
    intro l
    induction l with
    | nil => exact fun m hm => hm
    | cons x l ih => exact fun m hm => ih _ (ascending_keys_insertNew hm x.1 x.2)
  exact hfold occurrences [] SignalSet.Ascending.nil

theorem isSome_lookup : (m.lookup x).isSome ↔ x ∈ m.keys := by
  induction m with
  | nil => simp [keys]
  | cons yb rest ih =>
    obtain ⟨y, b⟩ := yb
    rw [List.lookup_cons]
    by_cases h : x = y
    · simp [h, keys]
    · simp only [keys, List.map_cons, List.mem_cons, h, false_or, beq_eq_false_iff_ne.2 h]
      exact ih

theorem lookup_eq_none : m.lookup x = none ↔ x ∉ m.keys := by
  rw [← isSome_lookup, Bool.not_eq_true, Option.isSome_eq_false_iff, Option.isNone_iff_eq_none]

theorem lookup_cons_of_ne {b : α} (h : x ≠ id) : List.lookup x ((id, b) :: m) = m.lookup x := by
  rw [List.lookup_cons, beq_eq_false_iff_ne.2 h]

/-- A map in ascending order holds one value per signal, the one that is looked up. -/
theorem mem_iff_lookup (h : m.keys.Ascending) : (x, a) ∈ m ↔ m.lookup x = some a := by
  induction m with
  | nil => simp
  | cons yb rest ih =>
    obtain ⟨y, b⟩ := yb
    obtain ⟨hy, hrest⟩ := List.pairwise_cons.1 h
    rw [List.mem_cons, ih hrest]
    by_cases hxy : x = y
    · subst hxy
      have hnone : rest.lookup x = none := lookup_eq_none.2 fun hx => Nat.lt_irrefl _ (hy x hx)
      simp [hnone, eq_comm]
    · simp [hxy, lookup_cons_of_ne hxy]

theorem exists_lookup (h : m.keys.Ascending) (hx : x ∈ m.keys) :
    ∃ a, m.lookup x = some a ∧ (x, a) ∈ m := by
  obtain ⟨a, ha⟩ := Option.isSome_iff_exists.1 (isSome_lookup.2 hx)
  exact ⟨a, ha, (mem_iff_lookup h).2 ha⟩

theorem lookup_insertNew (h : m.keys.Ascending) (id : SignalId) (a : α) :
    (SignalMap.insertNew m id a).lookup x = (m.lookup x).or (List.lookup x [(id, a)]) := by
  induction m with
  | nil => rfl
  | cons yb rest ih =>
    obtain ⟨y, b⟩ := yb
    obtain ⟨hy, hrest⟩ := List.pairwise_cons.1 h
    rw [SignalMap.insertNew]
    split_ifs with hlt heq
    · by_cases hx : x = id
      · -- the new signal comes before all others, so it had no value
        have hnone : List.lookup x ((y, b) :: rest) = none := by
          subst hx
          refine lookup_eq_none.2 fun hx => ?_
          rcases List.mem_cons.1 hx with rfl | hx
          · exact Nat.lt_irrefl _ hlt
          · exact Nat.lt_asymm hlt (hy x hx)
        rw [hnone, hx, List.lookup_cons_self, List.lookup_cons_self, Option.none_or]
      · rw [lookup_cons_of_ne hx, lookup_cons_of_ne hx, List.lookup_nil, Option.or_none]
    · subst heq
      by_cases hx : x = id
      · rw [hx, List.lookup_cons_self, Option.some_or]
      · rw [lookup_cons_of_ne hx, lookup_cons_of_ne hx, List.lookup_nil, Option.or_none]
    · by_cases hx : x = y
      · rw [hx, List.lookup_cons_self, List.lookup_cons_self, Option.some_or]
      · rw [lookup_cons_of_ne hx, lookup_cons_of_ne hx, ih hrest]

/-- The map of first values gives what the list gives when it is searched from its start. -/
theorem lookup_firsts (occurrences : List (SignalId × α)) :
    (firsts occurrences).lookup x = occurrences.lookup x := by
  have hfold : ∀ (l : List (SignalId × α)) (m : SignalMap α), m.keys.Ascending →
      List.lookup x (l.foldl (fun m ia => SignalMap.insertNew m ia.1 ia.2) m) =
        (m.lookup x).or (l.lookup x) := by
    intro l
    induction l with
    | nil => simp
    | cons ia l ih =>
      intro m hm
      obtain ⟨y, b⟩ := ia
      rw [List.foldl_cons, ih _ (ascending_keys_insertNew hm y b), lookup_insertNew hm, Option.or_assoc]
      by_cases hx : x = y
      · rw [hx, List.lookup_cons_self, List.lookup_cons_self, Option.some_or]
      · rw [lookup_cons_of_ne hx, lookup_cons_of_ne hx, List.lookup_nil, Option.none_or]
  exact hfold occurrences [] SignalSet.Ascending.nil

end SignalMap

end HdlLint.Flow
