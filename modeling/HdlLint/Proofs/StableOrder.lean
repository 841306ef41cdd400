import Mathlib.Data.List.Perm.Basic
import Mathlib.Data.List.Pairwise

/-!
# Lists in a stable order

A report puts its lists in order and keeps the order of what is tied. `eq_mergeSort`: a list that is in
order, and in which the members tied with any one are those of `xs` in the order of `xs`, is `xs` put in
order. So to put a list in order and to leave some of it out can be done one after the other in either
way (`filter_mergeSort`), and parts that stand apart can be put in order one by one
(`mergeSort_flatMap`).
-/

namespace HdlLint.StableOrder
variable {α τ : Type} {le : α → α → Bool} {xs ys : List α}

/-- Neither of the two belongs before the other. -/
def tied (le : α → α → Bool) (a b : α) : Bool := le a b && le b a

theorem tied_iff {a b : α} : tied le a b = true ↔ le a b = true ∧ le b a = true := Bool.and_eq_true_iff

theorem tied_self (htotal : ∀ a b, (le a b || le b a) = true) (a : α) : tied le a a = true := by
  have h := htotal a a
  rw [Bool.or_self] at h
  exact tied_iff.2 ⟨h, h⟩

/-- How members are compared with what is not in the list does not matter. -/
theorem mergeSort_congr {r s : α → α → Bool} (h : ∀ a ∈ xs, ∀ b ∈ xs, r a b = s a b) :
    xs.mergeSort r = xs.mergeSort s := by
  have hmap : (xs.mergeSort r).map id = (xs.map id).mergeSort s := List.map_mergeSort h
  rwa [List.map_id, List.map_id] at hmap

/-- Two lists in order are the same if the members tied with any one are the same in both. -/
theorem eq_of_filter_tied (htotal : ∀ a b, (le a b || le b a) = true)
    (hxs : xs.Pairwise fun a b => le a b = true) (hys : ys.Pairwise fun a b => le a b = true)
    (h : ∀ a, xs.filter (tied le a) = ys.filter (tied le a)) : xs = ys := by
  have hself := tied_self htotal
  -- each list has what the other has
  have hmem : ∀ {us vs : List α}, (∀ a, us.filter (tied le a) = vs.filter (tied le a)) →
      ∀ a ∈ us, a ∈ vs := by
    intro us vs huv a ha
    have hfilter := List.mem_filter.2 ⟨ha, hself a⟩
    rw [huv a] at hfilter
    exact (List.mem_filter.1 hfilter).1
  induction xs generalizing ys with
  | nil =>
    refine (List.eq_nil_iff_forall_not_mem.2 fun a ha => ?_).symm
    exact List.not_mem_nil (hmem (fun b => (h b).symm) a ha)
  | cons x xs ih =>
    cases ys with
    | nil => exact absurd (hmem h x List.mem_cons_self) List.not_mem_nil
    | cons y ys =>
      obtain ⟨hx, hxs'⟩ := List.pairwise_cons.1 hxs
      obtain ⟨hy, hys'⟩ := List.pairwise_cons.1 hys
      -- both heads come first, so they are tied
      have hle : le x x = true := (tied_iff.1 (hself x)).1
      have hxy : le x y = true := by
        rcases List.mem_cons.1 (hmem (fun b => (h b).symm) y List.mem_cons_self) with rfl | hmem
        · exact hle
        · exact hx y hmem
      have hyx : le y x = true := by
        rcases List.mem_cons.1 (hmem h x List.mem_cons_self) with rfl | hmem
        · exact hle
        · exact hy x hmem
      have hheads := h x
      rw [List.filter_cons_of_pos (hself x), List.filter_cons_of_pos (tied_iff.2 ⟨hxy, hyx⟩)] at hheads
      obtain rfl : x = y := (List.cons.inj hheads).1
      have htails : ∀ a, xs.filter (tied le a) = ys.filter (tied le a) := by
        intro a
        have ha := h a
        rw [List.filter_cons, List.filter_cons] at ha
        split_ifs at ha with htied
        · exact (List.cons.inj ha).2
        · exact ha
      rw [ih hxs' hys' htails]

/-- A list in strict order is told by its members. -/
theorem eq_of_mem_iff {lt : α → α → Prop} (hlt : ∀ a b, lt a b → ¬ lt b a) (hxs : xs.Pairwise lt)
    (hys : ys.Pairwise lt) (h : ∀ a, a ∈ xs ↔ a ∈ ys) : xs = ys := by
  have hne : ∀ {a b : α}, lt a b → a ≠ b := by
    rintro a _ hab rfl
    exact hlt a a hab hab
  have hperm : xs.Perm ys := (List.perm_ext_iff_of_nodup (hxs.imp hne) (hys.imp hne)).2 h
  exact hperm.eq_of_pairwise (fun a b _ _ hab hba => absurd hba (hlt a b hab)) hxs hys

/-- Parts of which at most one is not empty can be put together in any order. -/
theorem flatMap_eq_of_perm {f : τ → List α} {ts us : List τ} (hperm : ts.Perm us)
    (h : ts.Pairwise fun t u => f t = [] ∨ f u = []) : ts.flatMap f = us.flatMap f := by
  induction hperm with
  | nil => rfl
  | cons t _ ih => rw [List.flatMap_cons, List.flatMap_cons, ih (List.pairwise_cons.1 h).2]
  | swap t u ts =>
    have hone := (List.pairwise_cons.1 h).1 t List.mem_cons_self
    simp only [List.flatMap_cons]
    rcases hone with hnil | hnil <;> rw [hnil] <;> simp
  | trans hperm _ ih ih' =>
    exact (ih h).trans (ih' ((hperm.pairwise_iff Or.symm).1 h))

section
variable (htrans : ∀ a b c, le a b = true → le b c = true → le a c = true)
  (htotal : ∀ a b, (le a b || le b a) = true)
include htrans htotal

theorem filter_tied_mergeSort (a : α) :
    (xs.mergeSort le).filter (tied le a) = xs.filter (tied le a) := by
  -- members that are tied are in order as they stand
  have hsorted : (xs.filter (tied le a)).Pairwise fun b c => le b c = true := by
    refine List.pairwise_of_forall_mem_list fun b hb c hc => ?_
    obtain ⟨-, hb⟩ := tied_iff.1 (List.mem_filter.1 hb).2
    obtain ⟨hc, -⟩ := tied_iff.1 (List.mem_filter.1 hc).2
    exact htrans b a c hb hc
  have hsub : (xs.filter (tied le a)).Sublist ((xs.mergeSort le).filter (tied le a)) := by
    have h := (List.sublist_mergeSort htrans htotal hsorted List.filter_sublist).filter (tied le a)
    rwa [List.filter_filter, List.filter_congr fun _ _ => Bool.and_self _] at h
  have hperm := (List.mergeSort_perm xs le).filter (tied le a)
  exact (hsub.eq_of_length hperm.length_eq.symm).symm

theorem eq_mergeSort (hys : ys.Pairwise fun a b => le a b = true)
    (h : ∀ a, ys.filter (tied le a) = xs.filter (tied le a)) : ys = xs.mergeSort le :=
  eq_of_filter_tied htotal hys (List.pairwise_mergeSort htrans htotal xs) fun a =>
    (h a).trans (filter_tied_mergeSort htrans htotal a).symm

theorem filter_mergeSort (p : α → Bool) (xs : List α) :
    (xs.mergeSort le).filter p = (xs.filter p).mergeSort le := by
  refine eq_mergeSort htrans htotal ((List.pairwise_mergeSort htrans htotal xs).filter p) fun a => ?_
  have hswap : ∀ zs : List α, (zs.filter p).filter (tied le a) = (zs.filter (tied le a)).filter p := by
    intro zs
    rw [List.filter_filter, List.filter_filter]
    exact List.filter_congr fun _ _ => Bool.and_comm _ _
  rw [hswap, hswap, filter_tied_mergeSort htrans htotal]

/-- If all of one part belongs before all of the next, the parts are put in order one by one. -/
theorem mergeSort_flatMap {f : τ → List α} {ts us : List τ} (hperm : us.Perm ts)
    (hapart : us.Pairwise fun t u => ∀ a ∈ f t, ∀ b ∈ f u, le a b = true ∧ le b a = false) :
    (ts.flatMap f).mergeSort le = us.flatMap fun t => (f t).mergeSort le := by
  refine (eq_mergeSort htrans htotal ?_ fun a => ?_).symm
  · refine List.pairwise_flatMap.2 ⟨fun t _ => List.pairwise_mergeSort htrans htotal _, ?_⟩
    refine hapart.imp fun h a ha b hb => ?_
    exact (h a (List.mem_mergeSort.1 ha) b (List.mem_mergeSort.1 hb)).1
  · -- what is tied with `a` stands in one part only
    have hone : us.Pairwise fun t u => (f t).filter (tied le a) = [] ∨ (f u).filter (tied le a) = [] := by
      refine hapart.imp fun {t u} h => ?_
      by_contra hboth
      rw [not_or] at hboth
      obtain ⟨b, hb⟩ := List.exists_mem_of_ne_nil _ hboth.1
      obtain ⟨c, hc⟩ := List.exists_mem_of_ne_nil _ hboth.2
      obtain ⟨hb, htied⟩ := List.mem_filter.1 hb
      obtain ⟨hc, htied'⟩ := List.mem_filter.1 hc
      have hle := htrans c a b (tied_iff.1 htied').2 (tied_iff.1 htied).1
      rw [(h b hb c hc).2] at hle
      cases hle
    rw [List.filter_flatMap, List.filter_flatMap, ← flatMap_eq_of_perm hperm hone]
    simp only [filter_tied_mergeSort htrans htotal]

end

end HdlLint.StableOrder
