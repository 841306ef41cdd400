import Mathlib.Data.List.Lex
import Mathlib.Tactic.Choose
import HdlLint.Proofs.SignalSet

/-!
# First occurrences in pre-order

What the flow analysis looks for in a process stands in a tree, at an address that says which part
to take at each step down. Pre-order is the lexicographic order of the addresses. `Preordered at? l`
says that the list `l` holds what stands in a tree in this order; the lists for the parts of a node,
one after the other, make the list for the node (`Preordered.node`).

A map of first values that is made from such a list records for each signal what stands first in
the tree (`Preordered.records`).
-/

namespace HdlLint.Flow
open Design (SignalId)
variable {α β γ : Type}

/-! ### Addresses -/

/-- The way down a tree: at each step, the number of the part that is taken. -/
abbrev Address := List Nat

namespace Address

/-- In pre-order a node comes before what is below it, and what is below one part before what is
below the next. -/
def Before (a b : Address) : Prop := List.Lex (· < ·) a b

theorem Before.asymm {a b : Address} (h : a.Before b) : ¬ b.Before a :=
  Std.Asymm.asymm (r := List.Lex (· < ·)) a b h

theorem not_before_self (a : Address) : ¬ a.Before a := fun h => h.asymm h

/-- Any third address is behind the first of the two or before the second. -/
theorem Before.connected {a c : Address} (h : a.Before c) (b : Address) : a.Before b ∨ b.Before c :=
  @IsOrderConnected.conn Address (List.Lex (· < ·)) _ a b c h

end Address

/-- `x` stands at `a`, and nothing stands before it. -/
structure First (At : Address → α → Prop) (a : Address) (x : α) : Prop where
  here : At a x
  least : ∀ b y, At b y → ¬ b.Before a

/-- What is first of two kinds of things is the first of one kind or the first of the other,
whichever comes first. -/
theorem First.or_iff {A B : Address → α → Prop} (hA : ∀ a x, A a x → ∃ b y, First A b y)
    (hB : ∀ a x, B a x → ∃ b y, First B b y) {a : Address} {x : α} :
    First (fun a x => A a x ∨ B a x) a x ↔ First (fun a x => First A a x ∨ First B a x) a x := by
  constructor
  · rintro ⟨here, least⟩
    refine ⟨?_, fun b y h => least b y (h.imp First.here First.here)⟩
    exact here.imp (fun h => ⟨h, fun b y hb => least b y (.inl hb)⟩)
      (fun h => ⟨h, fun b y hb => least b y (.inr hb)⟩)
  · rintro ⟨here, least⟩
    refine ⟨here.imp First.here First.here, fun b y h hba => ?_⟩
    -- the first of the kind of `y` is not behind `y`, so it would come before `x` as well
    rcases h with h | h
    · obtain ⟨c, z, hc⟩ := hA b y h
      rcases hba.connected c with hbc | hca
      · exact hc.least b y h hbc
      · exact least c z (.inl hc) hca
    · obtain ⟨c, z, hc⟩ := hB b y h
      rcases hba.connected c with hbc | hca
      · exact hc.least b y h hbc
      · exact least c z (.inr hc) hca

/-! ### Rows -/

/-- The rows that the members of a list give, one after the other. A row can depend on the number
of its member. -/
def rows (row : γ → Nat → List α) (cs : List γ) : List α :=
  cs.zipIdx.flatMap fun ck => row ck.1 ck.2

section Rows
variable {row : γ → Nat → List α} {cs : List γ}

theorem mem_rows {x : α} : x ∈ rows row cs ↔ ∃ c k, cs[k]? = some c ∧ x ∈ row c k := by
  simp only [rows, List.mem_flatMap, Prod.exists, List.mem_zipIdx_iff_getElem?]

theorem rows_congr {row' : γ → Nat → List α} (h : ∀ c k, cs[k]? = some c → row c k = row' c k) :
    rows row cs = rows row' cs :=
  List.flatMap_congr fun ck hck => h ck.1 ck.2 (List.mem_zipIdx_iff_getElem?.1 hck)

theorem rows_flatMap (f : γ → List α) (cs : List γ) : rows (fun c _ => f c) cs = cs.flatMap f := by
  rw [rows, ← List.flatMap_map, List.zipIdx_map_fst]

theorem map_rows (f : α → β) : (rows row cs).map f = rows (fun c k => (row c k).map f) cs :=
  List.map_flatMap

theorem flatMap_rows (f : α → List β) :
    (rows row cs).flatMap f = rows (fun c k => (row c k).flatMap f) cs :=
  List.flatMap_assoc

theorem rows_cons (row : γ → Nat → List α) (c : γ) (cs : List γ) :
    rows row (c :: cs) = row c 0 ++ rows (fun c k => row c (k + 1)) cs := by
  rw [rows, List.zipIdx_cons', List.flatMap_cons, List.flatMap_map]
  rfl

theorem pairwise_rows {R : α → α → Prop} (hrow : ∀ c k, cs[k]? = some c → (row c k).Pairwise R)
    (hrows : ∀ c c' k k', k < k' → ∀ x ∈ row c k, ∀ y ∈ row c' k', R x y) :
    (rows row cs).Pairwise R := by
  have hnumbers : cs.zipIdx.Pairwise fun ck ck' => ck.2 < ck'.2 := by
    rw [← List.pairwise_map (f := Prod.snd), List.zipIdx_map_snd]
    exact List.pairwise_lt_range'
  refine List.pairwise_flatMap.2 ⟨fun ck hck => ?_, hnumbers.imp fun hlt => hrows _ _ _ _ hlt⟩
  exact hrow ck.1 ck.2 (List.mem_zipIdx_iff_getElem?.1 hck)

end Rows

/-! ### Lists in pre-order -/

/-- The list holds what stands in a tree, in pre-order. The tree is given by what stands at each
address. -/
def Preordered (at? : Address → Option α) (l : List α) : Prop :=
  ∃ entries : List (Address × α), entries.Pairwise (fun e e' => e.1.Before e'.1) ∧
    (∀ a x, (a, x) ∈ entries ↔ at? a = some x) ∧ entries.map (·.2) = l

/-- The tree with something, or nothing, at its root, and a tree for each of its parts. -/
def node (here : Option α) (at? : γ → Nat → Address → Option α) (parts : List γ) : Address → Option α
  | [] => here
  | k :: a => (parts[k]?).bind fun c => at? c k a

namespace Preordered

theorem none : Preordered (fun _ => Option.none : Address → Option α) [] :=
  ⟨[], .nil, by simp, rfl⟩

theorem map {at? : Address → Option α} {l : List α} (h : Preordered at? l) (f : α → β) :
    Preordered (fun a => (at? a).map f) (l.map f) := by
  obtain ⟨entries, hpair, hmem, rfl⟩ := h
  refine ⟨entries.map fun e => (e.1, f e.2), List.pairwise_map.2 hpair, fun a y => ?_, by simp⟩
  simp only [List.mem_map, Prod.mk.injEq, Option.map_eq_some_iff, ← hmem]
  constructor
  · rintro ⟨⟨b, x⟩, hx, rfl, rfl⟩; exact ⟨x, hx, rfl⟩
  · rintro ⟨x, hx, rfl⟩; exact ⟨(a, x), hx, rfl, rfl⟩

theorem parts {at? : γ → Nat → Address → Option α} {row : γ → Nat → List α} {cs : List γ}
    (h : ∀ c k, cs[k]? = some c → Preordered (at? c k) (row c k)) :
    Preordered (Flow.node Option.none at? cs) (rows row cs) := by
  choose! entries hpair hmem hlist using h
  refine ⟨rows (fun c k => (entries c k).map fun e => (k :: e.1, e.2)) cs, ?_, fun a x => ?_, ?_⟩
  · refine pairwise_rows (fun c k hc => ?_) fun c c' k k' hlt e he e' he' => ?_
    · exact List.pairwise_map.2 ((hpair c k hc).imp .cons)
    · obtain ⟨_, -, rfl⟩ := List.mem_map.1 he
      obtain ⟨_, -, rfl⟩ := List.mem_map.1 he'
      exact .rel hlt
  · simp only [mem_rows, List.mem_map, Prod.exists, Prod.mk.injEq]
    constructor
    · rintro ⟨c, k, hc, b, y, hy, rfl, rfl⟩
      exact Option.bind_eq_some_iff.2 ⟨c, hc, (hmem c k hc b y).1 hy⟩
    · intro hx
      cases a with
      | nil => cases hx
      | cons k b =>
        obtain ⟨c, hc, hx⟩ := Option.bind_eq_some_iff.1 hx
        exact ⟨c, k, hc, b, x, (hmem c k hc b x).2 hx, rfl, rfl⟩
  · rw [map_rows]
    refine rows_congr fun c k hc => ?_
    rw [List.map_map, ← hlist c k hc]
    rfl

/-- The lists for the parts of a node, one after the other and behind what stands at its root, make
the list for the node. -/
theorem node {here : Option α} {at? : γ → Nat → Address → Option α} {row : γ → Nat → List α}
    {cs : List γ} (h : ∀ c k, cs[k]? = some c → Preordered (at? c k) (row c k)) :
    Preordered (Flow.node here at? cs) (here.toList ++ rows row cs) := by
  cases here with
  | none => exact parts h
  | some x =>
    obtain ⟨entries, hpair, hmem, hlist⟩ := parts h
    have hroot : ∀ y, ([], y) ∉ entries := by
      intro y hy
      cases (hmem [] y).1 hy
    refine ⟨([], x) :: entries, List.pairwise_cons.2 ⟨fun e he => ?_, hpair⟩, fun a y => ?_, ?_⟩
    · obtain ⟨a, y⟩ := e
      cases a with
      | nil => exact absurd he (hroot y)
      | cons k a => exact .nil
    · cases a with
      | nil => simp [hroot, Flow.node, eq_comm]
      | cons k a =>
        rw [List.mem_cons, hmem]
        simp [Flow.node]
    · rw [List.map_cons, hlist]
      rfl

end Preordered

/-! ### Maps of first values -/

/-- A map holds, for each signal that occurs in a tree, what stands first there. -/
structure SignalMap.Records (m : SignalMap α) (At : SignalId → Address → α → Prop) : Prop where
  ascending : m.keys.Ascending
  keys : ∀ id, id ∈ m.keys ↔ ∃ a x, At id a x
  first : ∀ id x, (id, x) ∈ m ↔ ∃ a, First (At id) a x

theorem SignalMap.Records.exists_first {m : SignalMap α} {At : SignalId → Address → α → Prop}
    (h : m.Records At) {id : SignalId} {a : Address} {x : α} (ha : At id a x) :
    ∃ b y, First (At id) b y := by
  obtain ⟨⟨_, y⟩, hy, rfl⟩ := List.mem_map.1 ((h.keys id).2 ⟨a, x, ha⟩)
  obtain ⟨b, hb⟩ := (h.first _ y).1 hy
  exact ⟨b, y, hb⟩

theorem lookup_eq_some_iff_first {entries : List (Address × SignalId × α)} {id : SignalId} {x : α}
    (h : entries.Pairwise fun e e' => e.1.Before e'.1) :
    (entries.map (·.2)).lookup id = some x ↔ ∃ a, First (fun a x => (a, id, x) ∈ entries) a x := by
  induction entries with
  | nil =>
    constructor
    · intro hx
      cases hx
    · rintro ⟨a, ha⟩
      exact absurd ha.here List.not_mem_nil
  | cons e rest ih =>
    obtain ⟨a, y, z⟩ := e
    obtain ⟨hfirst, hrest⟩ := List.pairwise_cons.1 h
    rw [List.map_cons]
    by_cases hid : id = y
    · subst hid
      rw [List.lookup_cons_self, Option.some.injEq]
      constructor
      · rintro rfl
        refine ⟨a, List.mem_cons_self, fun b w hb hba => ?_⟩
        rcases List.mem_cons.1 hb with heq | hb
        · obtain ⟨rfl, -⟩ := Prod.mk.inj heq
          exact Address.not_before_self b hba
        · exact (hfirst _ hb).asymm hba
      · rintro ⟨b, hb, hleast⟩
        rcases List.mem_cons.1 hb with heq | hb
        · exact (Prod.mk.inj (Prod.mk.inj heq).2).2.symm
        · exact absurd (hfirst _ hb) (hleast a z List.mem_cons_self)
    · have hmem : ∀ b w, (b, id, w) ∈ (a, y, z) :: rest ↔ (b, id, w) ∈ rest := by simp [hid]
      simp only [SignalMap.lookup_cons_of_ne hid, ih hrest, hmem]

/-- The first values of a list in pre-order are what stands first. -/
theorem Preordered.records {at? : Address → Option (SignalId × α)} {l : List (SignalId × α)}
    (h : Preordered at? l) : (SignalMap.firsts l).Records fun id a x => at? a = some (id, x) := by
  obtain ⟨entries, hpair, hmem, rfl⟩ := h
  simp only [← hmem]
  refine ⟨SignalMap.ascending_keys_firsts _, fun id => ?_, fun id x => ?_⟩
  · simp only [SignalMap.mem_keys_firsts, List.mem_map, Prod.exists]
    constructor
    · rintro ⟨_, a, y, x, hx, heq⟩
      obtain ⟨rfl, rfl⟩ := Prod.mk.inj heq
      exact ⟨a, x, hx⟩
    · rintro ⟨a, x, hx⟩
      exact ⟨x, a, id, x, hx, rfl⟩
  · rw [SignalMap.mem_iff_lookup (SignalMap.ascending_keys_firsts _), SignalMap.lookup_firsts,
      lookup_eq_some_iff_first hpair]

end HdlLint.Flow
