import Mathlib.Data.List.Nodup
import Mathlib.Data.List.Sort
import HdlLint.Proofs.Binding
import HdlLint.Proofs.Ordinals
import HdlLint.Proofs.Renumbering
import HdlLint.Proofs.StableOrder

/-!
# The bounds of a loop

What is built of an instance is what the copies of its parts ask for (`Pending.build_unrolling`), and a
copy is told by its site (`Reaches.unique`). If the range of one loop is changed, the copies outside of
that loop stay, at the same sites (`Reranged.reaches`): they see the same names, and only the signals
that loops declare can have other numbers there. So nothing that is made outside of the loop shows what
range it has.
-/

namespace HdlLint.Design
open Syntax (Library)

/-! ### Where copies stand -/

/-- The number in the block behind `depth` rounds, and the number of the round if it leads into a loop. -/
def Site.entry (s : Site) (depth : Nat) : Nat × Option Nat :=
  match s.rounds[depth]? with
  | some x => (x.1, some x.2)
  | none => (s.number, none)

section
variable {ν : Site → SignalId} {o q q' : Place} {y y' : Part} {xs : List Part}

theorem Place.entry_site (o : Place) : o.site.entry o.rounds.length = (o.number, none) := by
  simp only [Site.entry, Place.site, List.getElem?_eq_none (Nat.le_refl _)]

theorem entry_of_round {g : Syntax.Generate} {r : Nat} {k : Int}
    (h : (o.round g r k).rounds <+: q.rounds) :
    q.site.entry o.rounds.length = (o.number, some r) := by
  obtain ⟨more, hmore⟩ := h
  have hget : q.site.rounds[o.rounds.length]? = some (o.number, r) := by
    rw [Place.site, ← hmore, Place.round, List.append_assoc, List.getElem?_append_right (Nat.le_refl _),
      Nat.sub_self]
    rfl
  simp only [Site.entry, hget]

/-- A copy is in the block, or in a round of a loop of the block. -/
theorem Reaches.entry (h : Reaches ν o xs q y) : o.rounds <+: q.rounds ∧
    o.number ≤ (q.site.entry o.rounds.length).1 ∧
    (q.site.entry o.rounds.length).1 < o.number + xs.length := by
  induction h with
  | @here o x xs =>
    rw [Place.entry_site]
    exact ⟨List.prefix_refl _, Nat.le_refl _, by simp⟩
  | @later o o' q x y xs hnext _ ih =>
    obtain ⟨scope, rfl⟩ := Place.next_eq hnext
    obtain ⟨hrounds, hle, hlt⟩ := ih
    simp only [Place.advance] at hrounds hle hlt
    exact ⟨hrounds, by omega, by rw [List.length_cons]; omega⟩
  | @inside o q y g r k xs _ _ ih =>
    rw [entry_of_round ih.1]
    exact ⟨(List.prefix_append ..).trans ih.1, Nat.le_refl _, by simp⟩

theorem IsRound.unique {scope : Scope} {g : Syntax.Generate} {r : Nat} {k k' : Int}
    (h : IsRound scope g r k) (h' : IsRound scope g r k') : k = k' := by
  obtain ⟨left, right, hleft, hright, -⟩ := id h
  rw [((isRound_iff hleft hright r k).1 h).2, ((isRound_iff hleft hright r k').1 h').2]

/-- One copy stands at a site. -/
theorem Reaches.unique (h : Reaches ν o xs q y) (h' : Reaches ν o xs q' y') (hsite : q.site = q'.site) :
    q = q' ∧ y = y' := by
  -- the three ways to go on are told apart by the entry of the site at the depth of the block
  induction h with
  | @here o x xs =>
    have hentry := o.entry_site
    rw [hsite] at hentry
    cases h' with
    | here => exact ⟨rfl, rfl⟩
    | later hnext h' =>
      obtain ⟨scope, rfl⟩ := Place.next_eq hnext
      have hle := h'.entry.2.1
      simp only [Place.advance, hentry] at hle
      omega
    | inside _ h' => cases hentry.symm.trans (entry_of_round h'.entry.1)
  | @later o o₁ q x y xs hnext h ih =>
    obtain ⟨scope, rfl⟩ := Place.next_eq hnext
    have hle := h.entry.2.1
    simp only [Place.advance, hsite] at hle
    cases h' with
    | here =>
      rw [Place.entry_site] at hle
      omega
    | later hnext' h' =>
      obtain rfl := Except.ok.inj (hnext.symm.trans hnext')
      exact ih h' hsite
    | inside _ h' =>
      rw [entry_of_round h'.entry.1] at hle
      omega
  | @inside o q y g r k xs hround h ih =>
    have hentry := entry_of_round h.entry.1
    rw [hsite] at hentry
    cases h' with
    | here => cases hentry.symm.trans q'.entry_site
    | later hnext h' =>
      obtain ⟨scope, rfl⟩ := Place.next_eq hnext
      have hle := h'.entry.2.1
      simp only [Place.advance, hentry] at hle
      omega
    | inside hround' h' =>
      have heq := hentry.symm.trans (entry_of_round h'.entry.1)
      obtain rfl := Option.some.inj (Prod.mk.inj heq).2
      obtain rfl := hround.unique hround'
      exact ih h' hsite

/-- The place in the text of a copy, seen from a block around it. -/
theorem Reaches.place (h : Reaches ν o xs q y) : ∃ n rest, q.site.place = o.numbers ++ n :: rest ∧
    o.number ≤ n ∧ n < o.number + xs.length := by
  obtain ⟨⟨mid, hmid⟩, hle, hlt⟩ := h.entry
  have hplace : q.site.place = o.numbers ++ (mid.map (·.1) ++ [q.number]) := by
    rw [Site.place, Place.site, ← hmid, List.map_append, List.append_assoc]
    rfl
  have hget : q.site.rounds[o.rounds.length]? = mid[0]? := by
    rw [Place.site, ← hmid, List.getElem?_append_right (Nat.le_refl _), Nat.sub_self]
  cases mid with
  | nil =>
    simp only [Site.entry, hget, List.getElem?_nil] at hle hlt
    exact ⟨q.number, [], hplace, hle, hlt⟩
  | cons x mid =>
    simp only [Site.entry, hget, List.getElem?_cons_zero] at hle hlt
    exact ⟨x.1, mid.map (·.1) ++ [q.number], hplace, hle, hlt⟩

end

/-! ### Other numbers -/

def Place.renumber (ρ : SignalId → SignalId) (o : Place) : Place := { o with scope := o.scope.renumber ρ }

/-- `ρ` leads from the numbers that the signals of the copies in `R` have by `ν` to those by `ν'`. -/
def Carries (ρ : SignalId → SignalId) (ν ν' : Site → SignalId) (R : Place → Part → Prop) : Prop :=
  ∀ q name type init span, R q (.decl (.signal name type init span)) → ρ (ν q.site) = ν' q.site

section
variable {ρ : SignalId → SignalId} {ν ν' : Site → SignalId} {o o' q : Place} {x y : Part}
  {xs : List Part}

theorem Carries.mono {R R' : Place → Part → Prop} (h : Carries ρ ν ν' R') (hR : ∀ q x, R q x → R' q x) :
    Carries ρ ν ν' R :=
  fun q name type init span hq => h q name type init span (hR q _ hq)

theorem isRound_renumber {scope : Scope} {g : Syntax.Generate} {r : Nat} {k : Int} :
    IsRound (scope.renumber ρ) g r k ↔ IsRound scope g r k := by
  simp only [IsRound, generateBound_renumber]

theorem Place.next_renumber (hρ : Carries ρ ν ν' (Reaches ν o (x :: xs))) (h : o.next ν x = .ok o') :
    (o.renumber ρ).next ν' x = .ok (o'.renumber ρ) := by
  cases x with
  | stmt c =>
    cases h
    rfl
  | decl d =>
    obtain ⟨scope, hscope, h⟩ := Result.bind_eq_ok.1 h
    cases h
    have hdeclare : (o.renumber ρ).declare ν' d = .ok (scope.renumber ρ) := by
      cases d with
      | enumeration name literals span =>
        cases hscope
        have hliterals := @bindLiterals_renumber ρ (o.scope.bind name (.enumeration (literalCount literals))) literals
        exact congrArg Except.ok hliterals.symm
      | constant name type value span =>
        obtain ⟨v, hv, hscope⟩ := Result.bind_eq_ok.1 hscope
        cases hscope
        exact Result.bind_eq_ok.2 ⟨v, (eval_renumber value).trans hv, rfl⟩
      | signal name type init span =>
        obtain ⟨w, hw, hscope⟩ := Result.bind_eq_ok.1 hscope
        cases hscope
        refine Result.bind_eq_ok.2 ⟨w, (width_renumber type).trans hw, ?_⟩
        rw [Scope.renumber_bind, Binding.renumber, hρ o name type init span .here]
        rfl
    exact Result.bind_eq_ok.2 ⟨_, hdeclare, rfl⟩

theorem Place.past_renumber (hρ : Carries ρ ν ν' (Reaches ν o xs)) (h : o.past ν xs = .ok o') :
    (o.renumber ρ).past ν' xs = .ok (o'.renumber ρ) := by
  induction xs generalizing o with
  | nil =>
    cases h
    rfl
  | cons x xs ih =>
    obtain ⟨o₁, hnext, h⟩ := Result.bind_eq_ok.1 h
    exact Result.bind_eq_ok.2 ⟨_, Place.next_renumber hρ hnext, ih (hρ.mono fun q y => .later hnext) h⟩

/-- The same text has the same copies, wherever its signals have their numbers from. -/
theorem Reaches.renumber (h : Reaches ν o xs q y) (hρ : Carries ρ ν ν' (Reaches ν o xs)) :
    Reaches ν' (o.renumber ρ) xs (q.renumber ρ) y := by
  induction h with
  | here => exact .here
  | later hnext _ ih =>
    exact .later (Place.next_renumber hρ hnext) (ih (hρ.mono fun q y => .later hnext))
  | inside hround _ ih =>
    exact .inside (isRound_renumber.2 hround) (ih (hρ.mono fun q y => .inside hround))

/-! ### Another range -/

/-- The statements are the same but for the range of one loop, at the place `pos` of the block. The
first statement has the number `n`. -/
inductive Reranged : List Nat → Nat → List Syntax.Concurrent → List Syntax.Concurrent → Prop
  | here {n : Nat} {label var : String} {range range' : Syntax.Range} {decls : List Syntax.Decl}
      {body cs : List Syntax.Concurrent} {span : Span} :
    Reranged [n] n (.generate ⟨label, var, range, decls, body, span⟩ :: cs)
      (.generate ⟨label, var, range', decls, body, span⟩ :: cs)
  | later {pos : List Nat} {n : Nat} {c : Syntax.Concurrent} {cs cs' : List Syntax.Concurrent} :
    Reranged pos (n + 1) cs cs' → Reranged pos n (c :: cs) (c :: cs')
  | inside {pos : List Nat} {n : Nat} {label var : String} {range : Syntax.Range}
      {decls : List Syntax.Decl} {body body' cs : List Syntax.Concurrent} {span : Span} :
    Reranged pos decls.length body body' →
      Reranged (n :: pos) n (.generate ⟨label, var, range, decls, body, span⟩ :: cs)
        (.generate ⟨label, var, range, decls, body', span⟩ :: cs)

variable {pos : List Nat} {n : Nat} {cs cs' : List Syntax.Concurrent}

theorem Reranged.symm (h : Reranged pos n cs cs') : Reranged pos n cs' cs := by
  induction h with
  | here => exact .here
  | later _ ih => exact .later ih
  | inside _ ih => exact .inside ih

theorem Reranged.head (h : Reranged pos n cs cs') : ∃ m rest, pos = m :: rest ∧ n ≤ m := by
  induction h with
  | here => exact ⟨_, [], rfl, Nat.le_refl _⟩
  | later _ ih =>
    obtain ⟨m, rest, hpos, hle⟩ := ih
    exact ⟨m, rest, hpos, by omega⟩
  | inside _ _ => exact ⟨_, _, rfl, Nat.le_refl _⟩

theorem Reranged.processesFrom (h : Reranged pos n cs cs') :
    Syntax.processesFrom n cs' = Syntax.processesFrom n cs := by
  induction h with
  | here => rfl
  | later _ ih => rw [Syntax.processesFrom, Syntax.processesFrom, ih]
  | inside _ ih =>
    rw [Syntax.processesFrom, Syntax.processesFrom, Syntax.Concurrent.processesAt,
      Syntax.Concurrent.processesAt, ih]

/-- The copies of parts among which the part numbered `m` is not stand outside of what is there. -/
theorem Reaches.outside (h : Reaches ν o xs q y) {m : Nat} (rest : List Nat)
    (hm : m < o.number ∨ o.number + xs.length ≤ m) : ¬ o.numbers ++ m :: rest <+: q.site.place := by
  obtain ⟨n, rest', hplace, hle, hlt⟩ := h.place
  rw [hplace, List.prefix_append_right_inj, List.cons_prefix_cons]
  rintro ⟨rfl, -⟩
  omega

/-- The same parts stand before others that are changed. -/
theorem Reaches.behind {ys ys' : List Part} (h : Reaches ν o (xs ++ ys) q y)
    (hρ : Carries ρ ν ν' (Reaches ν o xs))
    (hrest : ∀ o', o.past ν xs = .ok o' → Reaches ν o' ys q y →
      Reaches ν' (o'.renumber ρ) ys' (q.renumber ρ) y) :
    Reaches ν' (o.renumber ρ) (xs ++ ys') (q.renumber ρ) y := by
  rcases reaches_append.1 h with h | ⟨o', hpast, h⟩
  · exact reaches_append.2 (.inl (h.renumber hρ))
  · exact reaches_append.2 (.inr ⟨_, Place.past_renumber hρ hpast, hrest o' hpast h⟩)

theorem Place.numbers_round (o : Place) (g : Syntax.Generate) (r : Nat) (k : Int) :
    (o.round g r k).numbers = o.numbers ++ [o.number] :=
  List.map_append

/-- What is copied outside of the loop is copied there with another range of the loop as well. -/
theorem Reranged.reaches (h : Reranged pos n cs cs') (hn : o.number = n)
    (hq : Reaches ν o (cs.map .stmt) q y) (hbuilt : y.IsBuilt)
    (hout : ¬ o.numbers ++ pos <+: q.site.place)
    (hρ : Carries ρ ν ν' fun q y =>
      Reaches ν o (cs.map .stmt) q y ∧ ¬ o.numbers ++ pos <+: q.site.place) :
    Reaches ν' (o.renumber ρ) (cs'.map .stmt) (q.renumber ρ) y := by
  induction h generalizing o with
  | @here n label var range range' decls body cs span =>
    subst hn
    cases hq with
    | here => exact hbuilt.elim
    | later hnext hq =>
      cases hnext
      exact .later rfl (hq.renumber (hρ.mono fun q y hq =>
        ⟨.later rfl hq, hq.outside _ (.inl (Nat.lt_succ_self _))⟩))
    | inside hround hq =>
      -- a round of the changed loop is not outside of it
      obtain ⟨m, rest, hplace, -, -⟩ := hq.place
      rw [hplace, Place.numbers_round] at hout
      exact absurd (List.prefix_append ..) hout
  | @later pos n c cs cs' hchange ih =>
    obtain ⟨m, rest, rfl, hle⟩ := hchange.head
    have hm : o.number + [Part.stmt c].length ≤ m := by
      rw [hn]
      exact hle
    have hfirst : Carries ρ ν ν' (Reaches ν o [.stmt c]) :=
      hρ.mono fun q y hq => ⟨reaches_append.2 (.inl hq), hq.outside rest (.inr hm)⟩
    have hparts : Reaches ν o ([.stmt c] ++ cs.map .stmt) q y := hq
    refine hparts.behind hfirst fun o' hpast hq => ?_
    cases hpast
    exact ih (congrArg (· + 1) hn) hq hout (hρ.mono fun q y hq => ⟨.later rfl hq.1, hq.2⟩)
  | @inside pos n label var range decls body body' cs span hchange ih =>
    subst hn
    cases hq with
    | here => exact hbuilt.elim
    | later hnext hq =>
      cases hnext
      exact .later rfl (hq.renumber (hρ.mono fun q y hq =>
        ⟨.later rfl hq, hq.outside _ (.inl (Nat.lt_succ_self _))⟩))
    | @inside _ _ _ _ r k _ hround hq =>
      -- the rounds of a loop around the changed one stay, and so do its declarations
      refine .inside (isRound_renumber.2 hround) ?_
      obtain ⟨m, rest, rfl, hle⟩ := hchange.head
      let o₁ := o.round ⟨label, var, range, decls, body, span⟩ r k
      have hnumbers : o.numbers ++ o.number :: m :: rest = o₁.numbers ++ m :: rest := by
        rw [Place.numbers_round, List.append_assoc]
        rfl
      rw [hnumbers] at hout hρ
      have hinner : Carries ρ ν ν' fun q y => Reaches ν o₁ (decls.map .decl ++ body.map .stmt) q y ∧
          ¬ o₁.numbers ++ m :: rest <+: q.site.place :=
        hρ.mono fun q y hq => ⟨.inside hround hq.1, hq.2⟩
      have hend : o₁.number + (decls.map Part.decl).length ≤ m := by
        rw [List.length_map]
        exact (Nat.zero_add _).symm ▸ hle
      have hdecls : Carries ρ ν ν' (Reaches ν o₁ (decls.map .decl)) :=
        hinner.mono fun q y hq => ⟨reaches_append.2 (.inl hq), hq.outside rest (.inr hend)⟩
      refine hq.behind hdecls fun o₂ hpast hq => ?_
      obtain ⟨scope, rfl⟩ := Place.past_eq hpast
      refine ih ?_ hq hout (hinner.mono fun q y hq => ⟨reaches_append.2 (.inr ⟨_, hpast, hq.1⟩), hq.2⟩)
      rw [List.length_map]
      exact Nat.zero_add _

end

/-! ### Another text of architectures -/

/-- Architectures are given another text under their old names. -/
def KeepsNames (σ : Syntax.Architecture → Syntax.Architecture) : Prop :=
  ∀ a, (σ a).entity = a.entity ∧ (σ a).name = a.name

def Pending.revise (σ : Syntax.Architecture → Syntax.Architecture) (p : Pending) : Pending :=
  { p with architecture := σ p.architecture }

end HdlLint.Design

namespace HdlLint.Syntax

def Library.revise (σ : Architecture → Architecture) (l : Library) : Library :=
  { l with architectures := l.architectures.map σ }

end HdlLint.Syntax

namespace HdlLint.Design
open Syntax (Library)

section
variable {σ : Syntax.Architecture → Syntax.Architecture} {ρ : SignalId → SignalId}

theorem architecturesOf_revise (hσ : KeepsNames σ) (l : Library) (entity : String) :
    (l.revise σ).architecturesOf entity = (l.architecturesOf entity).map σ := by
  rw [Library.architecturesOf, Library.architecturesOf, Library.revise, List.filter_map]
  refine congrArg (List.map σ) (List.filter_congr fun a _ => ?_)
  exact congrArg (· == entity) (hσ a).1

theorem bindUnit_revise (hσ : KeepsNames σ) (l : Library) (entity : String)
    (architecture : Option String) (span : Span) : (l.revise σ).bindUnit entity architecture span =
      (l.bindUnit entity architecture span).map fun x => (x.1, σ x.2) := by
  have hentity : (l.revise σ).entity? entity = l.entity? entity := rfl
  rw [Library.bindUnit, Library.bindUnit, hentity, architecturesOf_revise hσ]
  cases l.entity? entity with
  | none => rfl
  | some e =>
    cases architecture with
    | none =>
      dsimp only
      rw [List.getLast?_map]
      cases (l.architecturesOf entity).getLast? <;> rfl
    | some name =>
      have hname : (fun a : Syntax.Architecture => a.name == name) ∘ σ = fun a => a.name == name :=
        funext fun a => congrArg (· == name) (hσ a).2
      dsimp only
      rw [← List.map_reverse, List.find?_map, hname]
      cases (l.architecturesOf entity).reverse.find? (·.name == name) <;> rfl

theorem instantiate_revise (hσ : KeepsNames σ) (l : Library) (scope : Scope) (path : Path)
    (i : Syntax.Instantiation) :
    instantiate (l.revise σ) scope path i = (instantiate l scope path i).map (Pending.revise σ) := by
  unfold instantiate
  refine Result.bind_map (bindUnit_revise hσ l i.entity i.architecture i.span) fun (e, a) => ?_
  exact Result.bind_map_same fun generics => Result.bind_map_same fun ports => rfl

def Item.carry (σ : Syntax.Architecture → Syntax.Architecture) (ρ : SignalId → SignalId) : Item → Item
  | .signal s => .signal s
  | .process p => .process (p.renumber ρ)
  | .child c => .child ((c.renumber ρ).revise σ)

def Made.carry (σ : Syntax.Architecture → Syntax.Architecture) (ρ : SignalId → SignalId) (m : Made) :
    Made :=
  ⟨m.site, m.item.carry σ ρ⟩

/-- The architectures are the same but for the range of the loop at `pos`. -/
def RerangedAt (pos : List Nat) (a a' : Syntax.Architecture) : Prop :=
  a' = { a with body := a'.body } ∧ Reranged pos 0 a.body a'.body

theorem Describes.carry {l : Library} {a a' : Syntax.Architecture} {pos : List Nat} {q : Place}
    {x : Part} {item : Item} (h : Describes l a q x item) (hσ : KeepsNames σ)
    (ha : RerangedAt pos a a') : Describes (l.revise σ) a' (q.renumber ρ) x (item.carry σ ρ) := by
  cases h with
  | signal hw => exact .signal ((width_renumber _).trans hw)
  | @process p n r hn hbuild =>
    have hprocesses : a'.processes = a.processes := ha.2.processesFrom
    refine .process (n := n) ?_ ?_
    · rw [hprocesses]
      exact hn
    · have hsame := @buildProcess_renumber ρ q.scope a q.path n p
      rw [hbuild] at hsame
      rw [ha.1]
      exact hsame
  | @child i c hc =>
    refine .child ?_
    rw [instantiate_revise hσ]
    have hsame := @instantiate_renumber ρ q.scope l q.path i
    rw [hc] at hsame
    exact congrArg (Except.map (Pending.revise σ)) hsame

theorem Describes.unique {l : Library} {a : Syntax.Architecture} {q : Place} {x : Part}
    {item item' : Item} (h : Describes l a q x item) (h' : Describes l a q x item') : item = item' := by
  cases h with
  | signal hw =>
    cases h' with
    | signal hw' =>
      obtain rfl := Except.ok.inj (hw.symm.trans hw')
      rfl
  | process hn hbuild =>
    cases h' with
    | process hn' hbuild' =>
      obtain rfl := (Syntax.Architecture.processes_inj hn hn').2 rfl
      obtain rfl := Except.ok.inj (hbuild.symm.trans hbuild')
      rfl
  | child hc =>
    cases h' with
    | child hc' =>
      obtain rfl := Except.ok.inj (hc.symm.trans hc')
      rfl

end

/-! ### The start -/

theorem bindGenerics_revise (σ : Syntax.Architecture → Syntax.Architecture) (p : Pending) (scope : Scope)
    (gs : List Syntax.Generic) (given : List (Option (Value × Span))) :
    bindGenerics (p.revise σ) scope gs given = bindGenerics p scope gs given := by
  induction gs generalizing scope given with
  | nil => rfl
  | cons g gs ih =>
    rw [bindGenerics, bindGenerics]
    simp only [ih]
    rfl

theorem Pending.opening_revise {σ : Syntax.Architecture → Syntax.Architecture} {p : Pending}
    {pos : List Nat} (h : RerangedAt pos p.architecture (σ p.architecture)) :
    (p.revise σ).opening = p.opening := by
  have hdecls : (p.revise σ).architecture.decls = p.architecture.decls := congrArg (·.decls) h.1
  rw [opening, opening, bindGenerics_revise, hdecls]
  rfl

section
variable {scope scope' : Scope} {n : Nat}

theorem Scope.Below.mono {n' : Nat} (h : scope.Below n) (hle : n ≤ n') : scope.Below n' :=
  fun name id hid => Nat.lt_of_lt_of_le (h name id hid) hle

theorem Scope.Below.bind {name : String} {b : Binding} (h : scope.Below n)
    (hb : ∀ id, b = .signal id → id < n) : (scope.bind name b).Below n := by
  intro name' id hid
  rcases List.mem_cons.1 hid with heq | hid
  · exact hb id (Prod.mk.inj heq).2.symm
  · exact h name' id hid

theorem Scope.Below.bindLiterals {literals : List String} (h : scope.Below n) :
    (bindLiterals scope literals).Below n := by
  induction literals generalizing scope with
  | nil => exact h
  | cons x xs ih => exact ih (h.bind nofun)

theorem Scope.Below.ofGenerics {p : Pending} {gs : List Syntax.Generic}
    {given : List (Option (Value × Span))} {values : List (String × Value)}
    (h : bindGenerics p scope gs given = .ok (values, scope')) (hscope : scope.Below n) :
    scope'.Below n := by
  induction gs generalizing scope values given with
  | nil =>
    cases h
    exact hscope
  | cons g gs ih =>
    obtain ⟨⟨v, span⟩, -, h⟩ := Result.bind_eq_ok.1 h
    dsimp only at h
    split_ifs at h
    obtain ⟨⟨vs, s⟩, hrest, h⟩ := Result.bind_eq_ok.1 h
    cases h
    exact ih hrest (hscope.bind nofun)

variable {path : Path} {signals signals' : Array Signal}

/-- The next signal comes into the scope. -/
theorem Scope.Below.push {name : String} (s : Signal) (h : scope.Below signals.size) :
    (scope.bind name (.signal signals.size)).Below (signals.push s).size := by
  rw [Array.size_push]
  refine (h.mono (Nat.le_succ _)).bind fun id hid => ?_
  obtain rfl := Binding.signal.inj hid
  exact Nat.lt_succ_self _

theorem Scope.Below.ofPorts {ps : List Syntax.Port}
    (h : bindPorts path scope signals ps = .ok (scope', signals')) (hscope : scope.Below signals.size) :
    scope'.Below signals'.size := by
  induction ps generalizing scope signals with
  | nil =>
    cases h
    exact hscope
  | cons p ps ih =>
    obtain ⟨w, -, h⟩ := Result.bind_eq_ok.1 h
    exact ih h (hscope.push _)

theorem Scope.Below.ofDecls {ds : List Syntax.Decl}
    (h : bindDecls path scope signals ds = .ok (scope', signals')) (hscope : scope.Below signals.size) :
    scope'.Below signals'.size := by
  induction ds generalizing scope signals with
  | nil =>
    cases h
    exact hscope
  | cons d ds ih =>
    cases d with
    | enumeration name literals span =>
      have hname : (scope.bind name (.enumeration (literalCount literals))).Below signals.size := hscope.bind nofun
      exact ih h hname.bindLiterals
    | constant name type value span =>
      obtain ⟨v, -, h⟩ := Result.bind_eq_ok.1 h
      exact ih h (hscope.bind nofun)
    | signal name type init span =>
      obtain ⟨w, -, h⟩ := Result.bind_eq_ok.1 h
      exact ih h (hscope.push _)

theorem Pending.below_of_opening {p : Pending} (h : p.opening = .ok (scope, signals)) :
    scope.Below signals.size := by
  obtain ⟨⟨generics, scope₁⟩, hgenerics, h⟩ := Result.bind_eq_ok.1 h
  obtain ⟨⟨scope₂, signals₂⟩, hports, h⟩ := Result.bind_eq_ok.1 h
  have hempty : Scope.empty.Below (#[] : Array Signal).size := nofun
  exact .ofDecls h (.ofPorts hports (.ofGenerics hgenerics hempty))

end

/-! ### Nothing outside changes -/

/-- `ρ` leads from the numbers of signals in the one unrolling to those in the other. The own signals of
the instance keep theirs. -/
structure Unrolling.Renumbers (pos : List Nat) (ρ : SignalId → SignalId) (u u' : Unrolling) : Prop where
  own : ∀ id < u.own.size, ρ id = id
  outside : ∀ s ∈ signalSites u.made, ¬ pos <+: s.place → ρ (u.number s) = u'.number s

/-- What is made outside of the loop at `pos`. -/
def Unrolling.outside (pos : List Nat) (u : Unrolling) : List Made :=
  u.made.filter fun m => decide (¬ pos <+: m.site.place)

/-- What is made outside of the loop at `pos` is the same up to the numbers of signals. These can be
carried over, and whatever carries them over makes the one into the other. -/
structure Unrolling.SameOutside (pos : List Nat) (σ : Syntax.Architecture → Syntax.Architecture)
    (u u' : Unrolling) : Prop where
  scope : u'.scope = u.scope
  own : u'.own = u.own
  renumbers : ∃ ρ, u.Renumbers pos ρ u'
  same : ∀ ρ, u.Renumbers pos ρ u' → u'.outside pos = (u.outside pos).map (Made.carry σ ρ)

section
variable {l l' : Library} {p p' : Pending} {i i' : Instance} {children children' : List Pending}
  {u u' : Unrolling} {pos : List Nat} {ρ : SignalId → SignalId}

theorem Unrolling.mem_outside {m : Made} : m ∈ u.outside pos ↔ m ∈ u.made ∧ ¬ pos <+: m.site.place := by
  rw [outside, List.mem_filter, decide_eq_true_iff]

theorem Numbered.exists_renumbers (h : Numbered u.number u.own.size u.made) :
    ∃ ρ, u.Renumbers pos ρ u' := by
  refine ⟨fun id => if id < u.own.size then id else
    ((signalSites u.made)[id - u.own.size]?).elim id u'.number, fun id hid => if_pos hid, ?_⟩
  intro s hs _
  obtain ⟨j, hj⟩ := List.mem_iff_getElem?.1 hs
  have hnumber : u.number s = u.own.size + j := h j s hj
  rw [hnumber, if_neg (Nat.not_lt.2 (Nat.le_add_right ..)), Nat.add_sub_cancel_left, hj]
  rfl

theorem mem_signalSites {made : List Made} {site : Site} {s : Signal} (h : ⟨site, .signal s⟩ ∈ made) :
    site ∈ signalSites made :=
  List.mem_filterMap.2 ⟨_, h, rfl⟩

/-- A copy outside of the loop is one with another range of the loop as well. -/
theorem Unrolling.Of.copy (h : u.Of l p i children) (hpos : Reranged pos 0 p.architecture.body
      p'.architecture.body) (hstart : u'.start p' = u.start p) (hρ : u.Renumbers pos ρ u') {q : Place}
    {x : Part} (hq : u.Copy p q x) (hbuilt : x.IsBuilt) (hout : ¬ pos <+: q.site.place) :
    u'.Copy p' (q.renumber ρ) x := by
  have hfixed : (u.start p).renumber ρ = u.start p := by
    have hscope := (Pending.below_of_opening h.opening).renumber hρ.own
    exact congrArg (fun s => Place.mk [] 0 s p.path) hscope
  have hcarries : Carries ρ u.number u'.number fun q y => u.Copy p q y ∧ ¬ pos <+: q.site.place := by
    rintro q name type init span ⟨hq, hout⟩
    obtain ⟨⟨site, item⟩, hm, hsite, hdescribes⟩ := h.answers.complete q _ hq trivial
    obtain rfl : site = q.site := hsite
    cases hdescribes
    exact hρ.outside _ (mem_signalSites hm) hout
  have hcopy := hpos.reaches rfl hq hbuilt hout hcarries
  rw [hfixed, ← hstart] at hcopy
  exact hcopy

theorem Describes.isBuilt {a : Syntax.Architecture} {q : Place} {x : Part} {item : Item}
    (h : Describes l a q x item) : x.IsBuilt := by
  cases h <;> trivial

theorem eq_of_site_eq {made : List Made} (h : made.Pairwise fun m m' => m.site.Before m'.site)
    {m m' : Made} (hm : m ∈ made) (hm' : m' ∈ made) (hsite : m.site = m'.site) : m = m' :=
  List.inj_on_of_nodup_map (List.pairwise_map.2 (h.imp Site.Before.ne)) hm hm' hsite

/-- What is made in the order of the sites is told by its members. -/
theorem eq_of_mem_iff {made made' : List Made} (h : made.Pairwise fun m m' => m.site.Before m'.site)
    (h' : made'.Pairwise fun m m' => m.site.Before m'.site) (hmem : ∀ m, m ∈ made ↔ m ∈ made') :
    made = made' :=
  StableOrder.eq_of_mem_iff (fun _ _ => Std.Asymm.asymm (r := List.Lex (· < ·)) _ _) h h' hmem

variable {σ : Syntax.Architecture → Syntax.Architecture}

/-- What is made for a copy outside of the loop is made with another range of the loop as well. -/
theorem Unrolling.Of.carry_mem (h : u.Of l p i children)
    (h' : u'.Of (l.revise σ) (p.revise σ) i' children') (hσ : KeepsNames σ)
    (ha : RerangedAt pos p.architecture (σ p.architecture))
    (hstart : u'.start (p.revise σ) = u.start p) (hρ : u.Renumbers pos ρ u') {m : Made}
    (hm : m ∈ u.outside pos) : m.carry σ ρ ∈ u'.outside pos := by
  obtain ⟨hm, hout⟩ := mem_outside.1 hm
  obtain ⟨q, x, hq, hsite, hdescribes⟩ := h.answers.sound m hm
  rw [hsite] at hout
  have hcopy : u'.Copy (p.revise σ) (q.renumber ρ) x :=
    h.copy ha.2 hstart hρ hq hdescribes.isBuilt hout
  obtain ⟨m', hm', hsite', hdescribes'⟩ := h'.answers.complete _ x hcopy hdescribes.isBuilt
  have hitem : m'.item = m.item.carry σ ρ := hdescribes'.unique (hdescribes.carry hσ ha)
  have hcarry : m' = m.carry σ ρ := by
    obtain ⟨site', item'⟩ := m'
    obtain rfl : site' = m.site := hsite'.trans hsite.symm
    exact congrArg (Made.mk m.site) hitem
  rw [← hcarry]
  refine mem_outside.2 ⟨hm', ?_⟩
  rw [hsite']
  exact hout

theorem Unrolling.Of.sameOutside (h : u.Of l p i children)
    (h' : u'.Of (l.revise σ) (p.revise σ) i' children') (hσ : KeepsNames σ)
    (ha : RerangedAt pos p.architecture (σ p.architecture)) : u.SameOutside pos σ u' := by
  have hopening : (u'.scope, u'.own) = (u.scope, u.own) :=
    Except.ok.inj (h'.opening.symm.trans ((Pending.opening_revise ha).trans h.opening))
  obtain ⟨hscope, hown⟩ := Prod.mk.inj hopening
  have hstart : u'.start (p.revise σ) = u.start p := congrArg (fun s => Place.mk [] 0 s p.path) hscope
  refine ⟨hscope, hown, h.numbered.exists_renumbers, fun ρ hρ => ?_⟩
  refine eq_of_mem_iff (h'.order.filter _) (List.pairwise_map.2 (h.order.filter _)) fun m' => ⟨?_, ?_⟩
  · intro hm'
    -- the way back gives what the site holds without the change, and the way there what it holds with it
    obtain ⟨hmem, hout⟩ := mem_outside.1 hm'
    obtain ⟨ρ', hρ'⟩ : ∃ ρ', u'.Renumbers pos ρ' u := h'.numbered.exists_renumbers
    obtain ⟨q, x, hq, hsite, hdescribes⟩ := h'.answers.sound m' hmem
    rw [hsite] at hout
    have hcopy := h'.copy ha.2.symm hstart.symm hρ' hq hdescribes.isBuilt hout
    obtain ⟨m, hm, hsite', -⟩ := h.answers.complete _ x hcopy hdescribes.isBuilt
    have hmout : m ∈ u.outside pos := by
      refine mem_outside.2 ⟨hm, ?_⟩
      rw [hsite']
      exact hout
    have hcarry := (mem_outside.1 (h.carry_mem h' hσ ha hstart hρ hmout)).1
    have hsame : m.site = m'.site := hsite'.trans hsite.symm
    exact List.mem_map.2 ⟨m, hmout, eq_of_site_eq h'.order hcarry hmem hsame⟩
  · intro hm'
    obtain ⟨m, hm, rfl⟩ := List.mem_map.1 hm'
    exact h.carry_mem h' hσ ha hstart hρ hm

end

/-- What is built of an instance is one signal, process or pending instance for each copy of a
declaration or statement, that is for each round of each loop around it, in the order of the text and of
the rounds. With another range of one loop, all that is made outside of the loop is the same up to the
numbers of the signals that loops declare. -/
theorem Pending.build_unrolls {l : Library} {p : Pending} {i : Instance} {children : List Pending}
    (h : p.build l = .ok (i, children)) : ∃ u : Unrolling, u.Of l p i children ∧
      (∀ q x q' x', u.Copy p q x → u.Copy p q' x' → q.site = q'.site → q = q' ∧ x = x') ∧
      ∀ σ pos i' children', KeepsNames σ → RerangedAt pos p.architecture (σ p.architecture) →
        (p.revise σ).build (l.revise σ) = .ok (i', children') →
        ∃ u' : Unrolling, u'.Of (l.revise σ) (p.revise σ) i' children' ∧ u.SameOutside pos σ u' := by
  obtain ⟨u, hu⟩ := build_unrolling h
  refine ⟨u, hu, fun q x q' x' hq hq' hsite => hq.unique hq' hsite, ?_⟩
  intro σ pos i' children' hσ ha h'
  obtain ⟨u', hu'⟩ := build_unrolling h'
  exact ⟨u', hu', hu.sameOutside hu' hσ ha⟩

/-- The range `9 downto 9`. -/
def oneLane : Syntax.Range := ⟨.int 9 .nowhere, .downto, .int 9 .nowhere⟩

/-- The lane bank gets another range of lanes. -/
def relane (range : Syntax.Range) (a : Syntax.Architecture) : Syntax.Architecture :=
  if a.entity = "bank" ∧ a.name = "rtl" then laneBank range else a

theorem build_unrolls_laneBank : ∃ i children i' children',
    (laneBankTop allLanes 3).build (laneBankUnits allLanes) = .ok (i, children) ∧
    ((laneBankTop allLanes 3).revise (relane oneLane)).build (laneBankUnits oneLane)
      = .ok (i', children') ∧
    i.signals.size = 6 ∧ i'.signals.size = 4 ∧
    ∃ u u' : Unrolling, u.Of (laneBankUnits allLanes) (laneBankTop allLanes 3) i children ∧
      u'.Of (laneBankUnits oneLane) ((laneBankTop allLanes 3).revise (relane oneLane)) i' children' ∧
      u.SameOutside [1] (relane oneLane) u' := by
  have hsix : ((laneBankTop allLanes 3).build (laneBankUnits allLanes)).toOption.map
      (fun b => b.1.signals.size) = some 6 := by decide +kernel
  have hfour : (((laneBankTop allLanes 3).revise (relane oneLane)).build (laneBankUnits oneLane)).toOption.map
      (fun b => b.1.signals.size) = some 4 := by decide +kernel
  have hkeeps : KeepsNames (relane oneLane) := by
    intro a
    unfold relane
    split
    next hname => exact ⟨hname.1.symm, hname.2.symm⟩
    next => exact ⟨rfl, rfl⟩
  have hchange : RerangedAt [1] (laneBank allLanes) (relane oneLane (laneBank allLanes)) :=
    ⟨rfl, .later .here⟩
  cases h : (laneBankTop allLanes 3).build (laneBankUnits allLanes) with
  | error e => rw [h] at hsix; cases hsix
  | ok b =>
    obtain ⟨u, hu, -, hrange⟩ := Pending.build_unrolls h
    cases h' : ((laneBankTop allLanes 3).revise (relane oneLane)).build (laneBankUnits oneLane) with
    | error e => rw [h'] at hfour; cases hfour
    | ok b' =>
      rw [h] at hsix
      rw [h'] at hfour
      obtain ⟨u', hu', hsame⟩ := hrange _ [1] b'.1 b'.2 hkeeps hchange h'
      exact ⟨b.1, b.2, b'.1, b'.2, rfl, rfl, Option.some.inj hsix, Option.some.inj hfour,
        u, u', hu, hu', hsame⟩

end HdlLint.Design
