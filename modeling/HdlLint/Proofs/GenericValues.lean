import Mathlib.Logic.Relation
import HdlLint.Text.Ascii
import HdlLint.Proofs.BreadthFirst

/-!
# The values of generics

An instance has a value for each generic of its entity. `Valued` says which: what is put in for the
generic, or else its default, which sees only the generics before it; and the value is one of its type.
What is put in for a generic of the top unit is what was said last about its name. For a generic of any
other instance it is the last expression that the generic map of a statement has for it, and this is
evaluated where the statement stands, in a round of each loop around it.

To tell which statement an instance comes from, `Worklist.Record` keeps what has been asked for, by
number, in front of what still waits.
-/

namespace HdlLint.Syntax
open Design (Value Overrides)

/-- The values of the types of generics. -/
inductive GenericType.Has : GenericType → Value → Prop
  | integer (n : Int) : Has .integer (.int n)
  | natural {n : Int} : 0 ≤ n → Has .natural (.int n)
  | positive {n : Int} : 1 ≤ n → Has .positive (.int n)
  | boolean (b : Bool) : Has .boolean (.bool b)

namespace Entity

/-- The first generic of the name. -/
def genericNamed? (e : Entity) (name : String) : Option Nat := e.generics.findIdx? (·.name == name)

/-- What an association puts in, and for which generic: the one that it names, or the one at the place
that the association has itself. -/
def genericActual? (e : Entity) (a : Association × Nat) : Option (Nat × Expr) :=
  match a.1.actual with
  | .leftOpen => none
  | .expr value => (a.1.formal.elim (some a.2) fun f => e.genericNamed? f.name).map (·, value)

/-- The last expression that a generic map has for the generic of this number. -/
def lastActual? (e : Entity) (as : List Association) (k : Nat) : Option Expr :=
  (as.zipIdx.filterMap e.genericActual?).reverse.lookup k

/-- The letters of the name may be of either case. -/
def genericOverride? (e : Entity) (o : String × Value) : Option (Nat × Value) :=
  (e.genericNamed? (Ascii.lower o.1)).map (·, o.2)

/-- The last value that is said for the generic of this number. -/
def lastOverride? (e : Entity) (overrides : Overrides) (k : Nat) : Option Value :=
  (overrides.filterMap e.genericOverride?).reverse.lookup k

end Entity

end HdlLint.Syntax

namespace HdlLint.Design
open Syntax (Library Entity)
open Relation (ReflTransGen)

/-! ### What is put in -/

/-- The values that are put in, without their places. -/
def putIn (given : List (Option (Value × Span))) (k : Nat) : Option (Result Value) :=
  given[k]?.join.map fun x => .ok x.1

theorem putIn_none (e : Entity) (k : Nat) : putIn (e.generics.map fun _ => none) k = none := by
  rw [putIn, List.getElem?_map]
  cases e.generics[k]? <;> rfl

theorem putIn_set {given : List (Option (Value × Span))} {i : Nat} (hi : i < given.length) (v : Value)
    (span : Span) (k : Nat) :
    putIn (given.set i (some (v, span))) k = if k = i then some (.ok v) else putIn given k := by
  unfold putIn
  by_cases hk : k = i
  · subst hk
    rw [List.getElem?_set_self hi, if_pos rfl]
    rfl
  · rw [List.getElem?_set_ne (Ne.symm hk), if_neg hk]

/-- Of two things for one number, the later one counts. -/
theorem lookup_reverse_cons {α : Type} (i : Nat) (a : α) (xs : List (Nat × α)) (k : Nat) :
    ((i, a) :: xs).reverse.lookup k = (xs.reverse.lookup k).or (if k = i then some a else none) := by
  rw [List.reverse_cons, List.lookup_append, List.lookup_cons]
  by_cases hk : k = i
  · rw [if_pos hk, beq_iff_eq.2 hk]
  · rw [if_neg hk, beq_eq_false_iff_ne.2 hk]
    rfl

section
variable {e : Entity} {given given' : List (Option (Value × Span))}

theorem lt_of_genericNamed? {name : String} {i : Nat} (h : e.genericNamed? name = some i) :
    i < e.generics.length :=
  (List.findIdx?_eq_some_iff_getElem.1 h).1

theorem formalIndex_eq {position i : Nat} {a : Syntax.Association}
    (h : formalIndex e.name (e.generics.map (·.name)) .generic position a = .ok i) :
    (a.formal.elim (some position) fun f => e.genericNamed? f.name) = some i ∧ i < e.generics.length := by
  unfold formalIndex at h
  cases hformal : a.formal with
  | none =>
    rw [hformal, List.length_map] at h
    dsimp only at h
    split_ifs at h with hlt
    cases h
    exact ⟨rfl, hlt⟩
  | some f =>
    have hnamed : (e.generics.map (·.name)).findIdx? (· == f.name) = e.genericNamed? f.name :=
      List.findIdx?_map
    rw [hformal] at h
    dsimp only at h
    rw [hnamed] at h
    cases hfind : e.genericNamed? f.name with
    | none => rw [hfind] at h; cases h
    | some j =>
      rw [hfind] at h
      cases h
      exact ⟨hfind, lt_of_genericNamed? hfind⟩

/-- The last expression for a generic is what is put in, and if there is none, nothing changes. -/
theorem putIn_mapGenerics {scope : Scope} {position : Nat} {as : List Syntax.Association}
    (h : mapGenerics scope e position as given = .ok given') (hlen : given.length = e.generics.length)
    (k : Nat) : putIn given' k =
      ((((as.zipIdx position).filterMap e.genericActual?).reverse.lookup k).map (eval scope)).or
        (putIn given k) := by
  induction as generalizing position given with
  | nil =>
    cases h
    rfl
  | cons a as ih =>
    obtain ⟨i, hi, h⟩ := Result.bind_eq_ok.1 h
    obtain ⟨hformal, hlt⟩ := formalIndex_eq hi
    rw [List.zipIdx_cons]
    cases hactual : a.actual with
    | leftOpen =>
      rw [hactual] at h
      have hnone : e.genericActual? (a, position) = none := by simp only [Entity.genericActual?, hactual]
      rw [List.filterMap_cons_none hnone]
      exact ih h hlen
    | expr value =>
      rw [hactual] at h
      obtain ⟨v, hv, h⟩ := Result.bind_eq_ok.1 h
      have hsome : e.genericActual? (a, position) = some (i, value) := by
        simp only [Entity.genericActual?, hactual, hformal, Option.map_some]
      rw [List.filterMap_cons_some hsome, lookup_reverse_cons, Option.map_or, Option.or_assoc,
        ih h (by rw [List.length_set, hlen]), putIn_set (hlen ▸ hlt)]
      by_cases hk : k = i
      · rw [if_pos hk, if_pos hk, Option.map_some, hv]
        rfl
      · rw [if_neg hk, if_neg hk]
        rfl

theorem putIn_applyOverrides {overrides : Overrides} (h : applyOverrides e overrides given = .ok given')
    (hlen : given.length = e.generics.length) (k : Nat) :
    putIn given' k = ((e.lastOverride? overrides k).map .ok).or (putIn given k) := by
  induction overrides generalizing given with
  | nil =>
    cases h
    rfl
  | cons o overrides ih =>
    obtain ⟨name, v⟩ := o
    rw [applyOverrides] at h
    split at h
    · cases h
    · next i hfind =>
      have hsome : e.genericOverride? (name, v) = some (i, v) :=
        Option.map_eq_some_iff.2 ⟨i, hfind, rfl⟩
      rw [ih h (by rw [List.length_set, hlen]), putIn_set (hlen ▸ lt_of_genericNamed? hfind),
        Entity.lastOverride?, Entity.lastOverride?, List.filterMap_cons_some hsome,
        lookup_reverse_cons, Option.map_or, Option.or_assoc]
      by_cases hk : k = i
      · rw [if_pos hk, if_pos hk]
        rfl
      · rw [if_neg hk, if_neg hk]
        rfl

end

/-! ### The values of one instance -/

/-- The generics of the entity have these values, if for each of them is put in what `given` says. -/
structure Valued (e : Entity) (given : Nat → Option (Result Value)) (generics : List (String × Value)) :
    Prop where
  names : generics.map (·.1) = e.generics.map (·.name)
  typed : ∀ (k : Nat) g x, e.generics[k]? = some g → generics[k]? = some x → g.type.Has x.2
  /-- A default sees the generics before it, and nothing else. -/
  value : ∀ (k : Nat) g x, e.generics[k]? = some g → generics[k]? = some x → given k = some (.ok x.2) ∨
    given k = none ∧ ∃ v, g.default = some v ∧ eval (.ofGenerics (generics.take k)) v = .ok x.2

/-- If nothing is put in for a generic, it has a default. -/
theorem Valued.default {e : Entity} {given : Nat → Option (Result Value)}
    {generics : List (String × Value)} (h : Valued e given generics) {k : Nat} {g : Syntax.Generic}
    (hg : e.generics[k]? = some g) (hgiven : given k = none) : ∃ v, g.default = some v := by
  have hlt : k < generics.length := by
    have hlen := congrArg List.length h.names
    rw [List.length_map, List.length_map] at hlen
    rw [hlen]
    exact (List.getElem?_eq_some_iff.1 hg).1
  rcases h.value k g _ hg (List.getElem?_eq_getElem hlt) with hsome | ⟨-, v, hv, -⟩
  · rw [hgiven] at hsome
    cases hsome
  · exact ⟨v, hv⟩

theorem hasType_iff {type : Syntax.GenericType} {v : Value} : hasType type v = true ↔ type.Has v := by
  constructor
  · intro h
    cases type <;> cases v <;> simp only [hasType, Bool.false_eq_true, decide_eq_true_eq] at h
    · exact .integer _
    · exact .natural h
    · exact .positive h
    · exact .boolean _
  · intro h
    cases h with
    | integer n => rfl
    | natural hn => exact decide_eq_true hn
    | positive hn => exact decide_eq_true hn
    | boolean b => rfl

section
variable {p : Pending} {scope scope' : Scope} {gs : List Syntax.Generic} {g : Syntax.Generic}
  {given : List (Option (Value × Span))} {values : List (String × Value)}

theorem bindGenerics_cons (h : bindGenerics p scope (g :: gs) given = .ok (values, scope')) :
    ∃ v span rest, genericValue p scope g given.head?.join = .ok (v, span) ∧ g.type.Has v ∧
      bindGenerics p (scope.bind g.name (.constant v)) gs given.tail = .ok (rest, scope') ∧
      values = (g.name, v) :: rest := by
  obtain ⟨⟨v, span⟩, hv, h⟩ := Result.bind_eq_ok.1 h
  dsimp only at h
  split at h
  · next htype =>
    obtain ⟨⟨rest, scope₁⟩, hrest, h⟩ := Result.bind_eq_ok.1 h
    cases h
    exact ⟨v, span, rest, hv, hasType_iff.1 htype, hrest, rfl⟩
  · cases h

theorem bindGenerics_names (h : bindGenerics p scope gs given = .ok (values, scope')) :
    values.map (·.1) = gs.map (·.name) := by
  induction gs generalizing scope given values with
  | nil => cases h; rfl
  | cons g gs ih =>
    obtain ⟨v, span, rest, -, -, hrest, rfl⟩ := bindGenerics_cons h
    rw [List.map_cons, List.map_cons, ih hrest]

theorem genericValue_eq {slot : Option (Value × Span)} {v : Value} {span : Span}
    (h : genericValue p scope g slot = .ok (v, span)) : slot = some (v, span) ∨
      slot = none ∧ ∃ e, g.default = some e ∧ eval scope e = .ok v := by
  unfold genericValue at h
  split at h
  · exact .inl (congrArg some (Except.ok.inj h))
  · next e hdefault =>
    obtain ⟨v', hv, h⟩ := Result.bind_eq_ok.1 h
    cases h
    exact .inr ⟨rfl, e, hdefault, hv⟩
  · cases h

theorem bindGenerics_value {k : Nat} {x : String × Value}
    (h : bindGenerics p scope gs given = .ok (values, scope')) (hg : gs[k]? = some g)
    (hx : values[k]? = some x) : g.type.Has x.2 ∧ (putIn given k = some (.ok x.2) ∨
      putIn given k = none ∧ ∃ v, g.default = some v ∧
        eval ((values.take k).foldl (fun s y => s.bind y.1 (.constant y.2)) scope) v = .ok x.2) := by
  induction gs generalizing scope given values k with
  | nil => cases hg
  | cons g' gs ih =>
    obtain ⟨v, span, rest, hv, htype, hrest, rfl⟩ := bindGenerics_cons h
    cases k with
    | zero =>
      cases hg
      cases hx
      refine ⟨htype, ?_⟩
      rw [putIn, ← List.head?_eq_getElem?]
      rcases genericValue_eq hv with hslot | ⟨hslot, e, hdefault, heval⟩
      · rw [hslot]
        exact .inl rfl
      · rw [hslot]
        exact .inr ⟨rfl, e, hdefault, heval⟩
    | succ k =>
      have hk := ih hrest hg hx
      rwa [putIn, List.getElem?_tail] at hk

end

variable {l : Library}

theorem valued_of_build {p : Pending} {i : Instance} {children : List Pending}
    (h : p.build l = .ok (i, children)) : Valued p.entity (putIn p.generics) i.generics := by
  obtain ⟨⟨generics, scope⟩, hgenerics, h⟩ := Result.bind_eq_ok.1 h
  obtain ⟨⟨scope', signals⟩, -, h⟩ := Result.bind_eq_ok.1 h
  obtain ⟨⟨scope'', signals'⟩, -, h⟩ := Result.bind_eq_ok.1 h
  obtain ⟨done, -, h⟩ := Result.bind_eq_ok.1 h
  cases h
  exact ⟨bindGenerics_names hgenerics, fun k g x hg hx => (bindGenerics_value hgenerics hg hx).1,
    fun k g x hg hx => (bindGenerics_value hgenerics hg hx).2⟩

theorem putIn_instantiate {scope : Scope} {path : Path} {s : Syntax.Instantiation} {c : Pending}
    (h : instantiate l scope path s = .ok c) :
    putIn c.generics = fun k => (c.entity.lastActual? s.genericMap k).map (eval scope) := by
  obtain ⟨⟨e, a⟩, -, h⟩ := Result.bind_eq_ok.1 h
  obtain ⟨generics, hgenerics, h⟩ := Result.bind_eq_ok.1 h
  obtain ⟨ports, -, h⟩ := Result.bind_eq_ok.1 h
  cases h
  funext k
  rw [putIn_mapGenerics hgenerics (List.length_map _), Pending.bare, putIn_none, Option.or_none]
  rfl

/-! ### What has been asked for -/

theorem Pending.Gives.buildAt {p : Pending} {children : List Pending} {i : Instance}
    (hp : p.Bound l) (h : p.Gives l children i) : i.unit = p.unit ∧ ∃ done,
      buildAt l p.entity p.architecture i.generics i.path = .ok done ∧ children = done.children.toList := by
  obtain ⟨i₀, ns, hbuild, rfl⟩ := h
  obtain ⟨done, hdone, -, -, hchildren⟩ := Pending.build_eq_buildAt hbuild
  exact ⟨(Pending.build_asks hp hbuild).1, done, hdone, hchildren⟩

/-- An instance tells what was asked for when it was built. -/
theorem Pending.Gives.children_unique {p p' : Pending} {cs cs' : List Pending} {i : Instance}
    (hp : p.Bound l) (h : p.Gives l cs i) (hp' : p'.Bound l) (h' : p'.Gives l cs' i) : cs = cs' := by
  obtain ⟨hunit, done, hdone, rfl⟩ := h.buildAt hp
  obtain ⟨hunit', done', hdone', rfl⟩ := h'.buildAt hp'
  rw [Bound, ← hunit] at hp
  rw [Bound, ← hunit'] at hp'
  obtain ⟨hentity, harchitecture⟩ := hp.unique hp'
  rw [hentity, harchitecture, hdone'] at hdone
  rw [Except.ok.inj hdone]

namespace Worklist

/-- `past` holds what the built instances have been built from. Together with what waits this is all
that has been asked for, by number, from the top unit on. -/
structure Record (l : Library) (top : Pending) (past : List Pending) (w : Worklist) : Prop where
  length : past.length = w.built.length
  bound : ∀ p ∈ past ++ w.queue, p.Bound l
  owned : w.Owned
  top : (past ++ w.queue)[0]? = some top
  built : ∀ (m : Nat) i, w.built[m]? = some i → ∃ p children first, past[m]? = some p ∧
    p.Gives l children i ∧ w.childrenOf m = List.range' first children.length ∧
    ∀ (j : Nat) c, children[j]? = some c → (past ++ w.queue)[first + j]? = some (c.askedBy m)

theorem Record.start {p : Pending} (hp : p.Bound l) (hparent : p.parent = none) :
    Record l p [] ⟨[], [p]⟩ := by
  refine ⟨rfl, fun q hq => ?_, owned_start hparent, rfl, fun m i hi => ?_⟩
  · rwa [List.mem_singleton.1 hq]
  · cases hi

theorem Record.step {top : Pending} {past : List Pending} {w w' : Worklist}
    (hw : w.Record l top past) (hstep : Step l w w') : ∃ past', w'.Record l top past' := by
  cases hstep with
  | @build built p queue children i hbuild =>
    have hlen : past.length = built.length := hw.length
    have hp : p.Bound l := hw.bound p (List.mem_append_right _ List.mem_cons_self)
    have hasked : (past ++ [p]) ++ (queue ++ children.map (Pending.askedBy built.length)) =
        (past ++ p :: queue) ++ children.map (Pending.askedBy built.length) := by
      rw [List.append_assoc, List.append_assoc]
      rfl
    refine ⟨past ++ [p], ?_, fun q hq => ?_, hw.owned.build i children, ?_, fun m j hj => ?_⟩
    · rw [List.length_append, hlen]
      exact (length_attach p.parent).symm
    · dsimp only at hq
      rw [hasked] at hq
      rcases List.mem_append.1 hq with hq | hq
      · exact hw.bound q hq
      · obtain ⟨c, hc, rfl⟩ := List.mem_map.1 hq
        exact ((Pending.build_asks hp hbuild).2 c hc).1
    · dsimp only
      rw [hasked, List.getElem?_append_left (List.getElem?_eq_some_iff.1 hw.top).1, hw.top]
    · obtain ⟨j₀, ns, hj₀, rfl⟩ := attach_getElem? hj
      rw [childrenOf_build hw.owned (Pending.children_of_build hbuild)]
      dsimp only
      rw [hasked]
      rcases getElem?_concat_eq_some hj₀ with hj₀ | ⟨rfl, rfl⟩
      · obtain ⟨q, cs, first, hq, hgives, hnumbers, hcs⟩ := hw.built m j₀ hj₀
        rw [if_neg (Nat.ne_of_lt (List.getElem?_eq_some_iff.1 hj₀).1)]
        refine ⟨q, cs, first, ?_, hgives.withChildren ns, hnumbers, fun n c hc => ?_⟩
        · rw [List.getElem?_append_left (List.getElem?_eq_some_iff.1 hq).1, hq]
        · have hn := hcs n c hc
          rw [List.getElem?_append_left (List.getElem?_eq_some_iff.1 hn).1, hn]
      · rw [if_pos rfl]
        refine ⟨p, children, _, ?_, ⟨i, _, hbuild, rfl⟩, rfl, fun n c hc => ?_⟩
        · rw [← hlen, List.getElem?_concat_length]
        · rw [← hlen, ← List.length_append, List.getElem?_append_right (Nat.le_add_right ..),
            Nat.add_sub_cancel_left, List.getElem?_map, hc]
          rfl

theorem Record.steps {top : Pending} {past : List Pending} {w w' : Worklist}
    (hw : w.Record l top past) (hsteps : ReflTransGen (Step l) w w') :
    ∃ past', w'.Record l top past' := by
  refine kept_of_steps (P := fun w => ∃ past', w.Record l top past') (fun _ _ hrecord hstep => ?_)
    ⟨past, hw⟩ hsteps
  obtain ⟨past', hpast⟩ := hrecord
  exact hpast.step hstep

/-- Instances are built in one order only. -/
theorem Step.rightUnique : Relator.RightUnique (Step l) := by
  intro w w₁ w₂ h₁ h₂
  cases h₁ with
  | build hbuild =>
    cases h₂ with
    | build hbuild' =>
      obtain ⟨rfl, rfl⟩ := Prod.mk.inj (Except.ok.inj (hbuild.symm.trans hbuild'))
      rfl

/-- Whatever is reached is on the way to the end. -/
theorem steps_to_end {w w' : Worklist} {built : List Instance}
    (hend : ReflTransGen (Step l) w ⟨built, []⟩) (h : ReflTransGen (Step l) w w') :
    ReflTransGen (Step l) w' ⟨built, []⟩ := by
  rcases ReflTransGen.total_of_right_unique Step.rightUnique h hend with hway | hway
  · exact hway
  · rcases hway.cases_head with heq | ⟨w₁, hstep, -⟩
    · rw [← heq]
    · cases hstep

/-- What is built stays, and so do the numbers of what it asks for. -/
theorem built_of_steps {w w' : Worklist} (howned : w.Owned) (h : ReflTransGen (Step l) w w') {m : Nat}
    {i : Instance} (hi : w.built[m]? = some i) :
    (∃ ns, w'.built[m]? = some { i with children := ns }) ∧ w'.childrenOf m = w.childrenOf m := by
  suffices hkept : w'.Owned ∧ (∃ ns, w'.built[m]? = some { i with children := ns }) ∧
      w'.childrenOf m = w.childrenOf m from hkept.2
  refine kept_of_steps (P := fun w' => w'.Owned ∧ (∃ ns, w'.built[m]? = some { i with children := ns }) ∧
    w'.childrenOf m = w.childrenOf m) (fun _ _ hold hstep => ?_) ⟨howned, ⟨i.children, hi⟩, rfl⟩ h
  cases hstep with
  | @build built p queue children j hbuild =>
    obtain ⟨howned, ⟨ns, hns⟩, hchildren⟩ := hold
    have hlt := (List.getElem?_eq_some_iff.1 hns).1
    have hplace : (built ++ [j])[m]? = some { i with children := ns } :=
      (List.getElem?_append_left hlt).trans hns
    obtain ⟨ns', hns'⟩ := exists_attach_getElem? p.parent hplace
    refine ⟨howned.build j children, ⟨ns', hns'⟩, ?_⟩
    rw [childrenOf_build howned (Pending.children_of_build hbuild), if_neg (Nat.ne_of_lt hlt), hchildren]

/-- The instance of this number has been asked for: it is one of the entity `e`, and `given` is put in
for its generics. The first instance is the one of the top unit. Every other one is asked for by a copy of
a statement, in an instance that is built. -/
inductive AsksFor (l : Library) (top : Entity) (overrides : Overrides) (w : Worklist) :
    Nat → Entity → (Nat → Option (Result Value)) → Prop
  | top : AsksFor l top overrides w 0 top fun k => (top.lastOverride? overrides k).map .ok
  | child {m j n : Nat} {i : Instance} {p c : Pending} {u : Unrolling} {children : List Pending}
      {q : Place} {s : Syntax.Instantiation} :
    w.built[m]? = some i → p.Bound l → p.Gives l children i → u.Of l p i children →
    (w.childrenOf m)[j]? = some n → children[j]? = some c →
    u.Copy p q (.stmt (.instantiation s)) → instantiate l q.scope q.path s = .ok c →
      AsksFor l top overrides w n c.entity fun k =>
        (c.entity.lastActual? s.genericMap k).map (eval q.scope)

theorem AsksFor.mono {top e : Entity} {overrides : Overrides} {w w' : Worklist} {n : Nat}
    {given : Nat → Option (Result Value)} (h : w.AsksFor l top overrides n e given) (howned : w.Owned)
    (hsteps : ReflTransGen (Step l) w w') : w'.AsksFor l top overrides n e given := by
  cases h with
  | top => exact .top
  | child hi hp hgives hu hn hc hq hinstantiate =>
    obtain ⟨⟨ns, hns⟩, hchildren⟩ := built_of_steps howned hsteps hi
    rw [← hchildren] at hn
    exact .child hns hp (hgives.withChildren ns) (hu.withChildren ns) hn hc hq hinstantiate

section
variable {top : Pending} {past : List Pending} {w : Worklist} {overrides : Overrides} {n : Nat} {e : Entity}
  {given : Nat → Option (Result Value)}

/-- What has been asked for is on record. -/
theorem Record.asked (hw : w.Record l top past)
    (htop : putIn top.generics = fun k => (top.entity.lastOverride? overrides k).map .ok)
    (h : w.AsksFor l top.entity overrides n e given) :
    ∃ c, (past ++ w.queue)[n]? = some c ∧ c.entity = e ∧ putIn c.generics = given := by
  cases h with
  | top => exact ⟨top, hw.top, rfl, htop⟩
  | @child m j _ i p c u children q s hi hp hgives _ hn hc _ hinstantiate =>
    obtain ⟨p', children', first, hp', hgives', hnumbers, hlisted⟩ := hw.built m i hi
    have hbound := hw.bound p' (List.mem_append_left _ (List.mem_of_getElem? hp'))
    obtain rfl := hgives.children_unique hp hbound hgives'
    have hgiven := putIn_instantiate hinstantiate
    refine ⟨c.askedBy m, ?_, rfl, hgiven⟩
    rw [hnumbers] at hn
    obtain ⟨hlt, rfl⟩ := List.getElem?_eq_some_iff.1 hn
    rw [List.getElem_range', Nat.one_mul]
    exact hlisted j c hc

theorem Record.valued (hw : w.Record l top past)
    (htop : putIn top.generics = fun k => (top.entity.lastOverride? overrides k).map .ok)
    (h : w.AsksFor l top.entity overrides n e given) {i : Instance} (hi : w.built[n]? = some i) :
    i.entity = e.name ∧ Valued e given i.generics := by
  obtain ⟨c, hc, rfl, rfl⟩ := hw.asked htop h
  obtain ⟨p, children, first, hp, ⟨i₀, ns, hbuild, rfl⟩, -⟩ := hw.built n i hi
  rw [List.getElem?_append_left (List.getElem?_eq_some_iff.1 hp).1, hp] at hc
  obtain rfl := Option.some.inj hc
  have hbound := hw.bound p (List.mem_append_left _ (List.mem_of_getElem? hp))
  have hvalued := valued_of_build hbuild
  exact ⟨congrArg UnitKey.entity (Pending.build_asks hbound hbuild).1, hvalued⟩

/-- Every number but that of the top unit is given to what a statement asks for. -/
theorem Record.exists_asksFor {top' : Entity} (hw : w.Record l top past) {i : Instance} {m : Nat}
    (hi : w.built[m]? = some i) (hn : n ∈ w.childrenOf m) :
    ∃ e given, w.AsksFor l top' overrides n e given := by
  obtain ⟨p, children, first, hp, hgives, hnumbers, -⟩ := hw.built m i hi
  have hbound := hw.bound p (List.mem_append_left _ (List.mem_of_getElem? hp))
  obtain ⟨u, hu⟩ := hgives.unrolling
  obtain ⟨j, hj⟩ := List.getElem?_of_mem hn
  have hlt : j < children.length := by
    have hlt := (List.getElem?_eq_some_iff.1 hj).1
    rwa [hnumbers, List.length_range'] at hlt
  obtain ⟨q, s, -, -, hcopy, hinstantiate, -⟩ := hu.asksFor (List.getElem_mem hlt)
  exact ⟨_, _, .child hi hbound hgives hu hj (List.getElem?_eq_getElem hlt) hcopy hinstantiate⟩

end

end Worklist

/-! ### Hierarchies -/

section
variable {name : String} {overrides : Overrides} {t : Top} {generics : List (Option (Value × Span))}

theorem record_of_steps (htop : findTop l name = .ok t)
    (hgenerics : applyOverrides t.entity overrides
      (Pending.bare t.entity t.architecture [] t.entity.span).generics = .ok generics)
    {w : Worklist} (hw : ReflTransGen (Worklist.Step l) (t.start generics) w) :
    ∃ top past, w.Record l top past ∧ top.entity = t.entity ∧
      putIn top.generics = fun k => (top.entity.lastOverride? overrides k).map .ok := by
  have hstart := Worklist.Record.start (l := l) (p := { Pending.bare t.entity t.architecture [] t.entity.span
    with generics }) (exact_of_findTop htop).2.2 rfl
  obtain ⟨past, hpast⟩ := hstart.steps hw
  refine ⟨_, past, hpast, rfl, funext fun k => ?_⟩
  rw [putIn_applyOverrides hgenerics (List.length_map _), Pending.bare, putIn_none, Option.or_none]

end

/-- Each instance has been asked for, and its generics have the values that follow from this. -/
def Hierarchy.HasValues (l : Library) (top : Entity) (overrides : Overrides) (d : Hierarchy) : Prop :=
  ∀ (n : Nat) i, d.instances[n]? = some i →
    (∃ e given, Worklist.AsksFor l top overrides ⟨d.instances, []⟩ n e given) ∧
    ∀ e given, Worklist.AsksFor l top overrides ⟨d.instances, []⟩ n e given →
      i.entity = e.name ∧ Valued e given i.generics

/-- Every generic of every instance has a value of its type, and this is what is put in for it last, or
else its default. If an instance has been asked for, and for a generic without a default nothing is put
in, then there is no hierarchy. -/
theorem elaborate_generics (l : Library) (name : String) (overrides : Overrides) :
    (∀ d, elaborate l name overrides = .ok d →
      ∃ t, findTop l name = .ok t ∧ d.HasValues l t.entity overrides) ∧
    (∀ t generics w, findTop l name = .ok t →
      applyOverrides t.entity overrides
        (Pending.bare t.entity t.architecture [] t.entity.span).generics = .ok generics →
      ReflTransGen (Worklist.Step l) (t.start generics) w →
      ∀ n e given (k : Nat) g, w.AsksFor l t.entity overrides n e given → e.generics[k]? = some g →
        given k = none → g.default = none → ∃ fault, elaborate l name overrides = .error fault) := by
  refine ⟨fun d h => ?_, fun t generics w htop hgenerics hw n e given k g hasks hg hgiven hdefault => ?_⟩
  · obtain ⟨t, generics, htop, hgenerics, hsteps⟩ := steps_of_elaborate h
    obtain ⟨top, past, hpast, hentity, hput⟩ := record_of_steps htop hgenerics hsteps
    refine ⟨t, htop, fun n i hi => ⟨?_, fun e given hasks => ?_⟩⟩
    · rcases Nat.eq_zero_or_pos n with rfl | hpos
      · exact ⟨_, _, .top⟩
      · obtain ⟨m, ⟨i', hi', hn⟩, -⟩ := (arena_of_elaborate h).breadthFirst.parent n hpos
          (List.getElem?_eq_some_iff.1 hi).1
        exact hpast.exists_asksFor hi' (Worklist.mem_childrenOf_done.2 ⟨i', hi', hn⟩)
    · rw [← hentity] at hasks
      exact hpast.valued hput hasks hi
  · cases h : elaborate l name overrides with
    | error fault => exact ⟨fault, rfl⟩
    | ok d =>
      -- then the instance has been built
      obtain ⟨t', generics', htop', hgenerics', hsteps⟩ := steps_of_elaborate h
      obtain rfl := Except.ok.inj (htop.symm.trans htop')
      obtain rfl := Except.ok.inj (hgenerics.symm.trans hgenerics')
      obtain ⟨top, past, hpast, hentity, hput⟩ := record_of_steps htop hgenerics hsteps
      obtain ⟨_, _, hrecord, -⟩ := record_of_steps htop hgenerics hw
      have hasks' := hasks.mono hrecord.owned (Worklist.steps_to_end hsteps hw)
      rw [← hentity] at hasks'
      obtain ⟨c, hc, -⟩ := hpast.asked hput hasks'
      have hlt : n < d.instances.length := by
        have hlen : past.length = d.instances.length := hpast.length
        rw [List.append_nil] at hc
        rw [← hlen]
        exact (List.getElem?_eq_some_iff.1 hc).1
      have hvalued := (hpast.valued hput hasks' (List.getElem?_eq_getElem hlt)).2
      obtain ⟨v, hv⟩ := hvalued.default hg hgiven
      rw [hdefault] at hv
      cases hv

/-- A triangle of stages, each with a width of its own. The generic map says the width of a stage twice and
leaves its depth open. -/
def stageTriangle : Library :=
  let named (name : String) : Syntax.Expr := .name ⟨name, .nowhere⟩
  let num (n : Int) : Syntax.Expr := .int n .nowhere
  let width : Syntax.Generic := ⟨"width", .natural, none, .nowhere⟩
  let depth : Syntax.Generic :=
    ⟨"depth", .positive, some (.binary .add (named "width") (num 1) .nowhere), .nowhere⟩
  let stage : Syntax.Instantiation :=
    ⟨"stage", "stage", none, [⟨none, .expr (named "i"), .nowhere⟩,
      ⟨some ⟨"depth", .nowhere⟩, .leftOpen, .nowhere⟩,
      ⟨some ⟨"width", .nowhere⟩, .expr (.binary .add (named "i") (named "j") .nowhere), .nowhere⟩],
      [], .nowhere⟩
  let row : Syntax.Generate :=
    ⟨"row", "j", ⟨num 0, .to, named "i"⟩, [], [.instantiation stage], .nowhere⟩
  let rows : Syntax.Generate :=
    ⟨"rows", "i", ⟨num 1, .to, named "n"⟩, [], [.generate row], .nowhere⟩
  { entities := [⟨"stage", [width, depth], [], .nowhere⟩,
      ⟨"triangle", [⟨"n", .positive, none, .nowhere⟩], [], .nowhere⟩]
    architectures := [⟨"rtl", "stage", [], [], .nowhere⟩,
      ⟨"rtl", "triangle", [], [.generate rows], .nowhere⟩] }

theorem elaborate_generics_stageTriangle :
    (∃ d, elaborate stageTriangle "Triangle" [("n", .int 7), ("N", .int 1)] = .ok d ∧
      d.instances.map (·.generics) = [[("n", .int 1)], [("width", .int 1), ("depth", .int 2)],
        [("width", .int 2), ("depth", .int 3)]] ∧
      ∃ t, findTop stageTriangle "Triangle" = .ok t ∧
        d.HasValues stageTriangle t.entity [("n", .int 7), ("N", .int 1)]) ∧
    ∃ fault, elaborate stageTriangle "Triangle" [] = .error fault := by
  constructor
  · have hvalues : (elaborate stageTriangle "Triangle" [("n", .int 7), ("N", .int 1)]).toOption.map
        (fun d => d.instances.map (·.generics)) = some [[("n", .int 1)],
          [("width", .int 1), ("depth", .int 2)], [("width", .int 2), ("depth", .int 3)]] := by
      decide +kernel
    cases h : elaborate stageTriangle "Triangle" [("n", .int 7), ("N", .int 1)] with
    | error fault => rw [h] at hvalues; cases hvalues
    | ok d =>
      rw [h] at hvalues
      exact ⟨d, rfl, Option.some.inj hvalues, (elaborate_generics stageTriangle _ _).1 d h⟩
  · have hdefaults : (findTop stageTriangle "Triangle").toOption.map
        (fun t => t.entity.generics.map (·.default.isNone)) = some [true] := by decide +kernel
    cases h : findTop stageTriangle "Triangle" with
    | error fault => rw [h] at hdefaults; cases hdefaults
    | ok t =>
      rw [h] at hdefaults
      obtain ⟨g, hg, hnone⟩ := List.map_eq_singleton_iff.1 (Option.some.inj hdefaults)
      refine (elaborate_generics stageTriangle "Triangle" []).2 t _ _ h rfl .refl 0 _ _ 0 g .top ?_ rfl
        (Option.isNone_iff_eq_none.1 hnone)
      rw [hg]
      rfl

/-- A unit that has two generics of one name. -/
def namesakes : Library :=
  { entities := [⟨"e", [⟨"n", .integer, some (.int 1 .nowhere), .nowhere⟩,
      ⟨"n", .integer, some (.int 2 .nowhere), .nowhere⟩], [], .nowhere⟩]
    architectures := [⟨"a", "e", [], [], .nowhere⟩] }

/-- What is said of a name does not count for every generic of that name: the second one keeps its
default. -/
theorem elaborate_generics_namesakes :
    ¬ ∀ (l : Library) (name : String) (overrides : Overrides) (d : Hierarchy) (i : Instance),
      elaborate l name overrides = .ok d → d.instances[0]? = some i → ∀ x ∈ i.generics, ∀ v,
        (overrides.filter (Ascii.lower ·.1 == x.1)).getLast?.map (·.2) = some v → x.2 = v := by
  intro hall
  have hvalues : (elaborate namesakes "e" [("n", .int 5)]).toOption.map
      (fun d => d.instances.map (·.generics)) = some [[("n", .int 5), ("n", .int 2)]] := by
    decide +kernel
  cases h : elaborate namesakes "e" [("n", .int 5)] with
  | error fault => rw [h] at hvalues; cases hvalues
  | ok d =>
    rw [h] at hvalues
    obtain ⟨i, hi, hgenerics⟩ := List.map_eq_singleton_iff.1 (Option.some.inj hvalues)
    have hn : ("n", Value.int 2) ∈ i.generics := by
      rw [hgenerics]
      exact List.mem_cons_of_mem _ List.mem_cons_self
    have hfive : Value.int 2 = .int 5 :=
      hall namesakes "e" [("n", .int 5)] d i h (by rw [hi]; rfl) _ hn (.int 5) (by decide)
    cases hfive

end HdlLint.Design
