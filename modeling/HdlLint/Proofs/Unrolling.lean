import Mathlib.Data.List.Lex
import HdlLint.Proofs.Building
import HdlLint.Proofs.Resolution

/-!
# Unrolled loops

A loop is built once per round, so each declaration and each statement inside of loops has one copy for
every choice of a round of each loop around it. `Reaches` leads from the text to these copies: past a
declaration or a statement to the next one, or into a round of a loop, where the index and the local
declarations are in sight. A copy is told by its site, and sites are ordered as the copies are in the
unrolled text.

`Pending.build_unrolling`: what is built of an instance, apart from its own ports and signals, is one
signal, process or pending instance for each copy that is reached, in the order of their sites.
-/

namespace HdlLint.Syntax

mutual

/-- The processes of a statement in the order of the text, each with its place: the numbers of the loops
around it and then its own, each counted in its block. -/
def Concurrent.processesAt (n : Nat) : Concurrent → List (List Nat × Process)
  | .process p => [([n], p)]
  | .instantiation _ => []
  | .generate ⟨_, _, _, decls, body, _⟩ =>
    (processesFrom decls.length body).map fun x => (n :: x.1, x.2)

/-- The processes of statements of a block, the first of which has the number `n`. -/
def processesFrom (n : Nat) : List Concurrent → List (List Nat × Process)
  | [] => []
  | c :: cs => c.processesAt n ++ processesFrom (n + 1) cs

end

mutual

theorem Concurrent.length_processesAt (n : Nat) :
    ∀ c : Concurrent, (c.processesAt n).length = c.processCount
  | .process _ => rfl
  | .instantiation _ => rfl
  | .generate ⟨_, _, _, _, body, _⟩ => (List.length_map _).trans (length_processesFrom _ body)

theorem length_processesFrom (n : Nat) :
    ∀ cs : List Concurrent, (processesFrom n cs).length = processCount cs
  | [] => rfl
  | c :: cs => by
    rw [processesFrom, List.length_append, c.length_processesAt, length_processesFrom (n + 1) cs]
    rfl

end

/-- The processes of an architecture in the order of the text; those inside of loops count once. -/
def Architecture.processes (a : Architecture) : List (List Nat × Process) := processesFrom 0 a.body

end HdlLint.Syntax

namespace HdlLint.Design
open Syntax (Library)

/-! ### Copies -/

/-- Where a copy stands in the unrolled text. -/
structure Site where
  /-- For each loop around it, the outermost first: its number in its block, and that of the round. -/
  rounds : List (Nat × Nat)
  /-- Its own number in its block, in which the declarations come before the statements. -/
  number : Nat
  deriving DecidableEq

namespace Site

/-- Where that of which it is a copy stands in the text. -/
def place (s : Site) : List Nat := s.rounds.map (·.1) ++ [s.number]

def key (s : Site) : List Nat := s.rounds.flatMap (fun x => [x.1, x.2]) ++ [s.number]

/-- Copies are ordered by the first number in which their keys differ. -/
def Before (s t : Site) : Prop := List.Lex (· < ·) s.key t.key

end Site

/-- One of the declarations and statements of a block. -/
inductive Part where
  | decl (d : Syntax.Decl)
  | stmt (c : Syntax.Concurrent)

def Part.isLoop : Part → Bool
  | .stmt (.generate _) => true
  | _ => false

def partsOf (g : Syntax.Generate) : List Part := g.decls.map .decl ++ g.body.map .stmt

/-- A site with the names that are in sight there and the path to it. -/
structure Place where
  rounds : List (Nat × Nat)
  number : Nat
  scope : Scope
  path : Path

namespace Place

def site (o : Place) : Site := ⟨o.rounds, o.number⟩

/-- The start of a round of the loop that stands here. -/
def round (o : Place) (g : Syntax.Generate) (r : Nat) (k : Int) : Place :=
  ⟨o.rounds ++ [(o.number, r)], 0, o.scope.push.bind g.var (.constant (.int k)),
    o.path ++ [.generate g.label k]⟩

/-- The place `n` parts behind, in the same block. -/
def advance (o : Place) (n : Nat) (scope : Scope) : Place := { o with number := o.number + n, scope }

variable (ν : Site → SignalId)

/-- The names in sight behind a declaration. A signal has the number that belongs to its site. -/
def declare (o : Place) : Syntax.Decl → Result Scope
  | .enumeration name literals _ =>
    .ok (bindLiterals (o.scope.bind name (.enumeration (literalCount literals))) literals)
  | .constant name _ value _ => do
    let v ← eval o.scope value
    return o.scope.bind name (.constant v)
  | .signal name type _ _ => do
    let _ ← width o.scope type
    return o.scope.bind name (.signal (ν o.site))

/-- The place behind a part. -/
def next (o : Place) : Part → Result Place
  | .decl d => do return o.advance 1 (← o.declare ν d)
  | .stmt _ => .ok (o.advance 1 o.scope)

def past (o : Place) : List Part → Result Place
  | [] => .ok o
  | x :: xs => do (← o.next ν x).past xs

end Place

/-- The round `r` of the loop has the index `k`. Rounds are counted from zero, in the direction of the
range, as long as its end is not passed. -/
def IsRound (scope : Scope) (g : Syntax.Generate) (r : Nat) (k : Int) : Prop :=
  ∃ left right, generateBound scope g.label g.range.left = .ok left ∧
    generateBound scope g.label g.range.right = .ok right ∧
    match g.range.direction with
    | .to => k = left + r ∧ k ≤ right
    | .downto => k = left - r ∧ right ≤ k

/-- From the place `o`, where these parts follow, the copy of a part at another place is reached. -/
inductive Reaches (ν : Site → SignalId) : Place → List Part → Place → Part → Prop
  | here {o : Place} {x : Part} {xs : List Part} : Reaches ν o (x :: xs) o x
  | later {o o' q : Place} {x y : Part} {xs : List Part} :
    o.next ν x = .ok o' → Reaches ν o' xs q y → Reaches ν o (x :: xs) q y
  | inside {o q : Place} {y : Part} {g : Syntax.Generate} {r : Nat} {k : Int} {xs : List Part} :
    IsRound o.scope g r k → Reaches ν (o.round g r k) (partsOf g) q y →
      Reaches ν o (.stmt (.generate g) :: xs) q y

/-! ### What copies make -/

inductive Item where
  | signal (s : Signal)
  | process (p : Process)
  | child (c : Pending)

namespace Item

def signal? : Item → Option Signal
  | .signal s => some s
  | _ => none

def process? : Item → Option Process
  | .process p => some p
  | _ => none

def child? : Item → Option Pending
  | .child c => some c
  | _ => none

end Item

/-- Something that is built, and the copy that it is built for. -/
structure Made where
  site : Site
  item : Item

def signalsOf (made : List Made) : List Signal := made.filterMap (·.item.signal?)
def processesOf (made : List Made) : List Process := made.filterMap (·.item.process?)
def childrenOf (made : List Made) : List Pending := made.filterMap (·.item.child?)

def signalSites (made : List Made) : List Site :=
  made.filterMap fun m => m.item.signal?.map fun _ => m.site

/-- Declarations of signals, processes and instances are built; constants, types and loops as such are
not. -/
def Part.IsBuilt : Part → Prop
  | .decl (.signal ..) | .stmt (.process _) | .stmt (.instantiation _) => True
  | .decl (.constant ..) | .decl (.enumeration ..) | .stmt (.generate _) => False

/-- What a copy asks to be built is this. -/
inductive Describes (l : Library) (a : Syntax.Architecture) (q : Place) : Part → Item → Prop
  | signal {name : String} {type : Syntax.Subtype} {init : Option Syntax.Expr} {span : Span} {w : Nat} :
    width q.scope type = .ok w →
      Describes l a q (.decl (.signal name type init span)) (.signal ⟨name, .internal, q.path, w, span⟩)
  | process {p : Syntax.Process} {n : Nat} {r : Process} :
    a.processes[n]? = some (q.site.place, p) → buildProcess a q.scope q.path n p = .ok r →
      Describes l a q (.stmt (.process p)) (.process r)
  | child {i : Syntax.Instantiation} {c : Pending} :
    instantiate l q.scope q.path i = .ok c → Describes l a q (.stmt (.instantiation i)) (.child c)

/-- What is made is what the copies in `R` ask for. -/
structure Answers (l : Library) (a : Syntax.Architecture) (R : Place → Part → Prop)
    (made : List Made) : Prop where
  sound : ∀ m ∈ made, ∃ q x, R q x ∧ m.site = q.site ∧ Describes l a q x m.item
  complete : ∀ q x, R q x → x.IsBuilt → ∃ m ∈ made, m.site = q.site ∧ Describes l a q x m.item

/-- What is made is in the order of the sites, each of which is in the block behind `pre` and there at
the numbers from `lo` to before `hi`. -/
structure Laid (pre : List Nat) (lo hi : Nat) (made : List Made) : Prop where
  order : made.Pairwise fun m m' => m.site.Before m'.site
  within : ∀ m ∈ made, ∃ n rest, m.site.key = pre ++ n :: rest ∧ lo ≤ n ∧ n < hi

/-- The signals have their numbers in the order in which they are made, from `base` on. -/
def Numbered (ν : Site → SignalId) (base : Nat) (made : List Made) : Prop :=
  ∀ (j : Nat) s, (signalSites made)[j]? = some s → ν s = base + j

/-- The later progress is the earlier one with what is made besides. -/
structure Progress.Adds (done : Progress) (made : List Made) (done' : Progress) : Prop where
  signals : done'.signals.toList = done.signals.toList ++ signalsOf made
  processes : done'.processes.toList = done.processes.toList ++ processesOf made
  children : done'.children.toList = done.children.toList ++ childrenOf made

section
variable {made more : List Made}

theorem length_signalSites (made : List Made) : (signalSites made).length = (signalsOf made).length := by
  induction made with
  | nil => rfl
  | cons m made ih =>
    obtain ⟨site, item⟩ := m
    cases item <;> simp_all [signalSites, signalsOf, Item.signal?]

theorem signalsOf_append : signalsOf (made ++ more) = signalsOf made ++ signalsOf more :=
  List.filterMap_append

theorem processesOf_append : processesOf (made ++ more) = processesOf made ++ processesOf more :=
  List.filterMap_append

theorem childrenOf_append : childrenOf (made ++ more) = childrenOf made ++ childrenOf more :=
  List.filterMap_append

theorem signalSites_append : signalSites (made ++ more) = signalSites made ++ signalSites more :=
  List.filterMap_append

theorem Progress.Adds.trans {d d' d'' : Progress} (h : d.Adds made d') (h' : d'.Adds more d'') :
    d.Adds (made ++ more) d'' := by
  constructor
  · rw [h'.signals, h.signals, signalsOf_append, List.append_assoc]
  · rw [h'.processes, h.processes, processesOf_append, List.append_assoc]
  · rw [h'.children, h.children, childrenOf_append, List.append_assoc]

theorem Progress.Adds.refl (d : Progress) : d.Adds [] d :=
  ⟨(List.append_nil _).symm, (List.append_nil _).symm, (List.append_nil _).symm⟩

theorem Progress.Adds.size {d d' : Progress} (h : d.Adds made d') :
    d'.signals.size = d.signals.size + (signalSites made).length := by
  have hlen := congrArg List.length h.signals
  rwa [List.length_append, Array.length_toList, Array.length_toList, ← length_signalSites] at hlen

variable {ν : Site → SignalId} {base : Nat}

theorem numbered_append : Numbered ν base (made ++ more) ↔
    Numbered ν base made ∧ Numbered ν (base + (signalSites made).length) more := by
  simp only [Numbered, signalSites_append]
  constructor
  · intro h
    refine ⟨fun j s hj => h j s ?_, fun j s hj => ?_⟩
    · rw [List.getElem?_append_left (List.getElem?_eq_some_iff.1 hj).1, hj]
    · have hnum := h ((signalSites made).length + j) s
      rw [List.getElem?_append_right (Nat.le_add_right ..), Nat.add_sub_cancel_left] at hnum
      rw [hnum hj, Nat.add_assoc]
  · rintro ⟨hmade, hmore⟩ j s hj
    by_cases hlt : j < (signalSites made).length
    · rw [List.getElem?_append_left hlt] at hj
      exact hmade j s hj
    · rw [List.getElem?_append_right (by omega)] at hj
      have hsum : base + (signalSites made).length + (j - (signalSites made).length) = base + j := by
        omega
      rw [hmore _ s hj, hsum]

end

/-! ### Sites -/

section
variable {ν : Site → SignalId} {o o' q : Place} {x y : Part} {xs ys : List Part}

theorem Place.next_eq (h : o.next ν x = .ok o') : ∃ scope, o' = o.advance 1 scope := by
  cases x with
  | decl d =>
    obtain ⟨scope, -, h⟩ := Result.bind_eq_ok.1 h
    exact ⟨scope, (Except.ok.inj h).symm⟩
  | stmt c => exact ⟨o.scope, (Except.ok.inj h).symm⟩

theorem Place.past_eq (h : o.past ν xs = .ok o') : ∃ scope, o' = o.advance xs.length scope := by
  induction xs generalizing o with
  | nil => exact ⟨o.scope, (Except.ok.inj h).symm⟩
  | cons x xs ih =>
    obtain ⟨o₁, hnext, h⟩ := Result.bind_eq_ok.1 h
    obtain ⟨scope, rfl⟩ := Place.next_eq hnext
    obtain ⟨scope', rfl⟩ := ih h
    refine ⟨scope', ?_⟩
    rw [Place.advance, Place.advance, Place.advance, List.length_cons, Nat.add_assoc, Nat.add_comm 1]

theorem Place.past_append : o.past ν (xs ++ ys) = (o.past ν xs).bind fun o' => o'.past ν ys := by
  induction xs generalizing o with
  | nil => rfl
  | cons x xs ih =>
    rw [List.cons_append, Place.past, Place.past]
    cases o.next ν x with
    | ok o' => exact ih
    | error e => rfl

/-- The numbers that lead to the block of a place. -/
def Place.around (o : Place) : List Nat := o.rounds.flatMap fun x => [x.1, x.2]

theorem Place.around_round (o : Place) (g : Syntax.Generate) (r : Nat) (k : Int) :
    (o.round g r k).around = o.around ++ [o.number, r] := by
  simp [around, round]

theorem reaches_append : Reaches ν o (xs ++ ys) q y ↔
    Reaches ν o xs q y ∨ ∃ o', o.past ν xs = .ok o' ∧ Reaches ν o' ys q y := by
  constructor
  · intro h
    induction xs generalizing o with
    | nil => exact .inr ⟨o, rfl, h⟩
    | cons x xs ih =>
      cases h with
      | here => exact .inl .here
      | later hnext h =>
        rcases ih h with h | ⟨o', hpast, h⟩
        · exact .inl (.later hnext h)
        · exact .inr ⟨o', Result.bind_eq_ok.2 ⟨_, hnext, hpast⟩, h⟩
      | inside hround h => exact .inl (.inside hround h)
  · rintro (h | ⟨o', hpast, h⟩)
    · induction h with
      | here => exact .here
      | later hnext _ ih => exact .later hnext ih
      | inside hround hinner _ => exact .inside hround hinner
    · induction xs generalizing o with
      | nil =>
        cases hpast
        exact h
      | cons x xs ih =>
        obtain ⟨o₁, hnext, hpast⟩ := Result.bind_eq_ok.1 hpast
        exact .later hnext (ih hpast)

/-- What is no loop has no copies but itself. -/
theorem Reaches.eq_of_single (hx : x.isLoop = false) (h : Reaches ν o [x] q y) : q = o ∧ y = x := by
  cases h with
  | here => exact ⟨rfl, rfl⟩
  | later _ h => cases h
  | inside _ _ => cases hx

end

namespace Laid
variable {pre : List Nat} {lo mid hi : Nat} {made more : List Made}

theorem nil : Laid pre lo hi [] := ⟨.nil, nofun⟩

theorem append (h : Laid pre lo mid made) (h' : Laid pre mid hi more) (hlo : lo ≤ mid)
    (hhi : mid ≤ hi) : Laid pre lo hi (made ++ more) := by
  refine ⟨List.pairwise_append.2 ⟨h.order, h'.order, fun m hm m' hm' => ?_⟩, fun m hm => ?_⟩
  · obtain ⟨n, rest, hkey, -, hlt⟩ := h.within m hm
    obtain ⟨n', rest', hkey', hle, -⟩ := h'.within m' hm'
    rw [Site.Before, hkey, hkey']
    exact List.Lex.append_left _ (.rel (by omega)) pre
  · rcases List.mem_append.1 hm with hm | hm
    · obtain ⟨n, rest, hkey, hle, hlt⟩ := h.within m hm
      exact ⟨n, rest, hkey, hle, by omega⟩
    · obtain ⟨n, rest, hkey, hle, hlt⟩ := h'.within m hm
      exact ⟨n, rest, hkey, by omega, hlt⟩

/-- Seen from further out, the block is at one number. -/
theorem outward {n : Nat} (h : Laid (pre ++ [n]) lo hi made) : Laid pre n (n + 1) made := by
  refine ⟨h.order, fun m hm => ?_⟩
  obtain ⟨k, rest, hkey, -, -⟩ := h.within m hm
  refine ⟨n, k :: rest, ?_, Nat.le_refl n, Nat.lt_succ_self n⟩
  rw [hkey, List.append_assoc]
  rfl

theorem single (o : Place) (item : Item) : Laid o.around o.number (o.number + 1) [⟨o.site, item⟩] := by
  refine ⟨List.pairwise_singleton _ _, fun m hm => ?_⟩
  obtain rfl := List.mem_singleton.1 hm
  exact ⟨o.number, [], rfl, Nat.le_refl _, Nat.lt_succ_self _⟩

end Laid

namespace Answers
variable {l : Library} {a : Syntax.Architecture} {R R' : Place → Part → Prop} {made more : List Made}
  {ν : Site → SignalId} {o : Place} {x : Part}

theorem congr (h : Answers l a R made) (hR : ∀ q x, R q x ↔ R' q x) : Answers l a R' made := by
  have heq : R = R' := funext fun q => funext fun x => propext (hR q x)
  exact heq ▸ h

theorem empty (hR : ∀ q x, R q x → ¬ x.IsBuilt) : Answers l a R [] :=
  ⟨nofun, fun q x hx hbuilt => absurd hbuilt (hR q x hx)⟩

theorem append (h : Answers l a R made) (h' : Answers l a R' more) :
    Answers l a (fun q x => R q x ∨ R' q x) (made ++ more) := by
  refine ⟨fun m hm => ?_, ?_⟩
  · rcases List.mem_append.1 hm with hm | hm
    · obtain ⟨q, x, hq, hdescribes⟩ := h.sound m hm
      exact ⟨q, x, .inl hq, hdescribes⟩
    · obtain ⟨q, x, hq, hdescribes⟩ := h'.sound m hm
      exact ⟨q, x, .inr hq, hdescribes⟩
  · rintro q x (hq | hq) hbuilt
    · obtain ⟨m, hm, hdescribes⟩ := h.complete q x hq hbuilt
      exact ⟨m, List.mem_append_left _ hm, hdescribes⟩
    · obtain ⟨m, hm, hdescribes⟩ := h'.complete q x hq hbuilt
      exact ⟨m, List.mem_append_right _ hm, hdescribes⟩

theorem leaf (hx : x.isLoop = false) {item : Item} (h : Describes l a o x item) :
    Answers l a (Reaches ν o [x]) [⟨o.site, item⟩] := by
  refine ⟨fun m hm => ?_, fun q y hy _ => ?_⟩
  · obtain rfl := List.mem_singleton.1 hm
    exact ⟨o, x, .here, rfl, h⟩
  · obtain ⟨rfl, rfl⟩ := hy.eq_of_single hx
    exact ⟨_, List.mem_singleton.2 rfl, rfl, h⟩

end Answers

/-! ### What is built -/

/-- These parts, at the place `o`, lead from the one progress to the other, and `scope` is what is in
sight behind them. What they add does not hang on any number of a signal but of those that they add
themselves. -/
def Makes (l : Library) (a : Syntax.Architecture) (o : Place) (xs : List Part) (scope : Scope)
    (done done' : Progress) : Prop :=
  ∃ made, done.Adds made done' ∧ Laid o.around o.number (o.number + xs.length) made ∧
    ∀ ν, Numbered ν done.signals.size made →
      o.past ν xs = .ok (o.advance xs.length scope) ∧ Answers l a (Reaches ν o xs) made

namespace Makes
variable {l : Library} {a : Syntax.Architecture} {o : Place} {x : Part} {xs ys : List Part}
  {scope scope' : Scope} {d d' d'' : Progress}

theorem nil : Makes l a o [] o.scope d d := by
  refine ⟨[], .refl d, .nil, fun ν _ => ⟨rfl, .empty fun q x h => ?_⟩⟩
  cases h

theorem append (h : Makes l a o xs scope d d')
    (h' : Makes l a (o.advance xs.length scope) ys scope' d' d'') :
    Makes l a o (xs ++ ys) scope' d d'' := by
  obtain ⟨made, hadds, hlaid, hmade⟩ := h
  obtain ⟨more, hadds', hlaid', hmore⟩ := h'
  refine ⟨made ++ more, hadds.trans hadds', ?_, fun ν hν => ?_⟩
  · have hlen : o.number + (xs ++ ys).length = o.number + xs.length + ys.length := by
      rw [List.length_append, Nat.add_assoc]
    rw [hlen]
    exact hlaid.append hlaid' (Nat.le_add_right ..) (Nat.le_add_right ..)
  · -- the signals of the second parts are numbered from where those of the first end
    obtain ⟨hν, hν'⟩ := numbered_append.1 hν
    rw [← hadds.size] at hν'
    obtain ⟨hpast, hanswers⟩ := hmade ν hν
    obtain ⟨hpast', hanswers'⟩ := hmore ν hν'
    constructor
    · rw [Place.past_append, hpast]
      refine hpast'.trans (congrArg Except.ok ?_)
      rw [List.length_append]
      exact congrArg (fun n => Place.mk o.rounds n scope' o.path) (Nat.add_assoc ..)
    · refine (hanswers.append hanswers').congr fun q x => ?_
      rw [reaches_append]
      refine or_congr_right ⟨fun hq => ⟨_, hpast, hq⟩, ?_⟩
      rintro ⟨o', hpast', hq⟩
      obtain rfl := Except.ok.inj (hpast.symm.trans hpast')
      exact hq

theorem past_single {ν : Site → SignalId} (h : o.next ν x = .ok (o.advance 1 scope)) :
    o.past ν [x] = .ok (o.advance [x].length scope) :=
  Result.bind_eq_ok.2 ⟨_, h, rfl⟩

/-- A part that is no loop, of which something is built. -/
theorem leaf {item : Item} (hx : x.isLoop = false) (h : Describes l a o x item)
    (hadds : d.Adds [⟨o.site, item⟩] d')
    (hnext : ∀ ν, Numbered ν d.signals.size [⟨o.site, item⟩] → o.next ν x = .ok (o.advance 1 scope)) :
    Makes l a o [x] scope d d' :=
  ⟨_, hadds, .single o item, fun ν hν => ⟨past_single (hnext ν hν), .leaf hx h⟩⟩

/-- A part that is no loop, of which nothing is built. -/
theorem silent (hx : x.isLoop = false) (hbuilt : ¬ x.IsBuilt)
    (hnext : ∀ ν, o.next ν x = .ok (o.advance 1 scope)) : Makes l a o [x] scope d d := by
  refine ⟨[], .refl d, .nil, fun ν _ => ⟨past_single (hnext ν), .empty fun q y hy => ?_⟩⟩
  obtain ⟨-, rfl⟩ := hy.eq_of_single hx
  exact hbuilt

end Makes

section
variable {l : Library} {a : Syntax.Architecture}

theorem bindDecls_makes {o : Place} {d : Progress} {ds : List Syntax.Decl} {scope : Scope}
    {signals : Array Signal} (h : bindDecls o.path o.scope d.signals ds = .ok (scope, signals)) :
    Makes l a o (ds.map .decl) scope d { d with signals } := by
  induction ds generalizing o d with
  | nil =>
    cases h
    exact .nil
  | cons x ds ih =>
    cases x with
    | enumeration name literals span =>
      exact (Makes.silent rfl id fun ν => rfl).append
        (ih (o := o.advance 1 (bindLiterals (o.scope.bind name (.enumeration (literalCount literals))) literals)) h)
    | constant name type value span =>
      obtain ⟨v, hv, h⟩ := Result.bind_eq_ok.1 h
      have hnext : ∀ ν, o.next ν (.decl (.constant name type value span))
          = .ok (o.advance 1 (o.scope.bind name (.constant v))) := by
        intro ν
        rw [Place.next, Place.declare, hv]
        rfl
      exact (Makes.silent rfl id hnext).append
        (ih (o := o.advance 1 (o.scope.bind name (.constant v))) h)
    | signal name type init span =>
      obtain ⟨w, hw, h⟩ := Result.bind_eq_ok.1 h
      have hadds : d.Adds [⟨o.site, .signal ⟨name, .internal, o.path, w, span⟩⟩]
          { d with signals := d.signals.push ⟨name, .internal, o.path, w, span⟩ } :=
        ⟨Array.toList_push, (List.append_nil _).symm, (List.append_nil _).symm⟩
      refine (Makes.leaf rfl (.signal hw) hadds fun ν hν => ?_).append
        (ih (o := o.advance 1 (o.scope.bind name (.signal d.signals.size)))
          (d := { d with signals := d.signals.push ⟨name, .internal, o.path, w, span⟩ }) h)
      -- the only signal here is the next one
      have hsite : ν o.site = d.signals.size := hν 0 o.site rfl
      rw [Place.next, Place.declare, hw, hsite]
      rfl

/-! ### Rounds -/

def roundIndex (direction : Syntax.RangeDirection) (left : Int) (r : Nat) : Int :=
  match direction with
  | .to => left + r
  | .downto => left - r

theorem nextIndex_roundIndex (direction : Syntax.RangeDirection) (left : Int) (r : Nat) :
    nextIndex direction (roundIndex direction left r) = roundIndex direction left (r + 1) := by
  cases direction <;> simp only [nextIndex, roundIndex] <;> omega

theorem isRound_iff {scope : Scope} {g : Syntax.Generate} {left right : Int}
    (hleft : generateBound scope g.label g.range.left = .ok left)
    (hright : generateBound scope g.label g.range.right = .ok right) (r : Nat) (k : Int) :
    IsRound scope g r k ↔
      r < rangeLength left g.range.direction right ∧ k = roundIndex g.range.direction left r := by
  have hiff : IsRound scope g r k ↔ (match g.range.direction with
      | .to => k = left + r ∧ k ≤ right
      | .downto => k = left - r ∧ right ≤ k) := by
    constructor
    · rintro ⟨left', right', hleft', hright', h⟩
      obtain rfl := Except.ok.inj (hleft.symm.trans hleft')
      obtain rfl := Except.ok.inj (hright.symm.trans hright')
      exact h
    · exact fun h => ⟨left, right, hleft, hright, h⟩
  rw [hiff]
  cases g.range.direction <;> simp only [rangeLength, roundIndex] <;> omega

/-- What the rounds from `r` on make, if each of them makes its copies of the parts of the loop. -/
theorem foldIndices_makes {o : Place} {g : Syntax.Generate} {step : Progress → Int → Result Progress}
    {direction : Syntax.RangeDirection} {left : Int}
    (hstep : ∀ r d d', step d (roundIndex direction left r) = .ok d' → ∃ scope,
      Makes l a (o.round g r (roundIndex direction left r)) (partsOf g) scope d d')
    (n r : Nat) {i : Int} {d d' : Progress} (hi : i = roundIndex direction left r)
    (h : foldIndices step direction n i d = .ok d') :
    ∃ made, d.Adds made d' ∧ Laid (o.around ++ [o.number]) r (r + n) made ∧
      ∀ ν, Numbered ν d.signals.size made → Answers l a (fun q x => ∃ s, r ≤ s ∧ s < r + n ∧
        Reaches ν (o.round g s (roundIndex direction left s)) (partsOf g) q x) made := by
  subst hi
  induction n generalizing r d with
  | zero =>
    cases h
    refine ⟨[], .refl _, .nil, fun ν _ => .empty ?_⟩
    rintro q x ⟨s, hle, hlt, -⟩
    omega
  | succ n ih =>
    rw [foldIndices] at h
    cases hd : step d (roundIndex direction left r) with
    | error e => simp only [hd, reduceCtorEq] at h
    | ok d₁ =>
      simp only [hd, nextIndex_roundIndex] at h
      obtain ⟨scope, made, hadds, hlaid, hmade⟩ := hstep r d d₁ hd
      obtain ⟨more, hadds', hlaid', hmore⟩ := ih (r + 1) h
      refine ⟨made ++ more, hadds.trans hadds', ?_, fun ν hν => ?_⟩
      · have hround : Laid (o.around ++ [o.number]) r (r + 1) made := by
          rw [Place.around_round, List.append_cons] at hlaid
          exact hlaid.outward
        rw [Nat.add_right_comm] at hlaid'
        exact hround.append hlaid' (Nat.le_succ r) (by omega)
      · obtain ⟨hν, hν'⟩ := numbered_append.1 hν
        rw [← hadds.size] at hν'
        refine ((hmade ν hν).2.append (hmore ν hν')).congr fun q x => ⟨?_, ?_⟩
        · rintro (hq | ⟨s, hle, hlt, hq⟩)
          · exact ⟨r, Nat.le_refl r, by omega, hq⟩
          · exact ⟨s, by omega, by omega, hq⟩
        · rintro ⟨s, hle, hlt, hq⟩
          rcases Nat.eq_or_lt_of_le hle with rfl | hlt'
          · exact .inl hq
          · exact .inr ⟨s, hlt', by omega, hq⟩

/-- A loop makes what its rounds make. -/
theorem Makes.loop {o : Place} {g : Syntax.Generate} {left right : Int} {d d' : Progress}
    (hleft : generateBound o.scope g.label g.range.left = .ok left)
    (hright : generateBound o.scope g.label g.range.right = .ok right)
    {step : Progress → Int → Result Progress}
    (hstep : ∀ r d d', step d (roundIndex g.range.direction left r) = .ok d' → ∃ scope,
      Makes l a (o.round g r (roundIndex g.range.direction left r)) (partsOf g) scope d d')
    (h : foldIndices step g.range.direction (rangeLength left g.range.direction right) left d
      = .ok d') :
    Makes l a o [.stmt (.generate g)] o.scope d d' := by
  have hstart : left = roundIndex g.range.direction left 0 := by
    cases g.range.direction <;> simp only [roundIndex] <;> omega
  obtain ⟨made, hadds, hlaid, hmade⟩ := foldIndices_makes hstep _ 0 hstart h
  refine ⟨made, hadds, hlaid.outward, fun ν hν => ⟨Makes.past_single rfl, ?_⟩⟩
  have hanswers := hmade ν hν
  constructor
  · intro m hm
    obtain ⟨q, x, ⟨r, -, hlt, hq⟩, hsite⟩ := hanswers.sound m hm
    have hround := (isRound_iff hleft hright r _).2 ⟨by omega, rfl⟩
    exact ⟨q, x, .inside hround hq, hsite⟩
  · intro q x hq hbuilt
    cases hq with
    | here => exact hbuilt.elim
    | later _ hq => cases hq
    | @inside _ _ _ _ r k _ hround hq =>
      obtain ⟨hlt, rfl⟩ := (isRound_iff hleft hright r k).1 hround
      exact hanswers.complete q x ⟨r, Nat.zero_le r, by omega, hq⟩ hbuilt

/-! ### Statements -/

/-- The processes of the architecture from `ordinal` on are these, in the block behind `pre`. -/
def Placed (a : Syntax.Architecture) (pre : List Nat) (ordinal : Nat)
    (ps : List (List Nat × Syntax.Process)) : Prop :=
  ∀ (n : Nat) x, ps[n]? = some x → a.processes[ordinal + n]? = some (pre ++ x.1, x.2)

theorem Placed.append {pre : List Nat} {ordinal : Nat} {ps qs : List (List Nat × Syntax.Process)}
    (h : Placed a pre ordinal (ps ++ qs)) :
    Placed a pre ordinal ps ∧ Placed a pre (ordinal + ps.length) qs := by
  refine ⟨fun n x hx => h n x ?_, fun n x hx => ?_⟩
  · rw [List.getElem?_append_left (List.getElem?_eq_some_iff.1 hx).1, hx]
  · rw [Nat.add_assoc]
    refine h _ x ?_
    rw [List.getElem?_append_right (Nat.le_add_right ..), Nat.add_sub_cancel_left, hx]

theorem Placed.inward {pre : List Nat} {ordinal k : Nat} {ps : List (List Nat × Syntax.Process)}
    (h : Placed a pre ordinal (ps.map fun x => (k :: x.1, x.2))) : Placed a (pre ++ [k]) ordinal ps := by
  intro n x hx
  rw [List.append_assoc]
  refine h n (k :: x.1, x.2) ?_
  rw [List.getElem?_map, hx]
  rfl

def Place.numbers (o : Place) : List Nat := o.rounds.map (·.1)

mutual

theorem buildStmt_makes : ∀ {o : Place} {ordinal : Nat} {d d' : Progress} (c : Syntax.Concurrent),
    Placed a o.numbers ordinal (c.processesAt o.number) →
    buildStmt l a o.scope o.path ordinal d c = .ok d' → Makes l a o [.stmt c] o.scope d d'
  | o, ordinal, d, d', .process p, hplaced, h => by
    obtain ⟨r, hr, h⟩ := Result.bind_eq_ok.1 h
    cases h
    have hordinal : a.processes[ordinal]? = some (o.site.place, p) := hplaced 0 _ rfl
    have hadds : d.Adds [⟨o.site, .process r⟩] { d with processes := d.processes.push r } :=
      ⟨(List.append_nil _).symm, Array.toList_push, (List.append_nil _).symm⟩
    exact .leaf rfl (.process hordinal hr) hadds fun ν _ => rfl
  | o, ordinal, d, d', .instantiation i, _, h => by
    obtain ⟨c, hc, h⟩ := Result.bind_eq_ok.1 h
    cases h
    have hadds : d.Adds [⟨o.site, .child c⟩] { d with children := d.children.push c } :=
      ⟨(List.append_nil _).symm, (List.append_nil _).symm, Array.toList_push⟩
    exact .leaf rfl (.child hc) hadds fun ν _ => rfl
  | o, ordinal, d, d', .generate ⟨label, var, range, decls, body, span⟩, hplaced, h => by
    obtain ⟨left, hleft, h⟩ := Result.bind_eq_ok.1 h
    obtain ⟨right, hright, h⟩ := Result.bind_eq_ok.1 h
    refine .loop hleft hright (fun r d₀ d₂ hstep => ?_) h
    obtain ⟨⟨scope, signals⟩, hdecls, hbody⟩ := Result.bind_eq_ok.1 hstep
    -- one round: the local declarations, then the body behind them
    let o₁ := o.round ⟨label, var, range, decls, body, span⟩ r (roundIndex range.direction left r)
    have hmakes : Makes l a o₁ (decls.map .decl) scope d₀ { d₀ with signals } := bindDecls_makes hdecls
    refine ⟨scope, hmakes.append (buildStmts_makes body ?_ hbody)⟩
    have hnumber : (o₁.advance (decls.map Part.decl).length scope).number = decls.length := by
      rw [List.length_map]
      exact Nat.zero_add _
    have hnumbers : (o₁.advance (decls.map Part.decl).length scope).numbers = o.numbers ++ [o.number] :=
      List.map_append
    rw [hnumber, hnumbers]
    exact hplaced.inward

theorem buildStmts_makes : ∀ {o : Place} {ordinal : Nat} {d d' : Progress} (cs : List Syntax.Concurrent),
    Placed a o.numbers ordinal (Syntax.processesFrom o.number cs) →
    buildStmts l a o.scope o.path ordinal d cs = .ok d' → Makes l a o (cs.map .stmt) o.scope d d'
  | o, ordinal, d, d', [], _, h => by
    cases h
    exact .nil
  | o, ordinal, d, d', c :: cs, hplaced, h => by
    obtain ⟨d₁, hc, hcs⟩ := Result.bind_eq_ok.1 h
    obtain ⟨hplaced, hplaced'⟩ := Placed.append hplaced
    rw [c.length_processesAt] at hplaced'
    exact (buildStmt_makes c hplaced hc).append
      (buildStmts_makes (o := o.advance 1 o.scope) cs hplaced' hcs)

end

end

/-! ### Instances -/

/-- The names in sight of the statements of an instance, and its own signals: ports, and what the
architecture declares. -/
def Pending.opening (p : Pending) : Result (Scope × Array Signal) := do
  let (_, scope) ← bindGenerics p .empty p.entity.generics p.generics
  let (scope, signals) ← bindPorts p.path scope #[] p.entity.ports
  bindDecls p.path scope signals p.architecture.decls

theorem Pending.opening_of_build {l : Library} {p : Pending} {i : Instance} {children : List Pending}
    (h : p.build l = .ok (i, children)) : ∃ scope signals done, p.opening = .ok (scope, signals) ∧
      buildStmts l p.architecture scope p.path 0 { signals } p.architecture.body = .ok done ∧
      i.signals = done.signals ∧ i.processes = done.processes ∧ children = done.children.toList := by
  rw [build_eq] at h
  obtain ⟨⟨generics, scope⟩, hgenerics, h⟩ := Result.bind_eq_ok.1 h
  obtain ⟨⟨scope', signals⟩, hports, h⟩ := Result.bind_eq_ok.1 h
  obtain ⟨⟨scope'', signals'⟩, hdecls, h⟩ := Result.bind_eq_ok.1 h
  obtain ⟨done, hdone, h⟩ := Result.bind_eq_ok.1 h
  cases h
  have hopening : p.opening = .ok (scope'', signals') :=
    Result.bind_eq_ok.2 ⟨_, hgenerics, Result.bind_eq_ok.2 ⟨_, hports, hdecls⟩⟩
  exact ⟨scope'', signals', done, hopening, hdone, rfl, rfl, rfl⟩

/-- What an instance is built of. -/
structure Unrolling where
  scope : Scope
  own : Array Signal
  /-- The numbers of the signals that loops declare. -/
  number : Site → SignalId
  made : List Made

namespace Unrolling

/-- The place before the first statement. -/
def start (u : Unrolling) (p : Pending) : Place := ⟨[], 0, u.scope, p.path⟩

/-- A copy of a statement, or of a declaration inside of a loop, that belongs to the instance. -/
def Copy (u : Unrolling) (p : Pending) : Place → Part → Prop :=
  Reaches u.number (u.start p) (p.architecture.body.map .stmt)

/-- Behind its own signals, the instance has what the copies ask for, in the order of the copies. -/
structure Of (u : Unrolling) (l : Library) (p : Pending) (i : Instance) (children : List Pending) :
    Prop where
  opening : p.opening = .ok (u.scope, u.own)
  signals : i.signals.toList = u.own.toList ++ signalsOf u.made
  processes : i.processes.toList = processesOf u.made
  children : children = childrenOf u.made
  order : u.made.Pairwise fun m m' => m.site.Before m'.site
  numbered : Numbered u.number u.own.size u.made
  answers : Answers l p.architecture (u.Copy p) u.made

end Unrolling

theorem Site.Before.ne {s t : Site} (h : s.Before t) : s ≠ t := by
  rintro rfl
  exact Std.Asymm.asymm (r := List.Lex (· < ·)) _ _ h h

theorem nodup_signalSites {made : List Made} (h : made.Pairwise fun m m' => m.site.Before m'.site) :
    (signalSites made).Nodup := by
  refine List.Pairwise.filterMap _ (fun m m' hm s hs s' hs' => ?_) h
  obtain ⟨-, -, rfl⟩ := Option.map_eq_some_iff.1 hs
  obtain ⟨-, -, rfl⟩ := Option.map_eq_some_iff.1 hs'
  exact hm.ne

theorem exists_numbered {made : List Made} (base : Nat) (h : (signalSites made).Nodup) :
    ∃ ν, Numbered ν base made := by
  refine ⟨fun s => base + (signalSites made).idxOf s, fun j s hj => ?_⟩
  obtain ⟨hlt, rfl⟩ := List.getElem?_eq_some_iff.1 hj
  exact congrArg (base + ·) (h.idxOf_getElem j hlt)

theorem Pending.build_unrolling {l : Library} {p : Pending} {i : Instance} {children : List Pending}
    (h : p.build l = .ok (i, children)) : ∃ u : Unrolling, u.Of l p i children := by
  obtain ⟨scope, signals, done, hopening, hdone, hsignals, hprocesses, hchildren⟩ := opening_of_build h
  have hplaced : Placed p.architecture [] 0 (Syntax.processesFrom 0 p.architecture.body) := by
    intro n x hx
    rw [Nat.zero_add]
    exact hx
  obtain ⟨made, hadds, hlaid, hmade⟩ :=
    buildStmts_makes (o := ⟨[], 0, scope, p.path⟩) p.architecture.body hplaced hdone
  obtain ⟨ν, hν⟩ := exists_numbered signals.size (nodup_signalSites hlaid.order)
  refine ⟨⟨scope, signals, ν, made⟩, hopening, ?_, ?_, ?_, hlaid.order, hν, (hmade ν hν).2⟩
  · rw [hsignals, hadds.signals]
  · rw [hprocesses, hadds.processes]
    rfl
  · rw [hchildren, hadds.children]
    rfl

end HdlLint.Design
