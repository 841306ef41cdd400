import Mathlib.Data.List.Forall2
import HdlLint.Design.Resolve
import HdlLint.Proofs.Resolution

/-!
# Resolved text uses what its names stand for

The names of a text are listed with the part each of them plays (`Syntax.names`), in the order of the
text. `Scope.resolveBlock_exact`: a body cannot be resolved if and only if one of its names does not
stand for what its part asks for (`Scope.Allows`), and a body that can be resolved keeps its shape, with
a signal in place of each target, and reads in each expression the signals that the names of the
expression stand for, one after the other (`Scope.ResolvesStmt`).

A call that becomes an element of a signal, or a slice that becomes a function of its bounds, changes
the expression but not the list of what it reads: on both sides a name comes before what is in the
parentheses behind it.
-/

namespace HdlLint.Syntax

/-- The part that a name plays. -/
inductive NameRole where
  /-- It is assigned. -/
  | target
  | value
  /-- It stands before arguments or indices. -/
  | callee
  /-- It stands before the range of a slice. -/
  | sliced
  | attributed (attr : String)

structure NameUse where
  ident : Ident
  role : NameRole

mutual

/-- The names of an expression, from left to right. -/
def Expr.names : Expr → List NameUse
  | .int .. | .bool .. | .char .. | .str .. => []
  | .name i => [⟨i, .value⟩]
  | .call f args _ => ⟨f, .callee⟩ :: namesOfExprs args
  | .slice b l _ r _ => ⟨b, .sliced⟩ :: (l.names ++ r.names)
  | .attribute b a _ => [⟨b, .attributed a⟩]
  | .unary _ e _ => e.names
  | .binary _ l r _ => l.names ++ r.names
  | .aggregate vs _ => namesOfExprs vs

def namesOfExprs : List Expr → List NameUse
  | [] => []
  | e :: es => e.names ++ namesOfExprs es

end

def Selector.names : Selector → List NameUse
  | .index e => e.names
  | .slice r => r.left.names ++ r.right.names

def Target.names (t : Target) : List NameUse :=
  ⟨t.ident, .target⟩ :: t.selector.elim [] Selector.names

mutual

def Stmt.names : Stmt → List NameUse
  | .assign target value _ => target.names ++ value.names
  | .ifs branches otherwise _ => namesOfBranches branches ++ namesOfOption otherwise
  | .case subject arms others _ => subject.names ++ (namesOfArms arms ++ namesOfOption others)
  | .null _ => []

/-- The names of a body, at any depth. -/
def names : List Stmt → List NameUse
  | [] => []
  | s :: ss => s.names ++ names ss

def namesOfOption : Option (List Stmt) → List NameUse
  | none => []
  | some b => names b

def namesOfBranches : List Branch → List NameUse
  | [] => []
  | ⟨condition, body⟩ :: bs => condition.names ++ (names body ++ namesOfBranches bs)

def namesOfArms : List Arm → List NameUse
  | [] => []
  | ⟨choices, body, _⟩ :: as => namesOfExprs choices ++ (names body ++ namesOfArms as)

end

end HdlLint.Syntax

namespace HdlLint.Design

/-! ### Steps that succeed -/

def Result.Succeeds {α : Type} (r : Result α) : Prop := ∃ a, r = .ok a

namespace Result
variable {α β : Type}

theorem succeeds_ok (a : α) : Succeeds (.ok a : Result α) := ⟨a, rfl⟩

theorem not_succeeds_error {e : DesignError} : ¬ Succeeds (.error e : Result α) := by
  rintro ⟨_, h⟩
  cases h

theorem exists_error_iff {r : Result α} : (∃ e, r = .error e) ↔ ¬ r.Succeeds := by
  cases r with
  | ok a =>
    constructor
    · rintro ⟨_, h⟩
      cases h
    · intro h
      exact absurd (succeeds_ok a) h
  | error e => exact iff_of_true ⟨e, rfl⟩ not_succeeds_error

/-- Whether the rest succeeds does not hang on what the first step gives. -/
theorem succeeds_bind {x : Result α} {f : α → Result β} {P Q : Prop} (hx : x.Succeeds ↔ P)
    (hf : ∀ a, x = .ok a → ((f a).Succeeds ↔ Q)) : (x >>= f).Succeeds ↔ P ∧ Q := by
  rw [← hx]
  cases x with
  | error e => exact ⟨fun h => absurd h not_succeeds_error, fun h => absurd h.1 not_succeeds_error⟩
  | ok a => exact (hf a rfl).trans ⟨fun h => ⟨succeeds_ok a, h⟩, And.right⟩

theorem succeeds_map {x : Result α} {f : α → β} {P : Prop} (hx : x.Succeeds ↔ P) :
    (x >>= fun a => .ok (f a)).Succeeds ↔ P := by
  have h := succeeds_bind hx fun a _ => iff_true_intro (succeeds_ok (f a))
  rwa [and_true] at h

end Result

open Result

namespace Scope
variable {scope : Scope}

/-! ### Names that stand for what they should -/

/-- The name stands for a signal. -/
def IsSignal (scope : Scope) (i : Syntax.Ident) : Prop := ∃ id, scope.find? i.name = some (.signal id)

/-- A target must be a signal. A function needs no declaration; any other name must stand for
something. -/
def Allows (scope : Scope) (u : Syntax.NameUse) : Prop :=
  match u.role with
  | .target => scope.IsSignal u.ident
  | .callee => True
  | .value | .sliced | .attributed _ => scope.find? u.ident.name ≠ none

def AllowsAll (scope : Scope) (us : List Syntax.NameUse) : Prop := ∀ u ∈ us, scope.Allows u

theorem allowsAll_nil : scope.AllowsAll [] ↔ True := by simp [AllowsAll]

theorem allowsAll_cons {u : Syntax.NameUse} {us : List Syntax.NameUse} :
    scope.AllowsAll (u :: us) ↔ scope.Allows u ∧ scope.AllowsAll us :=
  List.forall_mem_cons

theorem allowsAll_append {us vs : List Syntax.NameUse} :
    scope.AllowsAll (us ++ vs) ↔ scope.AllowsAll us ∧ scope.AllowsAll vs :=
  List.forall_mem_append

theorem signal_succeeds {i : Syntax.Ident} : (scope.signal i).Succeeds ↔ scope.IsSignal i := by
  unfold signal IsSignal
  split
  · next id h => exact ⟨fun _ => ⟨id, h⟩, fun _ => succeeds_ok id⟩
  · next hne h =>
    refine ⟨fun h => absurd h not_succeeds_error, ?_⟩
    rintro ⟨id, hid⟩
    exact absurd (Option.some.inj (h.symm.trans hid)) (hne id)
  · next h =>
    refine ⟨fun h => absurd h not_succeeds_error, ?_⟩
    rintro ⟨id, hid⟩
    cases h.symm.trans hid

theorem resolveName_succeeds {i : Syntax.Ident} :
    (scope.resolveName i).Succeeds ↔ scope.find? i.name ≠ none := by
  unfold resolveName
  split <;> simp_all [succeeds_ok, not_succeeds_error]

theorem resolveSlice_succeeds {b : Syntax.Ident} (left right : Expr) (span : Span) :
    (scope.resolveSlice b left right span).Succeeds ↔ scope.find? b.name ≠ none := by
  unfold resolveSlice
  split <;> simp_all [succeeds_ok, not_succeeds_error]

theorem resolveAttribute_succeeds {b : Syntax.Ident} (attr : String) (span : Span) :
    (scope.resolveAttribute b attr span).Succeeds ↔ scope.find? b.name ≠ none := by
  unfold resolveAttribute
  split
  · split <;> simp_all [succeeds_ok]
  · simp_all [succeeds_ok]
  · simp_all [not_succeeds_error]

mutual

theorem resolveExpr_succeeds : ∀ e : Syntax.Expr,
    (scope.resolveExpr e).Succeeds ↔ scope.AllowsAll e.names
  | .int .. | .bool .. | .char .. | .str .. => iff_of_true (succeeds_ok _) nofun
  | .name i => by
    rw [Syntax.Expr.names, allowsAll_cons, allowsAll_nil, and_true]
    exact resolveName_succeeds
  | .call f args s => by
    have hcallee : scope.Allows ⟨f, .callee⟩ := trivial
    rw [Syntax.Expr.names, allowsAll_cons, and_iff_right hcallee]
    exact succeeds_map (resolveExprs_succeeds args)
  | .slice b l d r s => by
    rw [Syntax.Expr.names, allowsAll_cons, allowsAll_append, and_comm, and_assoc]
    exact succeeds_bind (resolveExpr_succeeds l) fun left _ =>
      succeeds_bind (resolveExpr_succeeds r) fun right _ => resolveSlice_succeeds left right s
  | .attribute b a s => by
    rw [Syntax.Expr.names, allowsAll_cons, allowsAll_nil, and_true]
    exact resolveAttribute_succeeds a s
  | .unary op e s => succeeds_map (resolveExpr_succeeds e)
  | .binary op l r s => by
    rw [Syntax.Expr.names, allowsAll_append]
    exact succeeds_bind (resolveExpr_succeeds l) fun _ _ => succeeds_map (resolveExpr_succeeds r)
  | .aggregate vs s => succeeds_map (resolveExprs_succeeds vs)

theorem resolveExprs_succeeds : ∀ es : List Syntax.Expr,
    (scope.resolveExprs es).Succeeds ↔ scope.AllowsAll (Syntax.namesOfExprs es)
  | [] => iff_of_true (succeeds_ok _) nofun
  | e :: es => by
    rw [Syntax.namesOfExprs, allowsAll_append]
    exact succeeds_bind (resolveExpr_succeeds e) fun _ _ => succeeds_map (resolveExprs_succeeds es)

end

theorem resolveSelector_succeeds : ∀ s : Syntax.Selector,
    (scope.resolveSelector s).Succeeds ↔ scope.AllowsAll s.names
  | .index e => succeeds_map (resolveExpr_succeeds e)
  | .slice r => by
    rw [Syntax.Selector.names, allowsAll_append]
    exact succeeds_bind (resolveExpr_succeeds r.left) fun _ _ => succeeds_map (resolveExpr_succeeds r.right)

theorem resolveSelector?_succeeds : ∀ s : Option Syntax.Selector,
    (scope.resolveSelector? s).Succeeds ↔ scope.AllowsAll (s.elim [] Syntax.Selector.names)
  | none => iff_of_true (succeeds_ok _) nofun
  | some s => succeeds_map (resolveSelector_succeeds s)

mutual

theorem resolveStmt_succeeds : ∀ s : Syntax.Stmt,
    (scope.resolveStmt s).Succeeds ↔ scope.AllowsAll s.names
  | .assign target value span => by
    rw [Syntax.Stmt.names, Syntax.Target.names, List.cons_append, allowsAll_cons, allowsAll_append]
    exact succeeds_bind signal_succeeds fun _ _ =>
      succeeds_bind (resolveSelector?_succeeds target.selector) fun _ _ =>
        succeeds_map (resolveExpr_succeeds value)
  | .ifs branches otherwise span => by
    rw [Syntax.Stmt.names, allowsAll_append]
    exact succeeds_bind (resolveBranches_succeeds branches) fun _ _ =>
      succeeds_map (resolveBlock?_succeeds otherwise)
  | .case subject arms others span => by
    -- the subject is resolved last
    rw [Syntax.Stmt.names, allowsAll_append, allowsAll_append, and_comm, and_assoc]
    exact succeeds_bind (resolveArms_succeeds arms) fun _ _ =>
      succeeds_bind (resolveBlock?_succeeds others) fun _ _ => succeeds_map (resolveExpr_succeeds subject)
  | .null span => iff_of_true (succeeds_ok _) nofun

theorem resolveBlock_succeeds : ∀ b : List Syntax.Stmt,
    (scope.resolveBlock b).Succeeds ↔ scope.AllowsAll (Syntax.names b)
  | [] => iff_of_true (succeeds_ok _) nofun
  | s :: ss => by
    rw [Syntax.names, allowsAll_append]
    exact succeeds_bind (resolveStmt_succeeds s) fun _ _ => succeeds_map (resolveBlock_succeeds ss)

theorem resolveBlock?_succeeds : ∀ b : Option (List Syntax.Stmt),
    (scope.resolveBlock? b).Succeeds ↔ scope.AllowsAll (Syntax.namesOfOption b)
  | none => iff_of_true (succeeds_ok _) nofun
  | some b => succeeds_map (resolveBlock_succeeds b)

theorem resolveBranches_succeeds : ∀ bs : List Syntax.Branch,
    (scope.resolveBranches bs).Succeeds ↔ scope.AllowsAll (Syntax.namesOfBranches bs)
  | [] => iff_of_true (succeeds_ok _) nofun
  | ⟨condition, body⟩ :: bs => by
    rw [Syntax.namesOfBranches, allowsAll_append, allowsAll_append]
    exact succeeds_bind (resolveExpr_succeeds condition) fun _ _ =>
      succeeds_bind (resolveBlock_succeeds body) fun _ _ => succeeds_map (resolveBranches_succeeds bs)

theorem resolveArms_succeeds : ∀ as : List Syntax.Arm,
    (scope.resolveArms as).Succeeds ↔ scope.AllowsAll (Syntax.namesOfArms as)
  | [] => iff_of_true (succeeds_ok _) nofun
  | ⟨choices, body, span⟩ :: as => by
    rw [Syntax.namesOfArms, allowsAll_append, allowsAll_append]
    exact succeeds_bind (resolveExprs_succeeds choices) fun _ _ =>
      succeeds_bind (resolveBlock_succeeds body) fun _ _ => succeeds_map (resolveArms_succeeds as)

end

/-! ### What is read -/

def signal? (scope : Scope) (name : String) : Option SignalId :=
  match scope.find? name with
  | some (.signal id) => some id
  | _ => none

theorem signal?_of_find? {name : String} {id : SignalId} (h : scope.find? name = some (.signal id)) :
    scope.signal? name = some id := by
  rw [signal?, h]

theorem signal?_eq_none {name : String} (h : ∀ id, scope.find? name ≠ some (.signal id)) :
    scope.signal? name = none := by
  unfold signal?
  split
  · next id hid => exact absurd hid (h id)
  · rfl

/-- Whether a name in this part has the signal read that it may stand for. Only some attributes depend
on the value of a signal. -/
def isRead : Syntax.NameRole → Bool
  | .target => false
  | .value | .callee | .sliced => true
  | .attributed attr => readsValue attr

/-- The signal that is read through a name, and where. -/
def read? (scope : Scope) (u : Syntax.NameUse) : Option (SignalId × Span) :=
  if isRead u.role then (scope.signal? u.ident.name).map (·, u.ident.span) else none

/-- The signals that are read through names, in their order. -/
def reads (scope : Scope) (us : List Syntax.NameUse) : List (SignalId × Span) :=
  us.filterMap scope.read?

theorem reads_append (us vs : List Syntax.NameUse) :
    scope.reads (us ++ vs) = scope.reads us ++ scope.reads vs :=
  List.filterMap_append

theorem reads_cons_signal {u : Syntax.NameUse} {us : List Syntax.NameUse} {id : SignalId}
    (hread : isRead u.role = true) (hfind : scope.find? u.ident.name = some (.signal id)) :
    scope.reads (u :: us) = (id, u.ident.span) :: scope.reads us := by
  rw [reads, List.filterMap_cons, read?, if_pos hread, signal?_of_find? hfind]
  rfl

theorem reads_cons_other {u : Syntax.NameUse} {us : List Syntax.NameUse}
    (hfind : ∀ id, scope.find? u.ident.name ≠ some (.signal id)) :
    scope.reads (u :: us) = scope.reads us := by
  rw [reads, List.filterMap_cons, read?, signal?_eq_none hfind]
  split <;> simp_all [reads]

theorem reads_cons_unread {u : Syntax.NameUse} {us : List Syntax.NameUse} (hread : isRead u.role = false) :
    scope.reads (u :: us) = scope.reads us := by
  rw [reads, List.filterMap_cons, read?, hread]
  rfl

/-- The index of an element reads what its positions read, whether it is one or several. -/
theorem signals_elementIndex (rs : List Expr) (span : Span) :
    (elementIndex rs span).signals = Expr.signalsOfAll rs := by
  unfold elementIndex
  split
  · simp [Expr.signalsOfAll]
  · rw [Expr.signals]

theorem signals_resolveCall (f : Syntax.Ident) (rs : List Expr) (span : Span) :
    (scope.resolveCall f rs span).signals =
      scope.reads [⟨f, .callee⟩] ++ Expr.signalsOfAll rs := by
  unfold resolveCall
  split
  · next id hid =>
    rw [reads_cons_signal rfl hid, Expr.signals, signals_elementIndex]
    rfl
  · next hne =>
    rw [reads_cons_other hne, Expr.signals]
    rfl

theorem signals_resolveName {i : Syntax.Ident} {r : Expr} (h : scope.resolveName i = .ok r) :
    r.signals = scope.reads [⟨i, .value⟩] := by
  unfold resolveName at h
  split at h <;> cases h
  · next id hid => rw [reads_cons_signal rfl hid]; rfl
  · next v hv => rw [reads_cons_other (by simp [hv])]; rfl
  · next n hn => rw [reads_cons_other (by simp [hn])]; rfl

theorem signals_resolveSlice {b : Syntax.Ident} {left right r : Expr} {span : Span}
    (h : scope.resolveSlice b left right span = .ok r) :
    r.signals = scope.reads [⟨b, .sliced⟩] ++ (left.signals ++ right.signals) := by
  unfold resolveSlice at h
  split at h <;> cases h
  · next id hid => rw [reads_cons_signal rfl hid]; rfl
  · next v hne hv =>
    rw [reads_cons_other fun id hid => hne id (Option.some.inj (hv.symm.trans hid))]
    simp [Expr.signals, Expr.signalsOfAll, reads]

theorem signals_resolveAttribute {b : Syntax.Ident} {attr : String} {span : Span} {r : Expr}
    (h : scope.resolveAttribute b attr span = .ok r) :
    r.signals = scope.reads [⟨b, .attributed attr⟩] := by
  unfold resolveAttribute at h
  split at h
  · next id hid =>
    split at h <;> cases h
    · next hread =>
      have hrole : isRead (.attributed attr) = true := hread
      rw [reads_cons_signal hrole hid]
      rfl
    · next hread =>
      have hrole : isRead (.attributed attr) = false := Bool.eq_false_iff.2 hread
      rw [reads_cons_unread hrole]
      rfl
  · next v hne hv =>
    cases h
    rw [reads_cons_other fun id hid => hne id (Option.some.inj (hv.symm.trans hid))]
    rfl
  · cases h

mutual

theorem signals_resolveExpr : ∀ {e : Syntax.Expr} {r : Expr}, scope.resolveExpr e = .ok r →
    r.signals = scope.reads e.names
  | .int .., _, h | .bool .., _, h | .char .., _, h | .str .., _, h => by cases h; rfl
  | .name i, _, h => signals_resolveName h
  | .call f args s, _, h => by
    obtain ⟨rs, hrs, h⟩ := Result.bind_eq_ok.1 h
    obtain rfl := Except.ok.inj h
    rw [signals_resolveCall, signals_resolveExprs hrs, ← reads_append]
    rfl
  | .slice b l d r s, _, h => by
    obtain ⟨left, hleft, h⟩ := Result.bind_eq_ok.1 h
    obtain ⟨right, hright, h⟩ := Result.bind_eq_ok.1 h
    rw [signals_resolveSlice h, signals_resolveExpr hleft, signals_resolveExpr hright, ← reads_append,
      ← reads_append]
    rfl
  | .attribute b a s, _, h => signals_resolveAttribute h
  | .unary op e s, _, h => by
    obtain ⟨x, hx, h⟩ := Result.bind_eq_ok.1 h
    obtain rfl := Except.ok.inj h
    rw [Expr.signals, Syntax.Expr.names]
    exact signals_resolveExpr hx
  | .binary op l r s, _, h => by
    obtain ⟨left, hleft, h⟩ := Result.bind_eq_ok.1 h
    obtain ⟨right, hright, h⟩ := Result.bind_eq_ok.1 h
    obtain rfl := Except.ok.inj h
    rw [Expr.signals, signals_resolveExpr hleft, signals_resolveExpr hright, ← reads_append]
    rfl
  | .aggregate vs s, _, h => by
    obtain ⟨rs, hrs, h⟩ := Result.bind_eq_ok.1 h
    obtain rfl := Except.ok.inj h
    rw [Expr.signals]
    exact signals_resolveExprs hrs

theorem signals_resolveExprs : ∀ {es : List Syntax.Expr} {rs : List Expr},
    scope.resolveExprs es = .ok rs → Expr.signalsOfAll rs = scope.reads (Syntax.namesOfExprs es)
  | [], _, h => by cases h; rfl
  | e :: es, _, h => by
    obtain ⟨r, hr, h⟩ := Result.bind_eq_ok.1 h
    obtain ⟨rs, hrs, h⟩ := Result.bind_eq_ok.1 h
    obtain rfl := Except.ok.inj h
    rw [Expr.signalsOfAll, signals_resolveExpr hr, signals_resolveExprs hrs, ← reads_append]
    rfl

end

/-! ### What stands for a body -/

section
variable (scope)

/-- The resolved expression reads the signals that the names of the written one stand for, in their
order. -/
def ResolvesExpr (e : Syntax.Expr) (r : Expr) : Prop := r.signals = scope.reads e.names

inductive ResolvesSelector : Syntax.Selector → Selector → Prop
  | index {e : Syntax.Expr} {r : Expr} : scope.ResolvesExpr e r → ResolvesSelector (.index e) (.index r)
  | slice {range : Syntax.Range} {left right : Expr} : scope.ResolvesExpr range.left left →
    scope.ResolvesExpr range.right right → ResolvesSelector (.slice range) (.slice left right)

mutual

/-- The resolved statement has the shape of the written one. Its target is the signal that the written
target stands for. -/
inductive ResolvesStmt : Syntax.Stmt → Stmt → Prop
  | assign {target : Syntax.Target} {value : Syntax.Expr} {span : Span} {id : SignalId}
      {selector : Option Selector} {r : Expr} :
    scope.find? target.ident.name = some (.signal id) →
    Option.Rel (ResolvesSelector scope) target.selector selector → scope.ResolvesExpr value r →
    ResolvesStmt (.assign target value span) (.assign ⟨id, target.ident.span, selector, r, span⟩)
  | ifs {branches : List Syntax.Branch} {bs : List Branch} {otherwise : Option (List Syntax.Stmt)}
      {last : Option (List Stmt)} {span : Span} :
    List.Forall₂ ResolvesBranch branches bs → Option.Rel (List.Forall₂ ResolvesStmt) otherwise last →
    ResolvesStmt (.ifs branches otherwise span) (.ifs bs last span)
  | case {subject : Syntax.Expr} {r : Expr} {arms : List Syntax.Arm} {as : List Arm}
      {others : Option (List Syntax.Stmt)} {last : Option (List Stmt)} {span : Span} :
    scope.ResolvesExpr subject r → List.Forall₂ ResolvesArm arms as →
    Option.Rel (List.Forall₂ ResolvesStmt) others last →
    ResolvesStmt (.case subject arms others span) (.case r subject.printOperand as last span)
  | null {span : Span} : ResolvesStmt (.null span) (.null span)

inductive ResolvesBranch : Syntax.Branch → Branch → Prop
  | mk {condition : Syntax.Expr} {r : Expr} {body : List Syntax.Stmt} {rs : List Stmt} :
    scope.ResolvesExpr condition r → List.Forall₂ ResolvesStmt body rs →
    ResolvesBranch ⟨condition, body⟩ ⟨r, condition.printOperand, rs⟩

inductive ResolvesArm : Syntax.Arm → Arm → Prop
  | mk {choices : List Syntax.Expr} {cs : List Expr} {body : List Syntax.Stmt} {rs : List Stmt}
      {span : Span} :
    List.Forall₂ scope.ResolvesExpr choices cs → List.Forall₂ ResolvesStmt body rs →
    ResolvesArm ⟨choices, body, span⟩ ⟨cs, "|".intercalate (choices.map Syntax.Expr.printOperand), rs⟩

end

end

theorem find?_of_signal {i : Syntax.Ident} {id : SignalId} (h : scope.signal i = .ok id) :
    scope.find? i.name = some (.signal id) := by
  unfold signal at h
  split at h <;> cases h
  assumption

theorem resolvesExprs {es : List Syntax.Expr} {rs : List Expr} (h : scope.resolveExprs es = .ok rs) :
    List.Forall₂ scope.ResolvesExpr es rs := by
  induction es generalizing rs with
  | nil => cases h; exact .nil
  | cons e es ih =>
    obtain ⟨r, hr, h⟩ := Result.bind_eq_ok.1 h
    obtain ⟨rs', hrs, h⟩ := Result.bind_eq_ok.1 h
    obtain rfl := Except.ok.inj h
    exact .cons (signals_resolveExpr hr) (ih hrs)

theorem resolvesSelector? {s : Option Syntax.Selector} {r : Option Selector}
    (h : scope.resolveSelector? s = .ok r) : Option.Rel scope.ResolvesSelector s r := by
  rcases s with - | (e | range)
  · cases h
    exact .none
  · obtain ⟨r, hr, h⟩ := Result.bind_eq_ok.1 h
    obtain rfl := Except.ok.inj h
    obtain ⟨x, hx, hr⟩ := Result.bind_eq_ok.1 hr
    obtain rfl := Except.ok.inj hr
    exact .some (.index (signals_resolveExpr hx))
  · obtain ⟨r, hr, h⟩ := Result.bind_eq_ok.1 h
    obtain rfl := Except.ok.inj h
    obtain ⟨left, hleft, hr⟩ := Result.bind_eq_ok.1 hr
    obtain ⟨right, hright, hr⟩ := Result.bind_eq_ok.1 hr
    obtain rfl := Except.ok.inj hr
    exact .some (.slice (signals_resolveExpr hleft) (signals_resolveExpr hright))

mutual

theorem resolvesStmt : ∀ {s : Syntax.Stmt} {r : Stmt}, scope.resolveStmt s = .ok r → scope.ResolvesStmt s r
  | .assign target value span, _, h => by
    obtain ⟨id, hid, h⟩ := Result.bind_eq_ok.1 h
    obtain ⟨selector, hselector, h⟩ := Result.bind_eq_ok.1 h
    obtain ⟨x, hx, h⟩ := Result.bind_eq_ok.1 h
    obtain rfl := Except.ok.inj h
    exact .assign (find?_of_signal hid) (resolvesSelector? hselector) (signals_resolveExpr hx)
  | .ifs branches otherwise span, _, h => by
    obtain ⟨bs, hbs, h⟩ := Result.bind_eq_ok.1 h
    obtain ⟨last, hlast, h⟩ := Result.bind_eq_ok.1 h
    obtain rfl := Except.ok.inj h
    exact .ifs (resolvesBranches hbs) (resolvesBlock? hlast)
  | .case subject arms others span, _, h => by
    obtain ⟨as, has, h⟩ := Result.bind_eq_ok.1 h
    obtain ⟨last, hlast, h⟩ := Result.bind_eq_ok.1 h
    obtain ⟨x, hx, h⟩ := Result.bind_eq_ok.1 h
    obtain rfl := Except.ok.inj h
    exact .case (signals_resolveExpr hx) (resolvesArms has) (resolvesBlock? hlast)
  | .null span, _, h => by
    cases h
    exact .null

theorem resolvesBlock : ∀ {b : List Syntax.Stmt} {rs : List Stmt}, scope.resolveBlock b = .ok rs →
    List.Forall₂ scope.ResolvesStmt b rs
  | [], _, h => by
    cases h
    exact .nil
  | s :: ss, _, h => by
    obtain ⟨r, hr, h⟩ := Result.bind_eq_ok.1 h
    obtain ⟨rs, hrs, h⟩ := Result.bind_eq_ok.1 h
    obtain rfl := Except.ok.inj h
    exact .cons (resolvesStmt hr) (resolvesBlock hrs)

theorem resolvesBlock? : ∀ {b : Option (List Syntax.Stmt)} {r : Option (List Stmt)},
    scope.resolveBlock? b = .ok r → Option.Rel (List.Forall₂ scope.ResolvesStmt) b r
  | none, _, h => by
    cases h
    exact .none
  | some b, _, h => by
    obtain ⟨rs, hrs, h⟩ := Result.bind_eq_ok.1 h
    obtain rfl := Except.ok.inj h
    exact .some (resolvesBlock hrs)

theorem resolvesBranches : ∀ {bs : List Syntax.Branch} {rs : List Branch},
    scope.resolveBranches bs = .ok rs → List.Forall₂ scope.ResolvesBranch bs rs
  | [], _, h => by
    cases h
    exact .nil
  | ⟨condition, body⟩ :: bs, _, h => by
    obtain ⟨x, hx, h⟩ := Result.bind_eq_ok.1 h
    obtain ⟨rs, hrs, h⟩ := Result.bind_eq_ok.1 h
    obtain ⟨more, hmore, h⟩ := Result.bind_eq_ok.1 h
    obtain rfl := Except.ok.inj h
    exact .cons (.mk (signals_resolveExpr hx) (resolvesBlock hrs)) (resolvesBranches hmore)

theorem resolvesArms : ∀ {as : List Syntax.Arm} {rs : List Arm},
    scope.resolveArms as = .ok rs → List.Forall₂ scope.ResolvesArm as rs
  | [], _, h => by
    cases h
    exact .nil
  | ⟨choices, body, span⟩ :: as, _, h => by
    obtain ⟨xs, hxs, h⟩ := Result.bind_eq_ok.1 h
    obtain ⟨rs, hrs, h⟩ := Result.bind_eq_ok.1 h
    obtain ⟨more, hmore, h⟩ := Result.bind_eq_ok.1 h
    obtain rfl := Except.ok.inj h
    exact .cons (.mk (resolvesExprs hxs) (resolvesBlock hrs)) (resolvesArms hmore)

end

/-- A body fails to be resolved exactly if a name in it does not stand for what it should; and what is
resolved assigns and reads the signals that the names stand for, in the order of the text. -/
theorem resolveBlock_exact (scope : Scope) (b : List Syntax.Stmt) :
    ((∃ e, scope.resolveBlock b = .error e) ↔ ∃ u ∈ Syntax.names b, ¬ scope.Allows u) ∧
      ∀ rs, scope.resolveBlock b = .ok rs → List.Forall₂ scope.ResolvesStmt b rs := by
  refine ⟨?_, fun rs hrs => resolvesBlock hrs⟩
  rw [exists_error_iff, resolveBlock_succeeds, AllowsAll]
  push Not
  rfl

end Scope

end HdlLint.Design
