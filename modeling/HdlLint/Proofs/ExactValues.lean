import HdlLint.Proofs.Arithmetic
import HdlLint.Proofs.Evaluation

/-!
# Values of constant expressions are exact

`Denotes` gives expressions their values in the arithmetic of numbers of any size, with the truth values
of logic and order, and with the innermost constant for each name; it knows of no word and of no fault.
`eval_exact`: if a value that is followed comes out of an expression, then the expression denotes this
value and no other. If words go into the expression, a word comes out of it.

A composite value has no part in this: whatever an operator makes of one is composite again, so a
number or a truth value is made of such values only as are followed.
-/

namespace HdlLint.Syntax

mutual

/-- The numbers that are written in an expression. -/
def Expr.numbers : Expr → List Int
  | .int n _ => [n]
  | .bool .. | .char .. | .str .. | .name _ | .attribute .. => []
  | .call _ args _ => numbersOfExprs args
  | .slice _ l _ r _ => l.numbers ++ r.numbers
  | .unary _ e _ => e.numbers
  | .binary _ l r _ => l.numbers ++ r.numbers
  | .aggregate vs _ => numbersOfExprs vs

def numbersOfExprs : List Expr → List Int
  | [] => []
  | e :: es => e.numbers ++ numbersOfExprs es

end

theorem mem_numbersOfExprs {n : Int} {es : List Expr} :
    n ∈ numbersOfExprs es ↔ ∃ e ∈ es, n ∈ e.numbers := by
  induction es with
  | nil => simp [numbersOfExprs]
  | cons e es ih => simp [numbersOfExprs, ih]

def Expr.InWords (e : Expr) : Prop := ∀ n ∈ e.numbers, Design.Word.fits n = true

namespace BinaryOp

/-- The order that an operator asks for. -/
def order? : BinaryOp → Option (Int → Int → Prop)
  | .lt => some fun x y => x < y
  | .le => some fun x y => x ≤ y
  | .gt => some fun x y => y < x
  | .ge => some fun x y => y ≤ x
  | _ => none

/-- How an operator of logic connects two statements. -/
def connective? : BinaryOp → Option (Prop → Prop → Prop)
  | .and => some fun a b => a ∧ b
  | .or => some fun a b => a ∨ b
  | .nand => some fun a b => ¬ (a ∧ b)
  | .nor => some fun a b => ¬ (a ∨ b)
  | .xor => some fun a b => ¬ (a ↔ b)
  | .xnor => some fun a b => a ↔ b
  | _ => none

end BinaryOp

end HdlLint.Syntax

namespace HdlLint.Design
open Syntax (BinaryOp UnaryOp)
open Word (Computes)

/-! ### Words -/

/-- A number is a word; values of other kinds hold none. -/
def Value.IsWord : Value → Prop
  | .int n => Word.fits n = true
  | _ => True

namespace Scope
variable {scope : Scope}

/-- The constants in sight are words. -/
def InWords (scope : Scope) : Prop := ∀ name v, (name, Binding.constant v) ∈ scope.bindings → v.IsWord

/-- The innermost of the names that are spelled so stands for this. -/
def Innermost (scope : Scope) (name : String) (b : Binding) : Prop :=
  ∃ inner outer, scope.bindings = inner ++ (name, b) :: outer ∧ ∀ x ∈ inner, x.1 ≠ name

theorem find?_eq_some_iff {name : String} {b : Binding} :
    scope.find? name = some b ↔ scope.Innermost name b := by
  rw [find?_eq_lookup, List.lookup_eq_some_iff]
  simp only [Innermost, bne_iff_ne, ne_comm]

theorem InWords.isWord (h : scope.InWords) {name : String} {v : Value}
    (hv : scope.find? name = some (.constant v)) : v.IsWord := by
  obtain ⟨inner, outer, heq, -⟩ := find?_eq_some_iff.1 hv
  exact h name v (by simp [heq])

end Scope

/-! ### Operators -/

namespace Application

def InWords : Application → Prop
  | .unary _ a => a.IsWord
  | .binary _ a b => a.IsWord ∧ b.IsWord

/-- What an operator makes of values that are followed, if numbers are of any size. -/
inductive Gives : Application → Value → Prop
  | neg {n : Int} : Gives (.unary .neg (.int n)) (.int (-n))
  | abs {n : Int} : Gives (.unary .abs (.int n)) (.int |n|)
  | pos {n : Int} : Gives (.unary .pos (.int n)) (.int n)
  | not {b : Bool} : Gives (.unary .not (.bool b)) (.bool !b)
  | arithmetic {op : BinaryOp} {x y z : Int} :
    Computes op x y z → Gives (.binary op (.int x) (.int y)) (.int z)
  | order {op : BinaryOp} {R : Int → Int → Prop} {x y : Int} {c : Bool} :
    op.order? = some R → (c = true ↔ R x y) → Gives (.binary op (.int x) (.int y)) (.bool c)
  | logic {op : BinaryOp} {C : Prop → Prop → Prop} {a b c : Bool} :
    op.connective? = some C → (c = true ↔ C (a = true) (b = true)) →
      Gives (.binary op (.bool a) (.bool b)) (.bool c)
  | eq {a b : Value} {c : Bool} :
    a ≠ .composite → a.sameKind b = true → (c = true ↔ a = b) → Gives (.binary .eq a b) (.bool c)
  | neq {a b : Value} {c : Bool} :
    a ≠ .composite → a.sameKind b = true → (c = true ↔ a ≠ b) → Gives (.binary .neq a b) (.bool c)

theorem Gives.unique {a : Application} {v w : Value} (h : a.Gives v) (h' : a.Gives w) : v = w := by
  have hbool : ∀ {p : Prop} {c d : Bool}, (c = true ↔ p) → (d = true ↔ p) → Value.bool c = .bool d :=
    fun hc hd => congrArg _ (Bool.eq_iff_iff.2 (hc.trans hd.symm))
  cases h with
  | neg | abs | pos | not => cases h'; rfl
  | arithmetic h =>
    cases h' with
    | arithmetic h' => rw [h.unique h']
    | order hop => cases h <;> cases hop
    | eq | neq => cases h
  | order hop hc =>
    cases h' with
    | arithmetic h' => cases h' <;> cases hop
    | order hop' hc' =>
      obtain rfl := Option.some.inj (hop.symm.trans hop')
      exact hbool hc hc'
    | eq | neq => cases hop
  | logic hop hc =>
    cases h' with
    | logic hop' hc' =>
      obtain rfl := Option.some.inj (hop.symm.trans hop')
      exact hbool hc hc'
    | eq | neq => cases hop
  | eq _ _ hc =>
    cases h' with
    | arithmetic h' => cases h'
    | order hop | logic hop => cases hop
    | eq _ _ hc' => exact hbool hc hc'
  | neq _ _ hc =>
    cases h' with
    | arithmetic h' => cases h'
    | order hop | logic hop => cases hop
    | neq _ _ hc' => exact hbool hc hc'

theorem Gives.operand {op : UnaryOp} {a v : Value} (h : Gives (.unary op a) v) : a ≠ .composite := by
  cases h <;> nofun

theorem Gives.operands {op : BinaryOp} {a b v : Value} (h : Gives (.binary op a b) v) :
    a ≠ .composite ∧ b ≠ .composite := by
  cases h with
  | arithmetic | order | logic => exact ⟨nofun, nofun⟩
  | eq ha hkind | neq ha hkind =>
    refine ⟨ha, ?_⟩
    rintro rfl
    cases a <;> cases hkind
    exact ha rfl

/-! ### What is run is exact -/

section
variable {v : Value}

theorem map_int_eq_ok {r : Except EvalFault Int} (h : r.map Value.int = .ok v) :
    ∃ n, r = .ok n ∧ v = .int n := by
  cases r with
  | ok n => exact ⟨n, rfl, (Except.ok.inj h).symm⟩
  | error f => cases h

theorem run_unary {op : UnaryOp} {a : Value} (ha : a.IsWord) (h : Value.unary op a = .ok v) :
    v.IsWord ∧ (v ≠ .composite → Gives (.unary op a) v) := by
  unfold Value.unary at h
  split at h
  · cases h
    exact ⟨trivial, absurd rfl⟩
  · obtain ⟨z, hz, rfl⟩ := map_int_eq_ok h
    obtain ⟨rfl, hfits⟩ := Word.checked_eq_ok.1 hz
    exact ⟨hfits, fun _ => .neg⟩
  · next n =>
    obtain ⟨z, hz, rfl⟩ := map_int_eq_ok h
    obtain ⟨rfl, hfits⟩ := Word.checked_eq_ok.1 hz
    rw [← Int.abs_eq_natAbs] at hfits ⊢
    exact ⟨hfits, fun _ => .abs⟩
  · cases h
    exact ⟨ha, fun _ => .pos⟩
  · cases h
    exact ⟨trivial, fun _ => .not⟩
  · cases h
    exact ⟨trivial, absurd rfl⟩
  · cases h
    exact ⟨trivial, absurd rfl⟩
  · cases h

theorem order_of_comparison {op : BinaryOp} {x y : Int} {c : Bool} (h : Word.comparison op x y = some c) :
    Gives (.binary op (.int x) (.int y)) (.bool c) := by
  cases op <;> cases h <;> exact .order rfl decide_eq_true_iff

theorem connective_of_logic {op : BinaryOp} {a b c : Bool} (h : Value.logic op a b = some c) :
    Gives (.binary op (.bool a) (.bool b)) (.bool c) := by
  cases op <;> cases h <;> exact .logic rfl (by cases a <;> cases b <;> decide)

theorem run_binaryKnown {op : BinaryOp} {a b : Value} (hb : b.IsWord)
    (h : Value.binaryKnown op a b = some (.ok v)) : v.IsWord ∧ Gives (.binary op a b) v := by
  unfold Value.binaryKnown at h
  split at h
  · next x y =>
    unfold Value.binaryInt at h
    split at h
    · next r hr =>
      obtain ⟨z, rfl, rfl⟩ := map_int_eq_ok (Option.some.inj h)
      obtain ⟨hz, hfits⟩ := Word.computes_of_arithmetic hb hr
      exact ⟨hfits, .arithmetic hz⟩
    · obtain ⟨c, hc, hv⟩ := Option.map_eq_some_iff.1 h
      obtain rfl := Except.ok.inj hv
      exact ⟨trivial, order_of_comparison hc⟩
  · obtain ⟨c, hc, hv⟩ := Option.map_eq_some_iff.1 h
    obtain rfl := Except.ok.inj hv
    exact ⟨trivial, connective_of_logic hc⟩
  · cases h

theorem run_binary {op : BinaryOp} {a b : Value} (hb : b.IsWord) (h : Value.binary op a b = .ok v) :
    v.IsWord ∧ (v ≠ .composite → Gives (.binary op a b) v) := by
  unfold Value.binary at h
  split at h
  · cases h
    exact ⟨trivial, absurd rfl⟩
  next hcomposite =>
  have ha : a ≠ .composite := fun ha => hcomposite (by simp [ha])
  split at h
  · next r hr =>
    subst h
    exact (run_binaryKnown hb hr).imp_right fun hv _ => hv
  split_ifs at h with heq hneq
  · cases h
    obtain ⟨hop, hkind⟩ := Bool.and_eq_true_iff.1 heq
    obtain rfl := of_decide_eq_true hop
    exact ⟨trivial, fun _ => .eq ha hkind decide_eq_true_iff⟩
  · cases h
    obtain ⟨hop, hkind⟩ := Bool.and_eq_true_iff.1 hneq
    obtain rfl := of_decide_eq_true hop
    exact ⟨trivial, fun _ => .neq ha hkind decide_eq_true_iff⟩
  · cases h
    exact ⟨trivial, absurd rfl⟩
  · cases h
    exact ⟨trivial, absurd rfl⟩

end

theorem run_eq_ok {a : Application} {v : Value} (ha : a.InWords) (h : a.run = .ok v) :
    v.IsWord ∧ (v ≠ .composite → a.Gives v) := by
  cases a with
  | unary op a => exact run_unary ha h
  | binary op a b => exact run_binary ha.2 h

end Application

/-! ### Expressions -/

/-- What an expression stands for, if numbers are of any size. -/
inductive Denotes (scope : Scope) : Syntax.Expr → Value → Prop
  | int {n : Int} {span : Span} : Denotes scope (.int n span) (.int n)
  | bool {b : Bool} {span : Span} : Denotes scope (.bool b span) (.bool b)
  | char {c : Char} {span : Span} : Denotes scope (.char c span) (.char c)
  | str {text : String} {span : Span} : Denotes scope (.str text span) (.str text)
  | name {i : Syntax.Ident} {v : Value} :
    scope.Innermost i.name (.constant v) → v ≠ .composite → Denotes scope (.name i) v
  | unary {op : UnaryOp} {e : Syntax.Expr} {span : Span} {a v : Value} :
    Denotes scope e a → Application.Gives (.unary op a) v → Denotes scope (.unary op e span) v
  | binary {op : BinaryOp} {l r : Syntax.Expr} {span : Span} {a b v : Value} :
    Denotes scope l a → Denotes scope r b → Application.Gives (.binary op a b) v →
      Denotes scope (.binary op l r span) v

section
variable {scope : Scope}

theorem Denotes.unique {e : Syntax.Expr} {v w : Value} (h : Denotes scope e v) (h' : Denotes scope e w) :
    v = w := by
  induction h generalizing w with
  | int | bool | char | str => cases h'; rfl
  | name hv =>
    cases h' with
    | name hw =>
      have := (Scope.find?_eq_some_iff.2 hv).symm.trans (Scope.find?_eq_some_iff.2 hw)
      exact Binding.constant.inj (Option.some.inj this)
  | unary _ hv ih =>
    cases h' with
    | unary ha hw =>
      obtain rfl := ih ha
      exact hv.unique hw
  | binary _ _ hv ihl ihr =>
    cases h' with
    | binary ha hb hw =>
      obtain rfl := ihl ha
      obtain rfl := ihr hb
      exact hv.unique hw

theorem constant_eq_ok {i : Syntax.Ident} {v : Value} (h : constant scope i = .ok v) :
    scope.find? i.name = some (.constant v) ∨ v = .composite := by
  obtain ⟨o, ho, h⟩ := Result.bind_eq_ok.1 h
  cases o with
  | none => cases h
  | some w =>
    obtain rfl := Except.ok.inj h
    unfold constant? at ho
    split at ho
    · next hfind =>
      cases ho
      exact .inl hfind
    · cases ho
      exact .inr rfl
    · cases ho
    · cases ho

theorem located_eq_ok {α : Type} {span : Span} {r : Except EvalFault α} {a : α}
    (h : located span r = .ok a) : r = .ok a := by
  cases r with
  | ok b => exact congrArg _ (Except.ok.inj h)
  | error f => cases h

theorem eq_composite {α : Type} {x : Result α} {v : Value}
    (h : (x >>= fun _ => .ok .composite) = .ok v) : v = .composite := by
  obtain ⟨_, -, h⟩ := Result.bind_eq_ok.1 h
  exact (Except.ok.inj h).symm

/-- The induction is on the expression; a value that is not followed has nothing to be exact about. -/
theorem eval_denotes (hscope : scope.InWords) : ∀ {e : Syntax.Expr} {v : Value}, e.InWords →
    eval scope e = .ok v → v.IsWord ∧ (v ≠ .composite → Denotes scope e v)
  | .int n _, _, he, h => by
    cases h
    exact ⟨he n List.mem_cons_self, fun _ => .int⟩
  | .bool .., _, _, h => by
    cases h
    exact ⟨trivial, fun _ => .bool⟩
  | .char .., _, _, h => by
    cases h
    exact ⟨trivial, fun _ => .char⟩
  | .str .., _, _, h => by
    cases h
    exact ⟨trivial, fun _ => .str⟩
  | .name i, v, _, h => by
    rcases constant_eq_ok h with hfind | rfl
    · exact ⟨hscope.isWord hfind, .name (Scope.find?_eq_some_iff.1 hfind)⟩
    · exact ⟨trivial, absurd rfl⟩
  | .call .., _, _, h => by
    obtain ⟨_, -, h⟩ := Result.bind_eq_ok.1 h
    obtain rfl := eq_composite h
    exact ⟨trivial, absurd rfl⟩
  | .slice .., _, _, h => by
    obtain rfl := eq_composite h
    exact ⟨trivial, absurd rfl⟩
  | .attribute .., _, _, h => by
    obtain rfl := eq_composite h
    exact ⟨trivial, absurd rfl⟩
  | .unary op e _, v, he, h => by
    obtain ⟨a, ha, h⟩ := Result.bind_eq_ok.1 h
    have hrun : (Application.unary op a).run = .ok v := located_eq_ok h
    obtain ⟨hword, hden⟩ := eval_denotes hscope (e := e) he ha
    refine (Application.run_eq_ok (a := .unary op a) hword hrun).imp_right fun hgives hv => ?_
    exact .unary (hden (hgives hv).operand) (hgives hv)
  | .binary op l r _, v, he, h => by
    obtain ⟨a, ha, h⟩ := Result.bind_eq_ok.1 h
    obtain ⟨b, hb, h⟩ := Result.bind_eq_ok.1 h
    have hrun : (Application.binary op a b).run = .ok v := located_eq_ok h
    have ⟨hl, hr⟩ := List.forall_mem_append.1 he
    obtain ⟨hworda, hdena⟩ := eval_denotes hscope hl ha
    obtain ⟨hwordb, hdenb⟩ := eval_denotes hscope hr hb
    refine (Application.run_eq_ok (a := .binary op a b) ⟨hworda, hwordb⟩ hrun).imp_right
      fun hgives hv => ?_
    have hab := (hgives hv).operands
    exact .binary (hdena hab.1) (hdenb hab.2) (hgives hv)
  | .aggregate .., _, _, h => by
    obtain rfl := eq_composite h
    exact ⟨trivial, absurd rfl⟩

theorem ComesTo.inWords {e d : Syntax.Expr} (h : ComesTo scope e d) (he : e.InWords) : d.InWords := by
  induction h with
  | refl => exact he
  | operand _ ih => exact ih he
  | left _ ih => exact ih (List.forall_mem_append.1 he).1
  | right _ _ ih => exact ih (List.forall_mem_append.1 he).2
  | argument _ _ _ ih | element _ _ ih =>
    exact ih fun n hn => he n (Syntax.mem_numbersOfExprs.2 ⟨_, by simp, hn⟩)

/-- A value that is followed is the only one that its expression denotes, and a word, whether it comes out
in the end or on the way. Nothing is cut off: the one sum that is not checked is a word as well. -/
theorem eval_exact {e : Syntax.Expr} (hscope : scope.InWords) (he : e.InWords) :
    (∀ d v, ComesTo scope e d → eval scope d = .ok v →
        v.IsWord ∧ (v ≠ .composite → ∀ w, Denotes scope d w ↔ w = v)) ∧
      ∀ x y, Word.fits x = true → Word.fits y = true → y ≠ 0 → ¬ (x.tmod y < 0 ↔ y < 0) →
        Word.fits (x.tmod y + y) = true := by
  refine ⟨fun d v hd h => ?_, fun x y _ hy h0 hsign => Word.fits_unchecked h0 hy hsign⟩
  refine (eval_denotes hscope (hd.inWords he) h).imp_right fun hden hv w => ?_
  constructor
  · intro hw
    exact hw.unique (hden hv)
  · rintro rfl
    exact hden hv

end

/-- `(-9223372036854775807 - 1) mod n`, that is, the least number. -/
def leastModulo : Syntax.Expr :=
  .binary .mod
    (.binary .sub (.unary .neg (.int 9223372036854775807 ⟨0, 2, 21⟩) ⟨0, 1, 21⟩) (.int 1 ⟨0, 24, 25⟩)
      ⟨0, 1, 25⟩)
    (.name ⟨"n", ⟨0, 31, 32⟩⟩) ⟨0, 1, 32⟩

theorem eval_exact_leastModulo :
    eval ⟨[("n", .constant (.int 10))], []⟩ leastModulo = .ok (.int 2) ∧
      ∀ w, Denotes ⟨[("n", .constant (.int 10))], []⟩ leastModulo w ↔ w = .int 2 := by
  have hscope : Scope.InWords ⟨[("n", .constant (.int 10))], []⟩ := by
    intro name v hv
    cases List.mem_singleton.1 hv
    rfl
  have he : leastModulo.InWords := by
    unfold Syntax.Expr.InWords
    decide
  have h : eval ⟨[("n", .constant (.int 10))], []⟩ leastModulo = .ok (.int 2) := by decide
  exact ⟨h, ((eval_exact hscope he).1 _ _ .refl h).2 nofun⟩

end HdlLint.Design
