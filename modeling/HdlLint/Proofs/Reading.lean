import HdlLint.Syntax.Parse.Unit
import HdlLint.Proofs.Spans

/-!
# Readers only walk on

A rule passes tokens and reports faults, and does nothing else to the state of reading. The spans it
puts into what it gives and into its faults are those of tokens, or cover such spans. So whatever is
kept by passing a token and by reporting a fault at a span with `P` is kept by every rule, however it
ends, and what the rule gives has `P` at all its spans (`Reads`). There is one lemma per rule, and it
follows the text of the rule; this module has those of expressions.
-/

namespace HdlLint.Syntax.Parse
variable {I : ParseState → Prop} {α β : Type}

/-! ### Sequences -/

theorem run_bind_some {p : Parse α} {f : α → Parse β} {s s' : ParseState} {a : α}
    (h : p s = (some a, s')) : (p >>= f) s = f a s' := by
  simp only [Bind.bind, OptionT.bind, OptionT.mk, StateT.bind]
  rw [h]

theorem run_get (s : ParseState) : (get : Parse ParseState) s = (some s, s) := rfl

theorem run_bind_none {p : Parse α} {f : α → Parse β} {s s' : ParseState} (h : p s = (none, s')) :
    (p >>= f) s = (none, s') := by
  simp only [Bind.bind, OptionT.bind, OptionT.mk, StateT.bind]
  rw [h]
  rfl

theorem run_bind_congr {p : Parse α} {f g : α → Parse β} {s : ParseState}
    (h : ∀ a s', p s = (some a, s') → f a s' = g a s') : (p >>= f) s = (p >>= g) s := by
  rcases hp : p s with ⟨_ | a, s'⟩
  · rw [run_bind_none hp, run_bind_none hp]
  · rw [run_bind_some hp, run_bind_some hp, h a s' hp]

theorem run_bind_of_eq {p q : Parse α} {f : α → Parse β} {s s' : ParseState} (h : p s = q s') :
    (p >>= f) s = (q >>= f) s' := by
  rcases hq : q s' with ⟨_ | a, t⟩
  · rw [run_bind_none hq, run_bind_none (h.trans hq)]
  · rw [run_bind_some hq, run_bind_some (h.trans hq)]

/-- From the state `s` the rule comes to one with `I`, and what it gives, if anything, has `Q`. -/
def EnsuresAt (I : ParseState → Prop) (p : Parse α) (Q : α → Prop) (s : ParseState) : Prop :=
  I (p s).2 ∧ ∀ a, (p s).1 = some a → Q a

/-- The rule does so from every state with `I`. -/
def Ensures (I : ParseState → Prop) (p : Parse α) (Q : α → Prop) : Prop :=
  ∀ s, I s → EnsuresAt I p Q s

abbrev Keeps (I : ParseState → Prop) (p : Parse α) : Prop := Ensures I p fun _ => True

namespace Ensures
variable {p : Parse α} {f : α → Parse β} {Q : α → Prop} {R : β → Prop}

theorem pure {a : α} (h : Q a) : Ensures I (Pure.pure a : Parse α) Q :=
  fun _ hs => ⟨hs, fun _ hb => Option.some.inj hb ▸ h⟩

theorem bind (hp : Ensures I p Q) (hf : ∀ a, Q a → Ensures I (f a) R) : Ensures I (p >>= f) R := by
  intro s hs
  obtain ⟨hs', hQ⟩ := hp s hs
  rcases hps : p s with ⟨_ | a, s'⟩
  · rw [hps] at hs'
    rw [EnsuresAt, run_bind_none hps]
    exact ⟨hs', nofun⟩
  · rw [hps] at hs' hQ
    rw [EnsuresAt, run_bind_some hps]
    exact hf a (hQ a rfl) s' hs'

theorem ite {c : Prop} [Decidable c] {q : Parse α} (hp : Ensures I p Q) (hq : Ensures I q Q) :
    Ensures I (if c then p else q) Q := by
  by_cases hc : c
  · rwa [if_pos hc]
  · rwa [if_neg hc]

theorem mono {Q' : α → Prop} (h : Ensures I p Q) (hQ : ∀ a, Q a → Q' a) : Ensures I p Q' :=
  fun s hs => ⟨(h s hs).1, fun a ha => hQ a ((h s hs).2 a ha)⟩

theorem keeps (h : Ensures I p Q) : Keeps I p := h.mono fun _ _ => trivial

theorem attempt (h : Ensures I p Q) : Ensures I (Parse.attempt p) fun o => ∀ a, o = some a → Q a := by
  intro s hs
  obtain ⟨hs', hQ⟩ := h s hs
  exact ⟨hs', fun o ho a ha => hQ a (ha ▸ Option.some.inj ho)⟩

theorem failure : Ensures I (Alternative.failure : Parse α) Q := fun _ hs => ⟨hs, nofun⟩

theorem get : Ensures I (MonadState.get : Parse ParseState) I :=
  fun _ hs => ⟨hs, fun _ ha => Option.some.inj ha ▸ hs⟩

/-- A rule that looks at the state first, and is then run in this state. -/
theorem getAt {f : ParseState → Parse α} (h : ∀ s, I s → EnsuresAt I (f s) Q s) :
    Ensures I (MonadState.get >>= f) Q := h

/-- A rule that gets fuel for the tokens that are left. -/
theorem fueled {p : Nat → Parse α} (h : ∀ n, Ensures I (p n) Q) : Ensures I (Parse.fueled p) Q :=
  get.bind fun _ _ => h _

end Ensures

namespace Keeps
variable {p : Parse α} {f : α → Parse β} {R : β → Prop}

theorem pure {a : α} : Keeps I (Pure.pure a : Parse α) := Ensures.pure trivial

theorem bind (hp : Keeps I p) (hf : ∀ a, Ensures I (f a) R) : Ensures I (p >>= f) R :=
  Ensures.bind hp fun a _ => hf a

theorem get : Keeps I (MonadState.get : Parse ParseState) := Ensures.get.mono fun _ _ => trivial

theorem attempt (h : Keeps I p) : Keeps I (Parse.attempt p) :=
  (Ensures.attempt h).mono fun _ _ => trivial

theorem kind : Keeps I Parse.kind := get.bind fun _ => pure

theorem kindAt (n : Nat) : Keeps I (Parse.kindAt n) := get.bind fun _ => pure

theorem atKind (k : TokenKind) : Keeps I (Parse.atKind k) := get.bind fun _ => pure

theorem atDirection : Keeps I Parse.atDirection := kind.bind fun _ => pure

theorem atLabel : Keeps I Parse.atLabel := get.bind fun _ => pure

end Keeps

/-- Passing a token keeps `I`, and so does reporting a fault at a span with `P`. In a state with `I`
the tokens at hand and passed last have spans with `P`. -/
structure Reads (I : ParseState → Prop) (P : Span → Prop) : Prop where
  pass : ∀ s, I s → I s.advance
  report : ∀ s (e : SyntaxError) x, I s → P x → I (s.report (e.toDiagnostic x))
  here : ∀ s, I s → P s.span
  last : ∀ s, I s → P s.lastSpan
  cover : ∀ a b, P a → P b → P (a.cover b)

/-! ### What is read -/

/-- The occurrence of a name that was read in a state with `I`. -/
structure ReadIdent (I : ParseState → Prop) (P : Span → Prop) (i : Ident) : Prop where
  within : i.Within P
  exists_state : ∃ s, I s ∧ s.kind = .identifier ∧ i.name = Ascii.lower s.text

/-- A name that is not one of the truth values. -/
structure ReadName (I : ParseState → Prop) (P : Span → Prop) (i : Ident) : Prop extends
    ReadIdent I P i where
  ne_true : i.name ≠ "true"
  ne_false : i.name ≠ "false"

/-- The expressions that can be read in states with `I`, node by node: the text of a leaf is that of a
token at hand in such a state. -/
inductive Read (I : ParseState → Prop) (P : Span → Prop) : Expr → Prop
  | int {s v x} (hs : I s) (hkind : s.kind = .intLiteral)
      (hvalue : Literal.value? s.text.toList = some v) (hx : P x) : Read I P (.int v x)
  | bool {b x} (hx : P x) : Read I P (.bool b x)
  | char {s x} (hs : I s) (hkind : s.kind = .charLiteral) (hx : P x) :
      Read I P (.char ((s.text.toList[1]?).getD ' ') x)
  | str {s x} (hs : I s) (hkind : s.kind = .stringLiteral ∨ s.kind = .bitStringLiteral) (hx : P x) :
      Read I P (.str s.text x)
  | name {i} (hi : ReadName I P i) : Read I P (.name i)
  | call {i args x} (hi : ReadName I P i) (hne : args ≠ []) (hargs : ∀ a ∈ args, Read I P a)
      (hx : P x) : Read I P (.call i args x)
  | slice {i l d r x} (hi : ReadName I P i) (hl : Read I P l) (hr : Read I P r) (hx : P x) :
      Read I P (.slice i l d r x)
  | attribute {i s x} (hi : ReadName I P i) (hs : I s) (hword : s.kind.isWord) (hx : P x) :
      Read I P (.attribute i (Ascii.lower s.text) x)
  | unary {op e x} (he : Read I P e) (hx : P x) : Read I P (.unary op e x)
  | binary {op l r x} (hl : Read I P l) (hr : Read I P r) (hx : P x) : Read I P (.binary op l r x)
  | aggregate {vs x} (hne : vs ≠ []) (hvs : ∀ v ∈ vs, Read I P v) (hx : P x) :
      Read I P (.aggregate vs x)

theorem Read.within {P : Span → Prop} {e : Expr} (h : Read I P e) : e.Within P := by
  induction h with
  | int _ _ _ hx => exact hx
  | bool hx => exact hx
  | char _ _ hx => exact hx
  | str _ _ hx => exact hx
  | name hi => exact hi.within
  | call hi _ _ hx ih => exact ⟨hi.within, exprsWithin_iff.2 ih, hx⟩
  | slice hi _ _ hx ihl ihr => exact ⟨hi.within, ihl, ihr, hx⟩
  | «attribute» hi _ _ hx => exact ⟨hi.within, hx⟩
  | unary _ hx ih => exact ⟨ih, hx⟩
  | binary _ _ hx ihl ihr => exact ⟨ihl, ihr, hx⟩
  | aggregate _ _ hx ih => exact ⟨exprsWithin_iff.2 ih, hx⟩

namespace Reads
variable {P : Span → Prop} {Q : α → Prop} (h : Reads I P)
include h

/-! ### Tokens -/

theorem advance : Keeps I Parse.advance := fun s hs => ⟨h.pass s hs, fun _ _ => trivial⟩

theorem span : Ensures I Parse.span P := Ensures.get.bind fun s hs => .pure (h.here s hs)

theorem lastSpan : Ensures I Parse.lastSpan P := Ensures.get.bind fun s hs => .pure (h.last s hs)

theorem fail (e : SyntaxError) {span : Span} (hspan : P span) : Ensures I (Parse.fail e span) Q := by
  have hreport : Keeps I (modify (·.report (e.toDiagnostic span)) : Parse PUnit) :=
    fun s hs => ⟨h.report s e span hs hspan, fun _ _ => trivial⟩
  exact hreport.bind fun _ => .failure

theorem expected (what : String) : Ensures I (Parse.expected what) Q :=
  Ensures.get.bind fun s hs => h.fail _ (h.here s hs)

theorem unsupported (what : String) : Ensures I (Parse.unsupported what) Q :=
  Ensures.get.bind fun s hs => h.fail _ (h.here s hs)

theorem eat (k : TokenKind) : Keeps I (Parse.eat k) :=
  (Keeps.atKind k).bind fun _ => .ite (h.advance.bind fun _ => Keeps.pure) Keeps.pure

theorem eatWord (w : Keyword) : Keeps I (Parse.eatWord w) := h.eat _

theorem eatSign (s : Symbol) : Keeps I (Parse.eatSign s) := h.eat _

theorem expect (k : TokenKind) : Ensures I (Parse.expect k) P :=
  Ensures.get.bind fun s hs => .ite (h.advance.bind fun _ => .pure (h.here s hs)) (h.expected _)

theorem expectWord (w : Keyword) : Ensures I (Parse.expectWord w) P := h.expect _

theorem expectSign (s : Symbol) : Ensures I (Parse.expectSign s) P := h.expect _

theorem ident : Ensures I Parse.ident (ReadIdent I P) := by
  refine Ensures.get.bind fun s hs => ?_
  by_cases hkind : s.kind = .identifier
  · rw [if_pos (beq_iff_eq.2 hkind)]
    exact h.advance.bind fun _ => .pure ⟨h.here s hs, s, hs, hkind, rfl⟩
  · rw [if_neg (mt beq_iff_eq.1 hkind)]
    exact h.expected _

theorem name : Keeps I Parse.name := h.ident.bind fun _ _ => Keeps.pure

theorem eatName : Keeps I Parse.eatName := (h.eat _).bind fun _ => Keeps.pure

theorem moreAt (sep : Symbol) {item : Parse α} (hitem : Ensures I item Q) (n : Nat) :
    Ensures I (Parse.moreAt sep item n) fun as => ∀ a ∈ as, Q a := by
  induction n with
  | zero => exact .pure nofun
  | succ n ih =>
    refine (h.eatSign sep).bind fun _ => .ite ?_ (.pure nofun)
    exact hitem.bind fun a ha => ih.bind fun as has => .pure (List.forall_mem_cons.2 ⟨ha, has⟩)

theorem separated (sep : Symbol) {item : Parse α} (hitem : Ensures I item Q) :
    Ensures I (Parse.separated sep item) fun as => as ≠ [] ∧ ∀ a ∈ as, Q a :=
  hitem.bind fun _ ha => (Ensures.fueled (h.moreAt sep hitem)).bind fun _ has =>
    .pure ⟨List.cons_ne_nil _ _, List.forall_mem_cons.2 ⟨ha, has⟩⟩

theorem names : Keeps I Parse.names := (h.separated _ h.name).mono fun _ _ => trivial

theorem finishEnd (w : Keyword) : Keeps I (Parse.finishEnd w) :=
  (h.eatWord w).bind fun _ => h.eatName.bind fun _ => (h.expectSign _).bind fun _ _ => Keeps.pure

/-! ### Skipping -/

theorem skipUntilAt (stop : ParseState → Bool) (n : Nat) : Keeps I (Parse.skipUntilAt stop n) := by
  induction n with
  | zero => exact Keeps.pure
  | succ n ih => exact Keeps.get.bind fun _ => .ite Keeps.pure (h.advance.bind fun _ => ih)

theorem skipUntil (stop : ParseState → Bool) : Keeps I (Parse.skipUntil stop) :=
  .fueled (h.skipUntilAt stop)

theorem skipSentence : Keeps I Parse.skipSentence :=
  (h.skipUntil _).bind fun _ => (h.eatSign _).bind fun _ => Keeps.pure

theorem skipPastEnd (w : Keyword) : Keeps I (Parse.skipPastEnd w) :=
  (h.skipUntil _).bind fun _ => Keeps.get.bind fun _ =>
    .ite Keeps.pure (h.advance.bind fun _ => h.skipSentence)

theorem skipToUnit : Keeps I Parse.skipToUnit := h.advance.bind fun _ => h.skipUntil _

/-! ### Expressions -/

theorem rangeAfter {Q : Expr → Prop} {expr : Parse Expr} (hexpr : Ensures I expr Q) {left : Expr}
    (hleft : Q left) : Ensures I (Parse.rangeAfter expr left) fun r => Q r.left ∧ Q r.right := by
  refine (h.eatWord _).bind fun _ => .ite (hexpr.bind fun _ hright => .pure ⟨hleft, hright⟩) ?_
  exact (h.eatWord _).bind fun _ =>
    .ite (hexpr.bind fun _ hright => .pure ⟨hleft, hright⟩) (h.expected _)

section
variable {expr : Parse Expr} (hexpr : Ensures I expr (Read I P))

theorem attributeAfter {base : Ident} (hbase : ReadName I P base) :
    Ensures I (Parse.attributeAfter base) (Read I P) := by
  refine Ensures.get.bind fun s hs => .ite (h.unsupported _) ?_
  by_cases hword : s.kind.isWord
  · rw [if_pos hword]
    exact h.advance.bind fun _ =>
      .pure (.attribute hbase hs hword (h.cover _ _ hbase.within (h.here s hs)))
  · rw [if_neg hword]
    exact h.expected _

theorem intExpr {s : ParseState} (hs : I s) (hkind : s.kind = .intLiteral) :
    EnsuresAt I Parse.intExpr (Read I P) s := by
  cases hvalue : Literal.value? s.text.toList with
  | some v =>
    have hread : Ensures I (do Parse.advance; return .int v s.span) (Read I P) :=
      h.advance.bind fun _ => .pure (.int hs hkind hvalue (h.here s hs))
    have hrun : Parse.intExpr s = (do Parse.advance; return .int v s.span : Parse Expr) s := by
      rw [Parse.intExpr, run_bind_some (run_get s), hvalue]
    rw [EnsuresAt, hrun]
    exact hread s hs
  | none =>
    have hrun : Parse.intExpr s = Parse.fail .literalRange s.span s := by
      rw [Parse.intExpr, run_bind_some (run_get s), hvalue]
    rw [EnsuresAt, hrun]
    exact h.fail _ (h.here s hs) s hs

include hexpr

theorem argumentsAfter {base : Ident} (hbase : ReadName I P base) :
    Ensures I (Parse.argumentsAfter expr base) (Read I P) := by
  have hspan : ∀ close, P close → P (base.span.cover close) := fun _ => h.cover _ _ hbase.within
  refine hexpr.bind fun first hfirst => Keeps.atDirection.bind fun _ => .ite ?_ ?_
  · exact (h.rangeAfter hexpr hfirst).bind fun r hr => (h.expectSign _).bind fun close hclose =>
      .pure (.slice hbase hr.1 hr.2 (hspan close hclose))
  · refine (Keeps.atKind _).bind fun _ => .ite (h.unsupported _) ?_
    refine (Ensures.fueled (h.moreAt _ hexpr)).bind fun more hmore => ?_
    exact (h.expectSign _).bind fun close hclose =>
      .pure (.call hbase (List.cons_ne_nil _ _) (List.forall_mem_cons.2 ⟨hfirst, hmore⟩)
        (hspan close hclose))

theorem nameExpr : Ensures I (Parse.nameExpr expr) (Read I P) := by
  refine h.ident.bind fun i hi => ?_
  by_cases htrue : i.name = "true"
  · rw [if_pos htrue]
    exact .pure (.bool hi.within)
  rw [if_neg htrue]
  by_cases hfalse : i.name = "false"
  · rw [if_pos hfalse]
    exact .pure (.bool hi.within)
  rw [if_neg hfalse]
  have hname : ReadName I P i := ⟨hi, htrue, hfalse⟩
  refine (Keeps.atKind _).bind fun _ => .ite (h.unsupported _) ?_
  refine (h.eatSign _).bind fun _ => .ite (h.attributeAfter hname) ?_
  exact (h.eatSign _).bind fun _ => .ite (h.argumentsAfter hexpr hname) (.pure (.name hname))

theorem element : Ensures I (Parse.element expr) fun v => Read I P v.1 := by
  refine (h.eatWord _).bind fun _ => .ite ?_ ?_
  · exact (h.expectSign _).bind fun _ _ => hexpr.bind fun _ he => .pure he
  · refine hexpr.bind fun _ he => (h.eatSign _).bind fun _ => .ite (hexpr.bind fun _ he => .pure he) ?_
    exact (Keeps.atKind _).bind fun _ =>
      .ite (h.span.bind fun _ hspan => h.fail _ hspan) (.pure he)

theorem parenExpr : Ensures I (Parse.parenExpr expr) (Read I P) := by
  refine (h.expectSign _).bind fun start hstart => (h.separated _ (h.element hexpr)).bind
    fun elements helements => (h.expectSign _).bind fun close hclose => ?_
  obtain ⟨hne, helements⟩ := helements
  split
  · exact .pure (helements _ (List.mem_singleton.2 rfl))
  · refine .pure (.aggregate (mt List.map_eq_nil_iff.1 hne) ?_ (h.cover _ _ hstart hclose))
    exact List.forall_mem_map.2 helements

theorem primary : Ensures I (Parse.primary expr) (Read I P) := by
  refine Ensures.getAt fun s hs => ?_
  have hhere := h.here s hs
  have hleaf : ∀ e, Read I P e → Ensures I (do Parse.advance; return e) (Read I P) :=
    fun e he => h.advance.bind fun _ => .pure he
  split
  · rename_i hkind
    exact h.intExpr hs hkind
  · exact h.unsupported _ s hs
  · rename_i hkind
    exact hleaf _ (.char hs hkind hhere) s hs
  · rename_i hkind
    exact hleaf _ (.str hs (.inl hkind) hhere) s hs
  · rename_i hkind
    exact hleaf _ (.str hs (.inr hkind) hhere) s hs
  · exact h.nameExpr hexpr s hs
  · exact h.parenExpr hexpr s hs
  · exact h.expected _ s hs

end

theorem operand {expr : Nat → Parse Expr} (hexpr : ∀ n, Ensures I (expr n) (Read I P)) :
    Ensures I (Parse.operand expr) (Read I P) := by
  refine Ensures.get.bind fun s hs => ?_
  split
  · exact h.advance.bind fun _ => (hexpr _).bind fun e he =>
      .pure (.unary he (h.cover _ _ (h.here s hs) he.within.span))
  · exact h.primary (hexpr _)

theorem climb {expr : Nat → Parse Expr} (hexpr : ∀ n, Ensures I (expr n) (Read I P)) (least n : Nat)
    {lhs : Expr} (hlhs : Read I P lhs) : Ensures I (Parse.climb expr least n lhs) (Read I P) := by
  induction n generalizing lhs with
  | zero => exact .pure hlhs
  | succ n ih =>
    refine Keeps.kind.bind fun k => ?_
    split
    · exact .pure hlhs
    · refine .ite (.pure hlhs) (h.advance.bind fun _ => (hexpr _).bind fun rhs hrhs => ih ?_)
      exact .binary hlhs hrhs (h.cover _ _ hlhs.within.span hrhs.within.span)

theorem exprAt (n least : Nat) : Ensures I (Parse.exprAt n least) (Read I P) := by
  induction n generalizing least with
  | zero => exact .failure
  | succ n ih => exact (h.operand ih).bind fun lhs hlhs => h.climb ih least n hlhs

theorem read : Ensures I Parse.expr (Read I P) := .fueled fun n => h.exprAt n _

theorem expr : Ensures I Parse.expr (Expr.Within P) := h.read.mono fun _ he => he.within

theorem range : Ensures I Parse.range (Range.Within P) :=
  h.expr.bind fun _ hleft => h.rangeAfter h.expr hleft

end Reads

end HdlLint.Syntax.Parse
