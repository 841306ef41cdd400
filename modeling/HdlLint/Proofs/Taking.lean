import Mathlib.Data.List.Forall2
import HdlLint.Proofs.Printing

/-!
# Rules that take words

`Takes p ws r Q` says that the rule `p` takes the words `ws` in front of the words `r`, reports nothing
and gives something with `Q`. It goes through a rule as the rule is written: each branch is taken, or
not, because of the word at hand. Lists of expressions are taken item by item (`separated_takes`).
-/

namespace HdlLint.Syntax.Parse
open Lexer
variable {α β : Type} {s : ParseState} {w : String} {ws ws' r : List String}

/-! ### Rules that take words -/

/-- The tokens that are left are these words. -/
def At (s : ParseState) (ws : List String) : Prop :=
  s.rest.map (fun t => (t.kind, t.text)) = ws.map fun w => (kindOf w, w)

/-- The kind of the first of the words, `eof` if there is none. -/
def next (ws : List String) : TokenKind := kindOf (ws.headD "")

theorem next_cons : next (w :: ws) = kindOf w := rfl

namespace At

theorem exists_rest (h : At s (w :: ws)) : ∃ t ts, s.rest = t :: ts ∧ t.kind = kindOf w ∧ t.text = w ∧
    ts.map (fun t => (t.kind, t.text)) = ws.map fun w => (kindOf w, w) := by
  obtain ⟨t, ts, hrest, ht, hts⟩ := List.map_eq_cons_iff.1 h
  obtain ⟨hkind, htext⟩ := Prod.mk.inj ht
  exact ⟨t, ts, hrest, hkind, htext, hts⟩

theorem kind_eq (h : At s ws) : s.kind = next ws := by
  cases ws with
  | nil =>
    have hrest : s.rest = [] := List.map_eq_nil_iff.1 h
    simp [ParseState.kind, ParseState.kindAt, hrest, next, kindOf]
  | cons w ws =>
    obtain ⟨t, ts, hrest, hkind, -⟩ := h.exists_rest
    simp [ParseState.kind, ParseState.kindAt, hrest, hkind, next]

theorem text_eq (h : At s (w :: ws)) : s.text = w := by
  obtain ⟨t, ts, hrest, -, htext, -⟩ := h.exists_rest
  simp [ParseState.text, ParseState.token?, hrest, htext]

theorem advance (h : At s (w :: ws)) (hw : kindOf w ≠ .eof) :
    At s.advance ws ∧ s.advance.reported = s.reported := by
  obtain ⟨t, ts, hrest, hkind, -, hts⟩ := h.exists_rest
  have ht : t.kind ≠ .eof := hkind ▸ hw
  simp only [ParseState.advance, hrest, if_neg ht, and_true]
  exact hts

theorem length_eq (h : At s ws) : s.rest.length = ws.length := by
  simpa using congrArg List.length h

end At

/-- In front of the words `r` the rule takes the words `ws`, reports nothing and gives something with
`Q`. -/
def Takes (p : Parse α) (ws r : List String) (Q : α → Prop) : Prop :=
  ∀ s, At s (ws ++ r) → ∃ a s', p s = (some a, s') ∧ Q a ∧ At s' r ∧ s'.reported = s.reported

namespace Takes
variable {p q : Parse α} {f : α → Parse β} {Q : α → Prop} {R : β → Prop} {k : TokenKind}

theorem pure {a : α} (h : Q a) : Takes (Pure.pure a : Parse α) [] r Q :=
  fun s hs => ⟨a, s, rfl, h, hs, rfl⟩

theorem bind (hp : Takes p ws (ws' ++ r) Q) (hf : ∀ a, Q a → Takes (f a) ws' r R) :
    Takes (p >>= f) (ws ++ ws') r R := by
  intro s hs
  rw [List.append_assoc] at hs
  obtain ⟨a, t, hp, ha, ht, hreport⟩ := hp s hs
  obtain ⟨b, u, hf, hb, hu, hreport'⟩ := hf a ha t ht
  exact ⟨b, u, by rw [run_bind_some hp, hf], hb, hu, hreport'.trans hreport⟩

/-- First one word. -/
theorem cons (hp : Takes p [w] (ws ++ r) Q) (hf : ∀ a, Q a → Takes (f a) ws r R) :
    Takes (p >>= f) (w :: ws) r R :=
  bind hp hf

/-- First no word. -/
theorem peek (hp : Takes p [] (ws ++ r) Q) (hf : ∀ a, Q a → Takes (f a) ws r R) :
    Takes (p >>= f) ws r R :=
  bind hp hf

/-- Last no word. -/
theorem map (hp : Takes p ws r Q) (hf : ∀ a, Q a → Takes (f a) [] r R) : Takes (p >>= f) ws r R := by
  rw [← List.append_nil ws]
  exact bind hp hf

theorem get {f : ParseState → Parse α} (h : ∀ s, At s (ws ++ r) → Takes (f s) ws r Q) :
    Takes (MonadState.get >>= f) ws r Q :=
  fun s hs => h s hs s hs

theorem fueled {p : Nat → Parse α} (h : ∀ n, (ws ++ r).length < n → Takes (p n) ws r Q) :
    Takes (Parse.fueled p) ws r Q :=
  get fun s hs => h _ (by rw [← hs.length_eq]; exact Nat.lt_succ_self _)

theorem advance (hw : kindOf w ≠ .eof) : Takes Parse.advance [w] r fun _ => True :=
  fun s hs => ⟨(), s.advance, rfl, trivial, hs.advance hw⟩

theorem expect (hw : kindOf w = k) (hk : k ≠ .eof) : Takes (Parse.expect k) [w] r fun _ => True :=
  fun s hs => ⟨s.span, s.advance, expect_of_kind (hs.kind_eq.trans hw), trivial, hs.advance (hw ▸ hk)⟩

theorem ident (hw : kindOf w = .identifier) :
    Takes Parse.ident [w] r fun i => i.name = Ascii.lower w := by
  intro s hs
  refine ⟨_, s.advance, ident_of_kind (hs.kind_eq.trans hw), ?_, hs.advance (hw ▸ nofun)⟩
  rw [hs.text_eq]

/-- A branch that is taken because of the word at hand. -/
theorem eat (hw : kindOf w = k) (hk : k ≠ .eof) (hp : Takes p ws r Q) :
    Takes (do if ← Parse.eat k then p else q) (w :: ws) r Q := by
  have heat : Takes (Parse.eat k) [w] (ws ++ r) (· = true) := fun s hs =>
    ⟨true, s.advance, eat_of_kind (hs.kind_eq.trans hw), rfl, hs.advance (hw ▸ hk)⟩
  refine heat.cons fun a ha => ?_
  rwa [if_pos ha]

/-- A branch that is not taken, for another word is at hand. -/
theorem skip (hk : next (ws ++ r) ≠ k) (hq : Takes q ws r Q) :
    Takes (do if ← Parse.eat k then p else q) ws r Q := by
  have heat : Takes (Parse.eat k) [] (ws ++ r) (· = false) := fun s hs =>
    ⟨false, s, eat_of_ne (hs.kind_eq ▸ hk), rfl, hs, rfl⟩
  refine heat.peek fun a ha => ?_
  rwa [if_neg (by simp [ha])]

theorem notAt (hk : next (ws ++ r) ≠ k) (hq : Takes q ws r Q) :
    Takes (do if ← Parse.atKind k then p else q) ws r Q := by
  have hat : Takes (Parse.atKind k) [] (ws ++ r) (· = false) := fun s hs =>
    ⟨s.kind == k, s, rfl, beq_eq_false_iff_ne.2 (hs.kind_eq ▸ hk), hs, rfl⟩
  refine hat.peek fun a ha => ?_
  rwa [if_neg (by simp [ha])]

end Takes

/-! ### Lists -/

/-- The words of further expressions, each led by a comma. -/
def tailWords (es : List Expr) : List String := es.flatMap fun e => "," :: e.words false

theorem wordsAll_cons (e : Expr) (es : List Expr) :
    Expr.wordsAll (e :: es) = e.words false ++ tailWords es := by
  induction es generalizing e with
  | nil => simp [Expr.wordsAll, tailWords]
  | cons e' es ih => simp [Expr.wordsAll, ih, tailWords]

theorem length_le_tailWords (es : List Expr) : es.length ≤ (tailWords es).length := by
  induction es with
  | nil => exact Nat.le_refl 0
  | cons e es ih =>
    rw [tailWords] at ih ⊢
    simp only [List.flatMap_cons, List.length_append, List.length_cons]
    omega

/-- Inside parentheses an expression is followed by a comma or by the closing one. -/
def Inside (r : List String) : Prop := next r = .symbol .comma ∨ next r = .symbol .rightParen

theorem inside_tailWords {es : List Expr} (hr : next r = .symbol .rightParen) :
    Inside (tailWords es ++ r) := by
  cases es with
  | nil => exact .inr hr
  | cons e es => exact .inl next_cons

section
variable {item : Parse β} {Q : Expr → β → Prop} {es : List Expr}

theorem moreAt_takes (hitem : ∀ e ∈ es, ∀ r, Inside r → Takes item (e.words false) r (Q e))
    (hr : next r = .symbol .rightParen) {n : Nat} (hn : es.length < n) :
    Takes (moreAt .comma item n) (tailWords es) r (List.Forall₂ Q es) := by
  induction n generalizing es with
  | zero => omega
  | succ n ih =>
    cases es with
    | nil => exact .skip (by rw [tailWords, List.flatMap_nil, List.nil_append, hr]; nofun) (.pure .nil)
    | cons e es =>
      obtain ⟨he, hes⟩ := List.forall_mem_cons.1 hitem
      refine .eat rfl nofun ?_
      refine (he _ (inside_tailWords hr)).bind fun b hb => ?_
      refine (ih hes (by simpa using hn)).map fun bs hbs => ?_
      exact .pure (.cons hb hbs)

theorem more_takes (hitem : ∀ e ∈ es, ∀ r, Inside r → Takes item (e.words false) r (Q e))
    (hr : next r = .symbol .rightParen) :
    Takes (fueled (moreAt .comma item)) (tailWords es) r (List.Forall₂ Q es) := by
  refine .fueled fun n hn => moreAt_takes hitem hr ?_
  have hlen := length_le_tailWords es
  rw [List.length_append] at hn
  omega

theorem separated_takes {e : Expr}
    (hitem : ∀ e' ∈ e :: es, ∀ r, Inside r → Takes item (e'.words false) r (Q e'))
    (hr : next r = .symbol .rightParen) :
    Takes (separated .comma item) (Expr.wordsAll (e :: es)) r (List.Forall₂ Q (e :: es)) := by
  obtain ⟨he, hes⟩ := List.forall_mem_cons.1 hitem
  rw [wordsAll_cons]
  refine (he _ (inside_tailWords hr)).bind fun b hb => ?_
  exact (more_takes hes hr).map fun bs hbs => .pure (.cons hb hbs)

end

/-! ### Parentheses -/

theorem next_close : next ([")"] ++ r) = .symbol .rightParen := next_cons

theorem open_takes : Takes (expectSign .leftParen) ["("] r fun _ => True := .expect rfl nofun

theorem close_takes : Takes (expectSign .rightParen) [")"] r fun _ => True := .expect rfl nofun

end HdlLint.Syntax.Parse
