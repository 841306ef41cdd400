import HdlLint.Proofs.Precedence
import HdlLint.Proofs.Taking

/-!
# Printed expressions are read back

The words of a printed expression are read one after the other, and what is read is the expression
again, but for its spans. Operations inside others are printed in parentheses, so operands are read as
primaries and the powers of operators never matter (`readsAgain`). Main statement: an expression that
was read is read again from its text, both as it stands for itself and as an operand
(`print_reads_back`).
-/

namespace HdlLint.Syntax

/-! ### Expressions up to spans -/

namespace Expr

mutual

/-- The expression without its spans. -/
def bare : Expr → Expr
  | .int v _ => .int v .nowhere
  | .bool v _ => .bool v .nowhere
  | .char c _ => .char c .nowhere
  | .str t _ => .str t .nowhere
  | .name i => .name ⟨i.name, .nowhere⟩
  | .call i args _ => .call ⟨i.name, .nowhere⟩ (bareAll args) .nowhere
  | .slice i l d r _ => .slice ⟨i.name, .nowhere⟩ (bare l) d (bare r) .nowhere
  | .attribute i a _ => .attribute ⟨i.name, .nowhere⟩ a .nowhere
  | .unary op e _ => .unary op (bare e) .nowhere
  | .binary op l r _ => .binary op (bare l) (bare r) .nowhere
  | .aggregate vs _ => .aggregate (bareAll vs) .nowhere

def bareAll : List Expr → List Expr
  | [] => []
  | e :: es => bare e :: bareAll es

end

/-- Two expressions are the same but for their spans. -/
def SameAs (e e' : Expr) : Prop := e'.bare = e.bare

theorem bareAll_eq {es es' : List Expr} (h : List.Forall₂ SameAs es es') : bareAll es' = bareAll es := by
  induction h with
  | nil => rfl
  | cons h _ ih => rw [bareAll, bareAll, h, ih]

end Expr

namespace Parse
open Lexer
variable {s : ParseState} {w : String} {ws r : List String}

/-! ### Primaries -/

/-- The kinds of the words behind whole expressions. -/
def closers : List TokenKind :=
  [.eof, .symbol .rightParen, .symbol .comma, .keyword .kwTo, .keyword .kwDownto]

/-- What can follow a whole expression in printed text. -/
def Ends (r : List String) : Prop := next r ∈ closers

theorem Inside.ends (h : Inside r) : Ends r := by
  rcases h with h | h <;> rw [Ends, h] <;> decide

/-- The kinds that do not go on with a name. -/
def Free (k : TokenKind) : Prop := k ≠ .symbol .dot ∧ k ≠ .symbol .tick ∧ k ≠ .symbol .leftParen

theorem Ends.free (h : Ends r) : Free (next r) := by
  have hall : ∀ k ∈ closers, k ≠ .symbol .dot ∧ k ≠ .symbol .tick ∧ k ≠ .symbol .leftParen := by decide
  exact hall _ h

/-- Behind a whole expression no operator goes on with it, however weak. -/
theorem Ends.power_lt (h : Ends r) (least : Nat) :
    ∀ op, BinaryOp.ofToken? (next r) = some op → op.bindingPower.1 < least := by
  have hall : ∀ k ∈ closers, BinaryOp.ofToken? k = none := by decide
  intro op hop
  rw [hall _ h] at hop
  cases hop

theorem binary_free (op : BinaryOp) : Free (kindOf op.spelling) := by
  cases op <;> refine ⟨?_, ?_, ?_⟩ <;> decide

section
variable {expr : Parse Expr} {n : String} {i : Ident} {Q : Expr → Prop}

theorem kindOf_name (hn : IsName n) : kindOf n = .identifier :=
  (solid_word hn.isWord).kindOf_eq.trans hn.kind

theorem nameExpr_takes (hn : IsName n)
    (h : ∀ i : Ident, i.name = n → Takes (do
      if ← atSign .dot then unsupported "selected name"
      else if ← eatSign .tick then attributeAfter i
      else if ← eatSign .leftParen then argumentsAfter expr i
      else return .name i) ws r Q) : Takes (nameExpr expr) (n :: ws) r Q := by
  refine (Takes.ident (kindOf_name hn)).cons fun i hi => ?_
  rw [hn.lower] at hi
  rw [if_neg (hi ▸ hn.ne_true), if_neg (hi ▸ hn.ne_false)]
  exact h i hi

theorem attributeAfter_takes {a : String} {x : Span} {base : Ident} (ha : isWord a.toList)
    (hlower : Ascii.lower a = a) (hbase : base.name = i.name) :
    Takes (attributeAfter base) [a] r (Expr.SameAs (.attribute i a x)) := by
  have hkind : (kindOf a).isWord := by
    rw [(solid_word ha).kindOf_eq, wordKind]
    cases Keyword.ofSpelling? (Ascii.lower (String.ofList a.toList)) <;> rfl
  refine Takes.get fun s hs => ?_
  have hs' : s.kind = kindOf a := hs.kind_eq
  rw [hs', if_neg ?_, if_pos hkind]
  · refine (Takes.advance ?_).cons fun _ _ => .pure ?_
    · intro h
      rw [h] at hkind
      cases hkind
    · rw [hs.text_eq, hlower]
      simp [Expr.SameAs, Expr.bare, hbase]
  · intro h
    rw [beq_iff_eq.1 h] at hkind
    cases hkind

theorem atDirection_takes : Takes atDirection [] r fun b =>
    b = (next r == .keyword .kwTo || next r == .keyword .kwDownto) := by
  intro s hs
  refine ⟨_, s, rfl, ?_, hs, rfl⟩
  rw [hs.kind_eq, List.nil_append]

theorem rangeAfter_takes {left right : Expr} {d : RangeDirection}
    (hright : Takes expr (right.words false) r right.SameAs) :
    Takes (rangeAfter expr left) (d.spelling :: right.words false) r fun range =>
      range.left = left ∧ range.direction = d ∧ right.SameAs range.right := by
  cases d with
  | «to» => exact .eat rfl nofun (hright.map fun e he => .pure ⟨rfl, rfl, he⟩)
  | «downto» =>
    refine .skip ?_ (.eat rfl nofun (hright.map fun e he => .pure ⟨rfl, rfl, he⟩))
    rw [List.cons_append, next_cons]
    decide

theorem slice_takes {l right : Expr} {d : RangeDirection} {x : Span} {base : Ident}
    (hl : ∀ r, Ends r → Takes expr (l.words false) r l.SameAs)
    (hright : ∀ r, Ends r → Takes expr (right.words false) r right.SameAs) (hbase : base.name = i.name) :
    Takes (argumentsAfter expr base) (l.words false ++ d.spelling :: (right.words false ++ [")"])) r
      (Expr.SameAs (.slice i l d right x)) := by
  have hd : kindOf d.spelling = .keyword .kwTo ∨ kindOf d.spelling = .keyword .kwDownto := by
    cases d <;> decide
  have hends : Ends (d.spelling :: (right.words false ++ [")"]) ++ r) := by
    rw [Ends, List.cons_append, next_cons]
    rcases hd with hd | hd <;> rw [hd] <;> decide
  refine (hl _ hends).bind fun first hfirst => ?_
  refine atDirection_takes.peek fun b hb => ?_
  rw [List.cons_append, next_cons] at hb
  rw [if_pos (by rcases hd with hd | hd <;> simp [hb, hd])]
  show Takes _ ((d.spelling :: right.words false) ++ [")"]) r _
  have hclose : Ends ([")"] ++ r) := Inside.ends (.inr next_close)
  refine (rangeAfter_takes (hright _ hclose)).bind fun range hrange => ?_
  refine close_takes.cons fun close _ => .pure ?_
  obtain ⟨rfl, rfl, hrange⟩ := hrange
  simp only [Expr.SameAs] at hfirst hrange
  simp [Expr.SameAs, Expr.bare, hbase, hfirst, hrange]

theorem call_takes {args : List Expr} {x : Span} {base : Ident} (hne : args ≠ [])
    (hargs : ∀ e ∈ args, ∀ r, Ends r → Takes expr (e.words false) r e.SameAs)
    (hbase : base.name = i.name) :
    Takes (argumentsAfter expr base) (Expr.wordsAll args ++ [")"]) r (Expr.SameAs (.call i args x)) := by
  obtain ⟨e, es, rfl⟩ := List.exists_cons_of_ne_nil hne
  obtain ⟨he, hes⟩ := List.forall_mem_cons.1 hargs
  have hinside : Inside ((tailWords es ++ [")"]) ++ r) := by
    rw [List.append_assoc]
    exact inside_tailWords next_close
  rw [wordsAll_cons, List.append_assoc]
  refine (he _ hinside.ends).bind fun first hfirst => ?_
  refine atDirection_takes.peek fun b hb => ?_
  rw [if_neg (by rcases hinside with h | h <;> rw [hb, h] <;> decide)]
  refine .notAt (by rcases hinside with h | h <;> rw [h] <;> decide) ?_
  refine (more_takes (fun e he r hr => hes e he r hr.ends) next_close).bind fun more hmore => ?_
  refine close_takes.cons fun close _ => .pure ?_
  have hall : Expr.bareAll (first :: more) = Expr.bareAll (e :: es) :=
    Expr.bareAll_eq (.cons hfirst hmore)
  rw [Expr.SameAs, Expr.bare, Expr.bare, hall, hbase]

theorem element_takes {e : Expr} (h : Takes expr (e.words false) r e.SameAs) (hr : Inside r)
    (hothers : next (e.words false ++ r) ≠ .keyword .kwOthers) :
    Takes (element expr) (e.words false) r fun v => v.2 = false ∧ e.SameAs v.1 := by
  refine .skip hothers (h.map fun e' he' => .skip ?_ (.notAt ?_ (.pure ⟨rfl, he'⟩)))
  · rw [List.nil_append]
    rcases hr with h | h <;> rw [h] <;> decide
  · rw [List.nil_append]
    rcases hr with h | h <;> rw [h] <;> decide

theorem elements_takes {e : Expr} {es : List Expr}
    (h : ∀ e' ∈ e :: es, ∀ r, Ends r → Takes expr (e'.words false) r e'.SameAs)
    (hothers : ∀ e' ∈ e :: es, ∀ r, next (e'.words false ++ r) ≠ .keyword .kwOthers) :
    Takes (separated .comma (element expr)) (Expr.wordsAll (e :: es)) ([")"] ++ r)
      (List.Forall₂ (fun e v => v.2 = false ∧ e.SameAs v.1) (e :: es)) :=
  separated_takes
    (fun e' he' r hr => element_takes (h e' he' r hr.ends) hr (hothers e' he' r)) next_close

/-- A single expression in parentheses is this expression. -/
theorem paren_takes {e : Expr} (h : ∀ r, Ends r → Takes expr (e.words false) r e.SameAs)
    (hothers : ∀ r, next (e.words false ++ r) ≠ .keyword .kwOthers) :
    Takes (parenExpr expr) ("(" :: (e.words false ++ [")"])) r e.SameAs := by
  refine open_takes.cons fun start _ => ?_
  refine Takes.bind (elements_takes (List.forall_mem_singleton.2 h)
    (List.forall_mem_singleton.2 hothers)) fun vs hvs => close_takes.cons fun close _ => ?_
  obtain ⟨v, ⟨hflag, hv⟩, rfl⟩ : ∃ v, (v.2 = false ∧ e.SameAs v.1) ∧ vs = [v] := by
    cases hvs with
    | cons hv hnil =>
      cases hnil
      exact ⟨_, hv, rfl⟩
  obtain ⟨e', b⟩ := v
  obtain rfl : b = false := hflag
  exact .pure hv

theorem aggregate_takes {vs : List Expr} {x : Span} (hlen : 2 ≤ vs.length)
    (h : ∀ e ∈ vs, ∀ r, Ends r → Takes expr (e.words false) r e.SameAs)
    (hothers : ∀ e ∈ vs, ∀ r, next (e.words false ++ r) ≠ .keyword .kwOthers) :
    Takes (parenExpr expr) ("(" :: (Expr.wordsAll vs ++ [")"])) r (Expr.SameAs (.aggregate vs x)) := by
  rcases vs with _ | ⟨e, _ | ⟨e', es⟩⟩
  · simp at hlen
  · simp at hlen
  refine open_takes.cons fun start _ => ?_
  refine Takes.bind (elements_takes h hothers) fun vs hvs => close_takes.cons fun close _ => ?_
  have hall : Expr.bareAll (vs.map Prod.fst) = Expr.bareAll (e :: e' :: es) :=
    Expr.bareAll_eq (List.forall₂_map_right_iff.2 (hvs.imp fun _ _ hv => hv.2))
  have hmany : ∀ v : Expr × Bool, vs ≠ [v] := by
    rintro v rfl
    cases hvs with
    | cons _ hnil => cases hnil
  split
  · exact absurd rfl (hmany _)
  · refine .pure ?_
    rw [Expr.SameAs, Expr.bare, Expr.bare, hall]

/-! ### Primaries by their first word -/

theorem primary_int {v : Nat} {x : Span} (hv : v ≤ Literal.maxInt) :
    Takes (primary expr) [toString (v : Int)] r (Expr.SameAs (.int v x)) := by
  have hkind : kindOf (toString (v : Int)) = .intLiteral := (Expr.solid_int v).kindOf_eq
  refine .get fun s hs => ?_
  rw [hs.kind_eq, List.cons_append, next_cons, hkind]
  refine Takes.get fun s hs => ?_
  rw [hs.text_eq, Literal.value?_toString hv]
  exact (Takes.advance (by rw [hkind]; nofun)).cons fun _ _ => .pure rfl

theorem primary_char {c : Char} {x : Span} (hc : c.utf8Size = 1) :
    Takes (primary expr) ["'" ++ String.singleton c ++ "'"] r (Expr.SameAs (.char c x)) := by
  have hkind := kindOf_char hc
  refine .get fun s hs => ?_
  rw [hs.kind_eq, List.cons_append, next_cons, hkind]
  refine (Takes.advance (by rw [hkind]; nofun)).cons fun _ _ => .pure ?_
  rw [hs.text_eq, toList_char]
  rfl

theorem primary_str {t : String} {x : Span} (ht : IsString t.toList) :
    Takes (primary expr) [t] r (Expr.SameAs (.str t x)) := by
  obtain ⟨k, hk, hsolid⟩ := solid_string ht
  have hkind := hsolid.kindOf_eq
  refine .get fun s hs => ?_
  rw [hs.kind_eq, List.cons_append, next_cons, hkind]
  rcases hk with rfl | rfl
  · refine (Takes.advance (by rw [hkind]; nofun)).cons fun _ _ => .pure ?_
    rw [hs.text_eq]
    rfl
  · refine (Takes.advance (by rw [hkind]; nofun)).cons fun _ _ => .pure ?_
    rw [hs.text_eq]
    rfl

theorem primary_word (hw : kindOf w = .identifier) (h : Takes (nameExpr expr) (w :: ws) r Q) :
    Takes (primary expr) (w :: ws) r Q := by
  refine .get fun s hs => ?_
  rw [hs.kind_eq, List.cons_append, next_cons, hw]
  exact h

theorem primary_paren (h : Takes (parenExpr expr) ("(" :: ws) r Q) :
    Takes (primary expr) ("(" :: ws) r Q := by
  have hkind : kindOf "(" = .symbol .leftParen := rfl
  refine .get fun s hs => ?_
  rw [hs.kind_eq, List.cons_append, next_cons, hkind]
  exact h

theorem primary_bool {b : Bool} {x : Span} :
    Takes (primary expr) [if b then "true" else "false"] r (Expr.SameAs (.bool b x)) := by
  cases b with
  | true =>
    refine primary_word rfl ((Takes.ident rfl).cons fun i hi => ?_)
    rw [if_pos (hi.trans (by decide))]
    exact .pure rfl
  | false =>
    refine primary_word rfl ((Takes.ident rfl).cons fun i hi => ?_)
    rw [if_neg (by rw [hi]; decide), if_pos (hi.trans (by decide))]
    exact .pure rfl

theorem primary_name (hi : IsName i.name) (hr : Free (next r)) :
    Takes (primary expr) [i.name] r (Expr.SameAs (.name i)) := by
  refine primary_word (kindOf_name hi) (nameExpr_takes hi fun i' hi' => ?_)
  refine .notAt hr.1 (.skip hr.2.1 (.skip hr.2.2 (.pure ?_)))
  simp [Expr.SameAs, Expr.bare, hi']

theorem primary_attribute {a : String} {x : Span} (hi : IsName i.name) (ha : isWord a.toList)
    (hlower : Ascii.lower a = a) :
    Takes (primary expr) [i.name, "'", a] r (Expr.SameAs (.attribute i a x)) := by
  refine primary_word (kindOf_name hi) (nameExpr_takes hi fun i' hi' => ?_)
  refine .notAt (by rw [List.cons_append, next_cons]; decide) ?_
  exact .eat rfl nofun (attributeAfter_takes ha hlower hi')

theorem primary_arguments (hi : IsName i.name)
    (h : ∀ i' : Ident, i'.name = i.name → Takes (argumentsAfter expr i') ws r Q) :
    Takes (primary expr) (i.name :: "(" :: ws) r Q := by
  refine primary_word (kindOf_name hi) (nameExpr_takes hi fun i' hi' => ?_)
  refine .notAt (by rw [List.cons_append, next_cons]; decide) ?_
  refine .skip (by rw [List.cons_append, next_cons]; decide) ?_
  exact .eat rfl nofun (h i' hi')

end

/-! ### First words -/

/-- The kinds of the words with which operands start. -/
def openers : List TokenKind :=
  [.intLiteral, .charLiteral, .stringLiteral, .bitStringLiteral, .identifier, .symbol .leftParen]

/-- An expression starts like an operand, or with a prefixed operator. -/
theorem next_words {e : Expr} (h : Printable e) (nested : Bool) (r : List String) :
    next (e.words nested ++ r) ∈ openers ∨
      nested = false ∧ ∃ op : UnaryOp, next (e.words nested ++ r) = kindOf op.spelling := by
  have hword : ∀ {w ws r k}, kindOf w = k → k ∈ openers → next (w :: ws ++ r) ∈ openers := by
    rintro w ws r k rfl hk
    exact hk
  induction h generalizing nested r with
  | @int v x hv => exact .inl (hword (Expr.solid_int v).kindOf_eq (by decide))
  | @bool b x => cases b <;> exact .inl (hword rfl (by decide))
  | char hc => exact .inl (hword (kindOf_char hc) (by decide))
  | str ht =>
    obtain ⟨k, hk, hsolid⟩ := solid_string ht
    exact .inl (hword hsolid.kindOf_eq (by rcases hk with rfl | rfl <;> decide))
  | name hi => exact .inl (hword (kindOf_name hi) (by decide))
  | call hi => exact .inl (hword (kindOf_name hi) (by decide))
  | slice hi => exact .inl (hword (kindOf_name hi) (by decide))
  | «attribute» hi => exact .inl (hword (kindOf_name hi) (by decide))
  | @unary op =>
    cases nested with
    | false => exact .inr ⟨rfl, op, next_cons⟩
    | true => exact .inl (hword rfl (by decide))
  | @binary op l rhs x _ _ ihl =>
    cases nested with
    | false =>
      rw [Expr.words, Expr.enclosed, if_neg Bool.false_ne_true, List.append_assoc]
      exact .inl ((ihl true _).resolve_right fun h => absurd h.1 (by decide))
    | true => exact .inl (hword rfl (by decide))
  | aggregate => exact .inl (hword rfl (by decide))

theorem unary_of_next_operand {e : Expr} (h : Printable e) (r : List String) :
    UnaryOp.ofToken? (next (e.words true ++ r)) = none := by
  have hall : ∀ k ∈ openers, UnaryOp.ofToken? k = none := by decide
  exact hall _ ((next_words h true r).resolve_right fun h => absurd h.1 (by decide))

/-- No expression starts with the word of a last choice. -/
theorem next_ne_others {e : Expr} (h : Printable e) (r : List String) :
    next (e.words false ++ r) ≠ .keyword .kwOthers := by
  intro hothers
  rcases next_words h false r with hmem | ⟨-, op, hop⟩
  · exact absurd (hothers ▸ hmem) (by decide)
  · have hkind := hop.symm.trans hothers
    cases op <;> exact absurd hkind (by decide)

/-! ### Operators -/

section
variable {Q : Expr → Prop} {op : BinaryOp} {lhs : Expr} {least : Nat}

theorem operand_takes (h : Takes (primary (atLeast leastPower)) ws r Q)
    (hstart : UnaryOp.ofToken? (next (ws ++ r)) = none) : Takes (operand atLeast) ws r Q := by
  refine .get fun s hs => ?_
  rw [hs.kind_eq, hstart]
  exact h

theorem climbs_stop (h : ∀ op, BinaryOp.ofToken? (next r) = some op → op.bindingPower.1 < least) (hQ : Q lhs) :
    Takes (climbs least lhs) [] r Q := by
  intro s hs
  refine ⟨lhs, s, climbs_of_power_lt fun op hop => h op ?_, hQ, hs, rfl⟩
  rwa [hs.kind_eq] at hop

theorem atLeast_takes (h : Takes (primary (atLeast leastPower)) ws r Q)
    (hstart : UnaryOp.ofToken? (next (ws ++ r)) = none)
    (hend : ∀ op, BinaryOp.ofToken? (next r) = some op → op.bindingPower.1 < least) :
    Takes (atLeast least) ws r Q := by
  rw [atLeast_eq]
  exact (operand_takes h hstart).map fun e he => climbs_stop hend he

theorem binary_kind (op : BinaryOp) : BinaryOp.ofToken? (kindOf op.spelling) = some op := by
  cases op <;> decide

theorem unary_kind (op : UnaryOp) : UnaryOp.ofToken? (kindOf op.spelling) = some op := by
  cases op <;> decide

theorem climbs_takes
    (h : Takes (do let e ← atLeast op.bindingPower.2; climbs leastPower (.join op lhs e)) ws r Q) :
    Takes (climbs leastPower lhs) (op.spelling :: ws) r Q := by
  intro s hs
  have hkind : BinaryOp.ofToken? s.kind = some op := by
    rw [hs.kind_eq, List.cons_append, next_cons, binary_kind]
  obtain ⟨hs', hreport⟩ := hs.advance (binary_kind_ne_eof (binary_kind op))
  obtain ⟨e, t, hrun, he, ht, hreport'⟩ := h s.advance hs'
  have hle : leastPower ≤ op.bindingPower.1 := Nat.zero_le _
  exact ⟨e, t, by rw [climbs_of_le_power hkind hle, hrun], he, ht,
    hreport'.trans hreport⟩

end

/-- The expression is read again as an operand, and as a whole. -/
structure ReadsAgain (e : Expr) : Prop where
  operand : ∀ r, Free (next r) → Takes (primary (atLeast leastPower)) (e.words true) r e.SameAs
  whole : ∀ r, Ends r → Takes (atLeast leastPower) (e.words false) r e.SameAs

theorem ReadsAgain.of_primary {e : Expr} (h : Printable e) (hwords : e.words false = e.words true)
    (hprimary : ∀ r, Free (next r) → Takes (primary (atLeast leastPower)) (e.words true) r e.SameAs) :
    ReadsAgain e := by
  refine ⟨hprimary, fun r hr => ?_⟩
  rw [hwords]
  exact atLeast_takes (hprimary r hr.free) (unary_of_next_operand h r) (hr.power_lt leastPower)

theorem ReadsAgain.of_whole {e : Expr} (h : Printable e)
    (hwords : e.words true = "(" :: (e.words false ++ [")"]))
    (hwhole : ∀ r, Ends r → Takes (atLeast leastPower) (e.words false) r e.SameAs) : ReadsAgain e := by
  refine ⟨fun r _ => ?_, hwhole⟩
  rw [hwords]
  exact primary_paren (paren_takes hwhole (next_ne_others h))

/-- An operand in front of anything that is not a stronger operator. -/
theorem ReadsAgain.atLeast {e : Expr} (h : ReadsAgain e) (he : Printable e) (least : Nat) (hr : Ends r) :
    Takes (atLeast least) (e.words true) r e.SameAs := by
  exact atLeast_takes (h.operand r hr.free) (unary_of_next_operand he r) (hr.power_lt least)

theorem unary_whole {op : UnaryOp} {e : Expr} {x : Span} (he : Printable e) (h : ReadsAgain e)
    (hr : Ends r) :
    Takes (atLeast leastPower) (op.spelling :: e.words true) r (Expr.SameAs (.unary op e x)) := by
  rw [atLeast_eq]
  have hoperand : Takes (operand Parse.atLeast) (op.spelling :: e.words true) r
      (Expr.SameAs (.unary op e x)) := by
    refine .get fun s hs => ?_
    rw [hs.kind_eq, List.cons_append, next_cons, unary_kind]
    refine (Takes.advance (unary_kind_ne_eof (unary_kind op))).cons fun _ _ => ?_
    refine (h.atLeast he _ hr).map fun e' he' => .pure ?_
    simp only [Expr.SameAs, Expr.bare] at he' ⊢
    rw [he']
  exact hoperand.map fun e' he' => climbs_stop (hr.power_lt leastPower) he'

theorem binary_whole {op : BinaryOp} {l rhs : Expr} {x : Span} (hl : Printable l) (hrhs : Printable rhs)
    (ihl : ReadsAgain l) (ihr : ReadsAgain rhs) (hr : Ends r) :
    Takes (atLeast leastPower) (l.words true ++ op.spelling :: rhs.words true) r
      (Expr.SameAs (.binary op l rhs x)) := by
  rw [atLeast_eq]
  have hfree : Free (next (op.spelling :: rhs.words true ++ r)) := binary_free op
  have hleft := ihl.operand _ hfree
  refine (operand_takes hleft (unary_of_next_operand hl _)).bind fun l' hl' => climbs_takes ?_
  refine (ihr.atLeast hrhs _ hr).map fun r' hr' => climbs_stop (hr.power_lt leastPower) ?_
  simp only [Expr.SameAs] at hl' hr'
  simp only [Expr.SameAs, Expr.join, Expr.bare, hl', hr']

theorem readsAgain {e : Expr} (h : Printable e) : ReadsAgain e := by
  induction h with
  | int hv => exact .of_primary (.int hv) rfl fun r _ => primary_int hv
  | bool => exact .of_primary .bool rfl fun r _ => primary_bool
  | char hc => exact .of_primary (.char hc) rfl fun r _ => primary_char hc
  | str ht => exact .of_primary (.str ht) rfl fun r _ => primary_str ht
  | name hi => exact .of_primary (.name hi) rfl fun r hr => primary_name hi hr
  | call hi hne hargs ih =>
    refine .of_primary (.call hi hne hargs) rfl fun r _ => primary_arguments hi fun i' hi' => ?_
    exact call_takes hne (fun a ha => (ih a ha).whole) hi'
  | slice hi hl hr ihl ihr =>
    refine .of_primary (.slice hi hl hr) rfl fun r _ => primary_arguments hi fun i' hi' => ?_
    exact slice_takes ihl.whole ihr.whole hi'
  | «attribute» hi ha hlower =>
    exact .of_primary (.attribute hi ha hlower) rfl fun r _ => primary_attribute hi ha hlower
  | unary he ih => exact .of_whole (.unary he) rfl fun r hr => unary_whole he ih hr
  | binary hl hr ihl ihr =>
    exact .of_whole (.binary hl hr) rfl fun r hr' => binary_whole hl hr ihl ihr hr'
  | aggregate hlen hvs ih =>
    refine .of_primary (.aggregate hlen hvs) rfl fun r _ => primary_paren ?_
    exact aggregate_takes hlen (fun v hv => (ih v hv).whole) fun v hv => next_ne_others (hvs v hv)

end Parse

namespace Expr

/-! ### Round trip -/

/-- The text is read as a whole and without a fault, and what is read is `e` but for its spans. -/
def ReadsAs (text : String) (e : Expr) : Prop :=
  ∀ file, (Lexer.lex file text).2 = [] ∧
    ∃ e' s, Parse.expr (.init (Lexer.lex file text).1) = (some e', s) ∧
      s.rest = [Lexer.eof file text] ∧ s.reported = [] ∧ e.SameAs e'

theorem readsAs_of_takes {e : Expr} (h : Printable e) {nested : Bool}
    (htakes : Parse.Takes Parse.expr (e.words nested) [""] e.SameAs) : ReadsAs (e.write nested) e := by
  intro file
  obtain ⟨hfaults, hmarks⟩ := lex_write h nested file
  refine ⟨hfaults, ?_⟩
  obtain ⟨e', s, hrun, he', hs, hreport⟩ := htakes (.init (Lexer.lex file (e.write nested)).1) hmarks
  refine ⟨e', s, hrun, ?_, hreport, he'⟩
  -- what is left is the last token, since no rule brings tokens back
  obtain ⟨t, hlast⟩ : ∃ t, s.rest = [t] := List.length_eq_one_iff.1 hs.length_eq
  have hsteady : Parse.Steady Parse.expr := fun r => (Parse.reads_suffix r).read.keeps
  obtain ⟨front, hfront⟩ := hsteady.suffix (.init (Lexer.lex file (e.write nested)).1)
  obtain ⟨inner, htokens, -⟩ := Lexer.lex_closed file (e.write nested)
  rw [hrun, hlast] at hfront
  rw [hlast]
  exact (List.append_inj' (hfront.trans htokens) rfl).2

/-- An expression that was read from a text is read again from its own text, whether it is printed to
stand for itself or as an operand, unless it holds an aggregate with a single value. -/
theorem print_reads_back {file : Nat} {text : String} {s s' : ParseState} {e : Expr}
    (hs : s.rest <:+ (Lexer.lex file text).1) (hread : Parse.expr s = (some e, s'))
    (hsingle : e.singleFree) : ReadsAs e.print e ∧ ReadsAs e.printOperand e := by
  have hprintable : Printable e := by
    have h := ((Parse.reads_suffix _).read s hs).2 e (by rw [hread])
    exact h.printable hsingle
  have hagain := Parse.readsAgain hprintable
  have hends : Parse.Ends [""] := by rw [Parse.Ends, Parse.next_cons]; decide
  exact ⟨readsAs_of_takes hprintable (hagain.whole _ hends),
    readsAs_of_takes hprintable (hagain.atLeast hprintable Parse.leastPower hends)⟩

/-- Names lose their capitals, operands that are operations get parentheses, and a bit string and a
tick keep their text. -/
theorem print_reads_back_mixed :
    ∃ e s', Parse.expr (.init (Lexer.lex 0 "-A(1 to 2)*B'RANGE and (x\"0F\", ''')").1) = (some e, s') ∧
      e.singleFree ∧ e.print = "((-a(1 to 2)) * b'range) and (x\"0F\", ''')" ∧
      ReadsAs e.print e ∧ ReadsAs e.printOperand e := by
  have hrun : (Parse.expr (.init (Lexer.lex 0 "-A(1 to 2)*B'RANGE and (x\"0F\", ''')").1)).1.map
      (fun e => (e.singleFree, e.print)) =
        some (true, "((-a(1 to 2)) * b'range) and (x\"0F\", ''')") := by
    decide +kernel
  obtain ⟨e, hread, he⟩ := Option.map_eq_some_iff.1 hrun
  obtain ⟨hsingle, hprint⟩ := Prod.mk.inj he
  have hread := Prod.ext (x := Parse.expr _) (y := (some e, _)) hread rfl
  exact ⟨e, _, hread, hsingle, hprint, print_reads_back List.suffix_rfl hread hsingle⟩

end Expr

end HdlLint.Syntax
