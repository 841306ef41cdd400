import HdlLint.Syntax.Printer
import HdlLint.Proofs.Agreement
import HdlLint.Proofs.Cutting

/-!
# Printed text falls into its words

The text of an expression is made of words, with blanks between some of them (`words`). An expression
that was read holds only texts of tokens (`Read.printable`), so no word of the printed text runs into
the next one, and lexing gives back the words one by one (`lex_write`).
-/

namespace HdlLint.Syntax

/-! ### Values of literals -/

theorem Literal.value?_le {cs : List Char} {v : Nat} (h : value? cs = some v) : v ≤ maxInt := by
  have hmost : ∀ n, atMost maxInt n = some v → v ≤ maxInt := by
    intro n hn
    obtain ⟨hle, rfl⟩ : n ≤ maxInt ∧ n = v := by simpa [atMost] using hn
    exact hle
  unfold value? at h
  dsimp only at h
  split at h
  · obtain ⟨b, -, hb⟩ := Option.bind_eq_some_iff.1 h
    split at hb
    · obtain ⟨n, -, hn⟩ := Option.bind_eq_some_iff.1 hb
      exact hmost n hn
    · cases hb
  · split at h
    · obtain ⟨m, -, hm⟩ := Option.bind_eq_some_iff.1 h
      obtain ⟨e, -, he⟩ := Option.bind_eq_some_iff.1 hm
      split at he
      · exact hmost _ he
      · cases he
    · obtain ⟨n, -, hn⟩ := Option.bind_eq_some_iff.1 h
      exact hmost n hn

theorem toList_toString (v : Nat) : (toString (v : Int)).toList = Nat.toDigits 10 v :=
  Nat.toList_repr

theorem digitValue_digitChar {d : Nat} (h : d < 10) : Ascii.digitValue d.digitChar = some d := by
  have hall : ∀ d < 10, Ascii.digitValue d.digitChar = some d := by decide
  exact hall d h

/-- One more digit. -/
def readDigit (base : Nat) (acc : Option Nat) (c : Char) : Option Nat := do
  let n ← acc
  let d ← Ascii.digitValue c
  if d < base then some (n * base + d) else none

theorem readDigit_digitChar (n : Nat) {d : Nat} (h : d < 10) :
    readDigit 10 (some n) d.digitChar = some (n * 10 + d) := by
  simp [readDigit, digitValue_digitChar h, h]

theorem foldl_toDigits (v : Nat) : (Nat.toDigits 10 v).foldl (readDigit 10) (some 0) = some v := by
  induction v using Nat.strong_induction_on with
  | _ v ih =>
    by_cases hv : v < 10
    · rw [Nat.toDigits_of_lt_base hv, List.foldl_cons, readDigit_digitChar 0 hv]
      simp
    · rw [Nat.toDigits_of_base_le (by decide) (by omega), List.foldl_append, ih (v / 10) (by omega),
        List.foldl_cons, readDigit_digitChar _ (Nat.mod_lt v (by decide)), List.foldl_nil]
      congr 1
      omega

theorem number?_eq_foldl {base : Nat} {cs : List Char} (h : cs ≠ []) :
    Ascii.number? base cs = cs.foldl (readDigit base) (some 0) := by
  unfold Ascii.number?
  split
  · exact absurd rfl h
  · rfl

theorem number?_toDigits (v : Nat) : Ascii.number? 10 (Nat.toDigits 10 v) = some v :=
  (number?_eq_foldl Nat.toDigits_ne_nil).trans (foldl_toDigits v)

theorem Literal.splitAt?_eq_none {p : Char → Bool} {cs : List Char} (h : ∀ c ∈ cs, p c = false) :
    splitAt? p cs = none := by
  have hdrop : cs.dropWhile (fun c => !p c) = [] := by
    rw [List.dropWhile_eq_nil_iff]
    intro c hc
    simp [h c hc]
  rw [splitAt?, hdrop]

theorem Literal.value?_toString {v : Nat} (h : v ≤ maxInt) :
    value? (toString (v : Int)).toList = some v := by
  have hne : ∀ c : Char, c.isDigit = false → ∀ d ∈ Nat.toDigits 10 v, d ≠ c := by
    rintro c hc d hd rfl
    rw [Nat.isDigit_of_mem_toDigits (by decide) (by decide) hd] at hc
    cases hc
  have hfilter : (Nat.toDigits 10 v).filter (· ≠ '_') = Nat.toDigits 10 v :=
    List.filter_eq_self.2 fun d hd => by simpa using hne '_' rfl d hd
  have hbased : splitAt? (· = '#') (Nat.toDigits 10 v) = none :=
    splitAt?_eq_none fun d hd => by simpa using hne '#' rfl d hd
  have hscaled : splitAt? (fun c => c = 'e' || c = 'E') (Nat.toDigits 10 v) = none :=
    splitAt?_eq_none fun d hd => by simp [hne 'e' rfl d hd, hne 'E' rfl d hd]
  rw [toList_toString]
  simp only [value?, hfilter, hbased, hscaled, number?_toDigits, Option.bind_some, atMost, if_pos h]

namespace Expr

/-! ### Expressions that can be printed -/

mutual

/-- No aggregate with a single value stands in the expression. -/
def singleFree : Expr → Bool
  | .int _ _ | .bool _ _ | .char _ _ | .str _ _ | .name _ | .attribute _ _ _ => true
  | .call _ args _ => allSingleFree args
  | .slice _ l _ r _ => singleFree l && singleFree r
  | .unary _ e _ => singleFree e
  | .binary _ l r _ => singleFree l && singleFree r
  | .aggregate vs _ => vs.length != 1 && allSingleFree vs

def allSingleFree : List Expr → Bool
  | [] => true
  | e :: es => singleFree e && allSingleFree es

end

theorem allSingleFree_iff {es : List Expr} : allSingleFree es ↔ ∀ e ∈ es, singleFree e := by
  induction es with
  | nil => simp [allSingleFree]
  | cons e es ih => simp [allSingleFree, ih]

end Expr

/-- A word in small letters that is neither reserved nor a truth value. -/
structure IsName (n : String) : Prop where
  isWord : Lexer.isWord n.toList
  kind : Lexer.wordKind n.toList = .identifier
  lower : Ascii.lower n = n
  ne_true : n ≠ "true"
  ne_false : n ≠ "false"

/-- The expressions whose parts are written as tokens are, and whose aggregates have several values. -/
inductive Printable : Expr → Prop
  | int {v : Nat} {x} (hv : v ≤ Literal.maxInt) : Printable (.int v x)
  | bool {b x} : Printable (.bool b x)
  | char {c x} (hc : c.utf8Size = 1) : Printable (.char c x)
  | str {t x} (ht : Lexer.IsString t.toList) : Printable (.str t x)
  | name {i} (hi : IsName i.name) : Printable (.name i)
  | call {i args x} (hi : IsName i.name) (hne : args ≠ []) (hargs : ∀ a ∈ args, Printable a) :
      Printable (.call i args x)
  | slice {i l d r x} (hi : IsName i.name) (hl : Printable l) (hr : Printable r) :
      Printable (.slice i l d r x)
  | attribute {i a x} (hi : IsName i.name) (ha : Lexer.isWord a.toList) (hlower : Ascii.lower a = a) :
      Printable (.attribute i a x)
  | unary {op e x} (he : Printable e) : Printable (.unary op e x)
  | binary {op l r x} (hl : Printable l) (hr : Printable r) : Printable (.binary op l r x)
  | aggregate {vs x} (hlen : 2 ≤ vs.length) (hvs : ∀ v ∈ vs, Printable v) : Printable (.aggregate vs x)

namespace Parse
variable {file : Nat} {text : String} {P : Span → Prop}

/-- The token at hand is written as its kind is. -/
theorem text_written {s : ParseState} (hs : s.rest <:+ (Lexer.lex file text).1) (hk : s.kind ≠ .eof) :
    Lexer.Written s.kind s.text.toList := by
  obtain ⟨t, ts, hrest, ht⟩ := ParseState.exists_rest_of_kind hk
  have htext : s.text = t.text := by simp [ParseState.text, ParseState.token?, hrest]
  rw [htext, ← ht]
  exact Lexer.mem_lex_written (hs.subset (hrest ▸ List.mem_cons_self))

theorem ReadName.isName {i : Ident} (h : ReadName (fun s => s.rest <:+ (Lexer.lex file text).1) P i) :
    IsName i.name := by
  obtain ⟨s, hs, hk, hname⟩ := h.exists_state
  have hw := text_written hs (by rw [hk]; nofun)
  rw [hk] at hw
  obtain ⟨hword, hkind⟩ := hw
  refine ⟨?_, ?_, ?_, h.ne_true, h.ne_false⟩
  · exact hname ▸ Lexer.isWord_lower hword
  · rw [hname, Lexer.wordKind_lower, hkind]
  · rw [hname, Ascii.lower_lower]

/-- An expression that is read from the tokens of a text can be printed. -/
theorem Read.printable {e : Expr} (h : Read (fun s => s.rest <:+ (Lexer.lex file text).1) P e)
    (hsingle : e.singleFree) : Printable e := by
  induction h with
  | int hs hk hvalue hx => exact .int (Literal.value?_le hvalue)
  | bool hx => exact .bool
  | @char s x hs hk hx =>
    have hw := text_written hs (by rw [hk]; nofun)
    rw [hk] at hw
    obtain ⟨c, hc, htext⟩ := hw
    rw [htext]
    exact .char hc
  | @str s x hs hk hx =>
    have hw := text_written hs (by rcases hk with hk | hk <;> rw [hk] <;> nofun)
    rcases hk with hk | hk
    · rw [hk] at hw
      exact .str hw
    · rw [hk] at hw
      exact .str hw
  | name hi => exact .name hi.isName
  | call hi hne _ hx ih =>
    exact .call hi.isName hne fun a ha => ih a ha (Expr.allSingleFree_iff.1 hsingle a ha)
  | slice hi _ _ hx ihl ihr =>
    obtain ⟨hl, hr⟩ := Bool.and_eq_true_iff.1 hsingle
    exact .slice hi.isName (ihl hl) (ihr hr)
  | @«attribute» i s x hi hs hk hx =>
    have hw := text_written hs (by intro h; rw [h] at hk; cases hk)
    have hword : Lexer.isWord s.text.toList := by
      cases hkind : s.kind <;> simp [hkind, TokenKind.isWord, Lexer.Written] at hk hw
      · exact hw.1
      · exact hw.1
    exact .attribute hi.isName (Lexer.isWord_lower hword) (Ascii.lower_lower _)
  | unary _ hx ih => exact .unary (ih hsingle)
  | binary _ _ hx ihl ihr =>
    obtain ⟨hl, hr⟩ := Bool.and_eq_true_iff.1 hsingle
    exact .binary (ihl hl) (ihr hr)
  | @aggregate vs x hne _ hx ih =>
    obtain ⟨hlen, hall⟩ := Bool.and_eq_true_iff.1 hsingle
    have hpos := List.length_pos_iff.2 hne
    have hone : vs.length ≠ 1 := by simpa using hlen
    exact .aggregate (by omega) fun v hv => ih v hv (Expr.allSingleFree_iff.1 hall v hv)

end Parse

namespace Expr

/-! ### The words of an expression -/

/-- Puts parentheses around words if `nested`. -/
def enclosed (nested : Bool) (ws : List String) : List String :=
  if nested then "(" :: (ws ++ [")"]) else ws

mutual

/-- The words in the text of an expression. -/
def words (nested : Bool) : Expr → List String
  | .int v _ => [toString v]
  | .bool v _ => [if v then "true" else "false"]
  | .char c _ => ["'" ++ String.singleton c ++ "'"]
  | .str t _ => [t]
  | .name i => [i.name]
  | .call f args _ => f.name :: "(" :: (wordsAll args ++ [")"])
  | .slice b l d r _ => b.name :: "(" :: (words false l ++ d.spelling :: (words false r ++ [")"]))
  | .attribute b a _ => [b.name, "'", a]
  | .unary op e _ => enclosed nested (op.spelling :: words true e)
  | .binary op l r _ => enclosed nested (words true l ++ op.spelling :: words true r)
  | .aggregate vs _ => "(" :: (wordsAll vs ++ [")"])

def wordsAll : List Expr → List String
  | [] => []
  | [e] => words false e
  | e :: es => words false e ++ "," :: wordsAll es

end

/-! ### The text is cut at its words -/

open Lexer

section
variable {prev : Option TokenKind} {r : List Char}

/-- A text that can follow a sign. -/
def Leads (text : List Char) : Prop := ∃ c, text.head? = some c ∧ c ≠ '-'

theorem Leads.append {text text' : List Char} (h : Leads text) : Leads (text ++ text') := by
  obtain ⟨c, hc, hne⟩ := h
  exact ⟨c, by simp [hc], hne⟩

theorem leads_word {w : List Char} (h : isWord w) : Leads w := by
  rcases w with _ | ⟨c, cs⟩
  · cases h
  · refine ⟨c, rfl, ?_⟩
    rintro rfl
    cases h

theorem isDigit_of_mem_toString {v : Nat} : ∀ d ∈ (toString (v : Int)).toList, d.isDigit := by
  intro d hd
  rw [toList_toString] at hd
  exact Nat.isDigit_of_mem_toDigits (by decide) (by decide) hd

theorem solid_int (v : Nat) : Solid .intLiteral (toString (v : Int)).toList :=
  solid_number (by rw [toList_toString]; exact Nat.toDigits_ne_nil) isDigit_of_mem_toString

theorem isWord_bool (b : Bool) : isWord (if b then "true" else "false").toList := by
  cases b <;> rfl

theorem leads_write {e : Expr} (h : Printable e) : Leads (e.write true).toList := by
  cases h with
  | @int v x hv =>
    obtain ⟨c, cs, hw, -⟩ := solid_int v
    have hc := isDigit_of_mem_toString c (hw ▸ List.mem_cons_self)
    refine ⟨c, by rw [write, hw, List.head?_cons], ?_⟩
    rintro rfl
    cases hc
  | @bool b x => exact leads_word (isWord_bool b)
  | char hc => exact ⟨'\x27', by simp [write], by decide⟩
  | @str t x ht =>
    rw [write]
    generalize t.toList = w at ht
    cases ht with
    | plain hbody => exact ⟨'\x22', rfl, by decide⟩
    | bits hstart => exact ⟨_, rfl, by rintro rfl; cases hstart⟩
  | name hi => exact leads_word hi.isWord
  | call hi =>
    simp only [write, String.toList_append, List.append_assoc]
    exact (leads_word hi.isWord).append
  | slice hi =>
    simp only [write, String.toList_append, List.append_assoc]
    exact (leads_word hi.isWord).append
  | «attribute» hi =>
    simp only [write, String.toList_append, List.append_assoc]
    exact (leads_word hi.isWord).append
  | unary he => exact ⟨'(', by simp [write, enclose], by decide⟩
  | binary => exact ⟨'(', by simp [write, enclose], by decide⟩
  | aggregate => exact ⟨'(', by simp [write], by decide⟩

/-- A text of words, wherever an operand can stand. -/
def Falls (text : String) (ws : List String) : Prop :=
  ∀ prev r, tickIsAttribute prev = false → Stops r → Splits prev text.toList r ws

theorem falls_solid {w : String} {k : TokenKind} (h : Solid k w.toList) : Falls w [w] :=
  fun _ _ _ hr => .word (h.cutsOff hr)

theorem Falls.enclose {text : String} {ws : List String} (h : Falls text ws) (nested : Bool) :
    Falls (enclose nested text) (enclosed nested ws) := by
  cases nested with
  | false => exact h
  | true =>
    intro prev r _ _
    simp only [Expr.enclose, if_true, String.toList_append]
    refine Splits.cast (.append (.append (.mark (by decide)) ?_) (.mark (by decide))) rfl
    exact h _ _ rfl (stops_mark (by decide))

theorem writeAll_falls {es : List Expr} (h : ∀ e ∈ es, Falls (e.write false) (e.words false)) :
    Falls (writeAll es) (wordsAll es) := by
  induction es with
  | nil => exact fun _ _ _ _ => .nil
  | cons e es ih =>
    obtain ⟨he, hes⟩ := List.forall_mem_cons.1 h
    cases es with
    | nil => exact he
    | cons e' es =>
      intro prev r hprev hr
      have hcomma : ∀ {prev r}, Splits prev ", ".toList r [","] := fun {prev r} =>
        .append (.mark (w := ",") (by decide)) .blank
      simp only [writeAll, String.toList_append]
      refine Splits.cast (.append (.append (he _ _ hprev (stops_mark (by decide))) hcomma)
        (ih hes _ _ (by simp; rfl) hr)) (by simp [wordsAll])

/-! ### Operators -/

theorem binary_spelling (op : BinaryOp) : isWord op.spelling.toList ∨ isSign op.spelling.toList := by
  cases op <;> decide

theorem binary_splits (op : BinaryOp) :
    Splits prev op.spelling.toList (" ".toList ++ r) [op.spelling] := by
  rcases binary_spelling op with h | h
  · exact .word ((solid_word h).cutsOff (stops_mark (by decide)))
  · exact .word (cutsOff_sign h)

theorem binary_not_attribute (op : BinaryOp) : tickIsAttribute (some (kindOf op.spelling)) = false := by
  cases op <;> decide

theorem unary_not_attribute (op : UnaryOp) : tickIsAttribute (some (kindOf op.spelling)) = false := by
  cases op <;> decide

theorem direction_not_attribute (d : RangeDirection) :
    tickIsAttribute (some (kindOf d.spelling)) = false := by
  cases d <;> decide

theorem isWord_direction (d : RangeDirection) : isWord d.spelling.toList := by
  cases d <;> decide

theorem unary_spelling (op : UnaryOp) :
    (op.isWord ∧ isWord op.spelling.toList) ∨ (op.isWord = false ∧ op.spelling ∈ ["-", "+"]) := by
  cases op <;> decide

/-- A word is set off by a blank, and a sign stands in front of text that is no dash. -/
theorem unary_splits (op : UnaryOp) {text : List Char} (h : Leads text) :
    Splits prev (op.spelling ++ if op.isWord then " " else "").toList (text ++ r) [op.spelling] := by
  rw [String.toList_append]
  rcases unary_spelling op with ⟨hword, hop⟩ | ⟨hword, hop⟩
  · rw [if_pos hword]
    exact .append (.word ((solid_word hop).cutsOff (stops_mark (by decide)))) .blank
  · obtain ⟨c, hc, hne⟩ := h
    have hhead : (text ++ r).head? ≠ some '-' := by simpa [hc] using hne
    rw [hword, if_neg Bool.false_ne_true]
    simpa using Splits.word (cutsOff_leading hop hhead)

/-! ### Expressions -/

theorem word_splits {w : String} (hw : isWord w.toList) (hr : Stops r) : Splits prev w.toList r [w] :=
  .word ((solid_word hw).cutsOff hr)

theorem falls_write {e : Expr} (h : Printable e) (nested : Bool) :
    Falls (e.write nested) (e.words nested) := by
  induction h generalizing nested with
  | @int v x hv => exact falls_solid (solid_int v)
  | @bool b x => exact falls_solid (solid_word (isWord_bool b))
  | char hc => exact fun prev r hprev hr => .word (cutsOff_char hc hprev)
  | str ht =>
    obtain ⟨k, -, hk⟩ := solid_string ht
    exact falls_solid hk
  | name hi => exact falls_solid (solid_word hi.isWord)
  | @call i args x hi hne hargs ih =>
    intro prev r _ _
    have hall := writeAll_falls fun a ha => ih a ha false
    simp only [write, String.toList_append]
    refine Splits.cast (.append (.append (.append (word_splits hi.isWord (stops_mark (by decide)))
      (.mark (by decide))) (hall _ _ ?_ (stops_mark (by decide)))) (.mark (by decide))) (by simp [words])
    rfl
  | @slice i l d r x hi hl hr ihl ihr =>
    intro prev r _ _
    simp only [write, String.toList_append]
    refine Splits.cast (.append (.append (.append (.append (.append (.append (.append
      (word_splits hi.isWord (stops_mark (by decide))) (.mark (by decide)))
      (ihl false _ _ ?_ (stops_mark (by decide)))) .blank)
      (word_splits (isWord_direction d) (stops_mark (by decide)))) .blank)
      (ihr false _ _ ?_ (stops_mark (by decide)))) (.mark (by decide))) (by simp [words])
    · rfl
    · simpa using direction_not_attribute d
  | @«attribute» i a x hi ha hlower =>
    intro prev r _ hr
    have hname : kindOf i.name = .identifier := (solid_word hi.isWord).kindOf_eq.trans hi.kind
    simp only [write, String.toList_append]
    refine Splits.cast (.append (.append (word_splits hi.isWord (stops_mark (by decide)))
      (.word (cutsOff_tick ?_))) (word_splits ha hr)) rfl
    rw [after_cons, after_nil, hname]
    rfl
  | @unary op e x he ih =>
    refine Falls.enclose (fun prev r hprev hr => ?_) nested
    rw [String.toList_append]
    exact .append (unary_splits op (leads_write he)) (ih true _ _ (unary_not_attribute op) hr)
  | @binary op l r x hl hr ihl ihr =>
    refine Falls.enclose (fun prev r hprev hr => ?_) nested
    simp only [String.toList_append]
    refine Splits.cast (.append (.append (.append (.append
      (ihl true _ _ hprev (stops_mark (by decide))) .blank) (binary_splits op)) .blank)
      (ihr true _ _ ?_ hr)) (by simp)
    simpa using binary_not_attribute op
  | @aggregate vs x hlen hvs ih =>
    intro prev r _ _
    have hall := writeAll_falls fun a ha => ih a ha false
    simp only [write, String.toList_append]
    exact .append (.append (.mark (by decide)) (hall _ _ rfl (stops_mark (by decide))))
      (.mark (by decide))

end

/-- The tokens of a printed expression are its words, and nothing is wrong with its characters. -/
theorem lex_write {e : Expr} (h : Printable e) (nested : Bool) (file : Nat) :
    (lex file (e.write nested)).2 = [] ∧
      (lex file (e.write nested)).1.map (fun t => (t.kind, t.text)) =
        (e.words nested ++ [""]).map fun w => (kindOf w, w) := by
  obtain ⟨ps, hcut, hfault, hmark⟩ := falls_write h nested none [] rfl stops_nil 0
  have hpieces : pieces (e.write nested) = ps := by simpa [pieces, cut] using hcut
  have htoken : (fun p => (Piece.token? file p).map fun t => (t.kind, t.text)) = Piece.mark? := by
    funext p
    simp [Piece.token?, Piece.mark?, Function.comp_def]
  rw [lex_eq_pieces, hpieces]
  constructor
  · exact List.filterMap_eq_nil_iff.2 fun p hp => by simp [Piece.diagnostic?, hfault p hp]
  · rw [List.map_append, List.map_filterMap, htoken, hmark, List.map_append]
    rfl

end Expr

end HdlLint.Syntax
