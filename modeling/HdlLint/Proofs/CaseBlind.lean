import HdlLint.Proofs.LetterCase
import HdlLint.Proofs.Reading

/-!
# The case of letters does not matter to the parser

A rule is blind to case if from states that differ in the case of letters at most it gives the same and
comes to such states again (`Blind`). There is one lemma per rule. Most rules look only at the kinds and
spans of tokens. The few that look at texts look at them in small letters, or at literals.
-/

namespace HdlLint.Syntax

/-! ### The value of a literal -/

namespace Literal

theorem number?_toLower (base : Nat) (cs : List Char) :
    Ascii.number? base (cs.map Char.toLower) = Ascii.number? base cs := by
  cases cs with
  | nil => rfl
  | cons c cs =>
    simp only [Ascii.number?, List.map_cons, List.foldl_cons, List.foldl_map, Ascii.digitValue_toLower]

theorem splitAt?_toLower {p : Char → Bool} (hp : ∀ c : Char, p c.toLower = p c) (cs : List Char) :
    splitAt? p (cs.map Char.toLower) =
      (splitAt? p cs).map fun v => (v.1.map Char.toLower, v.2.map Char.toLower) := by
  have hcomp : (fun c => !p c) ∘ Char.toLower = fun c => !p c := funext fun c => congrArg not (hp c)
  rw [splitAt?, splitAt?, List.dropWhile_map, List.takeWhile_map, hcomp]
  cases cs.dropWhile fun c => !p c <;> rfl

theorem value?_toLower (cs : List Char) : value? (cs.map Char.toLower) = value? cs := by
  have hfilter : (cs.map Char.toLower).filter (· ≠ '_') = (cs.filter (· ≠ '_')).map Char.toLower := by
    rw [List.filter_map]
    refine congrArg _ (List.filter_congr fun c _ => ?_)
    simp only [Function.comp_apply, ne_eq, Ascii.toLower_eq_iff (x := '_') rfl]
  have hsharp : ∀ c : Char, decide (c.toLower = '#') = decide (c = '#') := fun c => by
    simp only [Ascii.toLower_eq_iff (x := '#') rfl]
  unfold value?
  dsimp only
  rw [hfilter, splitAt?_toLower hsharp, splitAt?_toLower Ascii.isExponentMark_toLower, number?_toLower]
  cases splitAt? (· = '#') (cs.filter (· ≠ '_')) with
  | some v =>
    have htrim : ∀ cs : List Char, trimEnd '#' (cs.map Char.toLower) = (trimEnd '#' cs).map Char.toLower :=
      fun cs => by
        rw [trimEnd, trimEnd, ← List.map_reverse, List.dropWhile_map, List.map_reverse]
        simp only [Function.comp_def, Ascii.toLower_eq_iff (x := '#') rfl]
    simp only [Option.map_some, based?, htrim, number?_toLower]
  | none =>
    cases splitAt? (fun c => c = 'e' || c = 'E') (cs.filter (· ≠ '_')) with
    | some v =>
      have hdrop : ∀ cs : List Char, (cs.map Char.toLower).dropWhile (· = '+') =
          (cs.dropWhile (· = '+')).map Char.toLower := fun cs => by
        rw [List.dropWhile_map]
        simp only [Function.comp_def, Ascii.toLower_eq_iff (x := '+') rfl]
      simp only [Option.map_none, Option.map_some, scaled?, hdrop, number?_toLower]
    | none => rfl

end Literal

/-! ### States -/

/-- States that differ in the case of letters at most, and in the words of faults. -/
structure ParseState.Alike (s s' : ParseState) : Prop where
  passed : List.Forall₂ Token.Alike s.passed s'.passed
  rest : List.Forall₂ Token.Alike s.rest s'.rest
  reported : List.Forall₂ Diagnostic.Alike s.reported s'.reported

namespace ParseState.Alike
variable {s s' : ParseState}

/-- The tokens at hand are alike, or there is none. -/
theorem token? (h : s.Alike s') : (s.token? = none ∧ s'.token? = none) ∨
    ∃ t t', s.token? = some t ∧ s'.token? = some t' ∧ t.Alike t' := by
  obtain ⟨passed, rest, _⟩ := s
  obtain ⟨passed', rest', _⟩ := s'
  obtain ⟨hpassed, hrest, -⟩ := h
  cases hrest with
  | cons ht _ => exact .inr ⟨_, _, rfl, rfl, ht⟩
  | nil =>
    cases hpassed with
    | nil => exact .inl ⟨rfl, rfl⟩
    | cons ht _ => exact .inr ⟨_, _, rfl, rfl, ht⟩

theorem kindAt (h : s.Alike s') (n : Nat) : s.kindAt n = s'.kindAt n := by
  have hrest := h.rest
  rw [ParseState.kindAt, ParseState.kindAt]
  generalize s.rest = ts at hrest
  generalize s'.rest = ts' at hrest
  induction hrest generalizing n with
  | nil => rfl
  | cons ht _ ih =>
    cases n with
    | zero => exact ht.kind
    | succ n => exact ih n

theorem kind (h : s.Alike s') : s.kind = s'.kind := h.kindAt 0

theorem budget (h : s.Alike s') : s.budget = s'.budget := congrArg (· + 1) h.rest.length_eq

theorem span (h : s.Alike s') : s.span = s'.span := by
  rw [ParseState.span, ParseState.span]
  rcases h.token? with ⟨hs, hs'⟩ | ⟨t, t', hs, hs', ht⟩ <;> rw [hs, hs']
  exact ht.span

theorem lower_text (h : s.Alike s') : Ascii.lower s.text = Ascii.lower s'.text := by
  rw [ParseState.text, ParseState.text]
  rcases h.token? with ⟨hs, hs'⟩ | ⟨t, t', hs, hs', ht⟩ <;> rw [hs, hs']
  exact ht.lower

theorem text_of_isQuoted (h : s.Alike s') (hk : s.kind.isQuoted) : s.text = s'.text := by
  obtain ⟨passed, rest, _⟩ := s
  obtain ⟨passed', rest', _⟩ := s'
  obtain ⟨-, hrest, -⟩ := h
  cases hrest with
  | nil => cases hk
  | cons ht _ => exact ht.text hk

theorem lastSpan (h : s.Alike s') : s.lastSpan = s'.lastSpan := by
  have hspan := h.span
  obtain ⟨passed, rest, _⟩ := s
  obtain ⟨passed', rest', _⟩ := s'
  obtain ⟨hpassed, -, -⟩ := h
  cases hpassed with
  | nil => exact hspan
  | cons ht _ => exact ht.span

theorem all_last (h : s.Alike s') (p : TokenKind → Bool) :
    s.passed.head?.all (fun t => p t.kind) = s'.passed.head?.all fun t => p t.kind := by
  obtain ⟨passed, _, _⟩ := s
  obtain ⟨passed', _, _⟩ := s'
  obtain ⟨hpassed, -, -⟩ := h
  cases hpassed with
  | nil => rfl
  | cons ht _ => exact congrArg p ht.kind

theorem advance (h : s.Alike s') : s.advance.Alike s'.advance := by
  obtain ⟨passed, rest, reported⟩ := s
  obtain ⟨passed', rest', reported'⟩ := s'
  obtain ⟨hpassed, hrest, hreported⟩ := h
  cases hrest with
  | nil => exact ⟨hpassed, .nil, hreported⟩
  | @cons t t' ts ts' ht hts =>
    simp only [ParseState.advance, ht.kind]
    split
    · exact ⟨hpassed, .cons ht hts, hreported⟩
    · exact ⟨.cons ht hpassed, hts, hreported⟩

theorem report (h : s.Alike s') {d d' : Diagnostic} (hd : d.Alike d') : (s.report d).Alike (s'.report d') :=
  ⟨h.passed, h.rest, .cons hd h.reported⟩

end ParseState.Alike

namespace Parse
variable {α β : Type}

/-- From states that are alike two rules give the same and come to states that are alike. -/
def Alike (p q : Parse α) : Prop :=
  ∀ s s', s.Alike s' → (p s).1 = (q s').1 ∧ (p s).2.Alike (q s').2

/-- A rule that does not see the case of letters. -/
def Blind (p : Parse α) : Prop := Alike p p

theorem Alike.bind {p q : Parse α} {f g : α → Parse β} (hp : Alike p q) (hf : ∀ a, Alike (f a) (g a)) :
    Alike (p >>= f) (q >>= g) := by
  intro s s' hs
  obtain ⟨hsame, halike⟩ := hp s s' hs
  rcases hps : p s with ⟨_ | a, t⟩ <;> rcases hqs : q s' with ⟨_ | b, t'⟩ <;> rw [hps, hqs] at hsame halike
  · rw [run_bind_none hps, run_bind_none hqs]
    exact ⟨rfl, halike⟩
  · cases hsame
  · cases hsame
  · obtain rfl := Option.some.inj hsame
    rw [run_bind_some hps, run_bind_some hqs]
    exact hf a t t' halike

theorem Alike.fail (e e' : SyntaxError) (span : Span) (he : e.code = e'.code) :
    Alike (fail e span : Parse α) (fail e' span) :=
  fun _ _ hs => ⟨rfl, hs.report ⟨he, rfl⟩⟩

/-- The words of a fault may differ. -/
theorem Alike.unsupported (what what' : String) :
    Alike (unsupported what : Parse α) (unsupported what') := by
  intro s s' hs
  have hspan := hs.span
  exact ⟨rfl, hs.report ⟨rfl, hspan⟩⟩

namespace Blind
variable {p : Parse α} {f : α → Parse β}

theorem pure (a : α) : Blind (Pure.pure a : Parse α) := fun _ _ hs => ⟨rfl, hs⟩

theorem bind (hp : Blind p) (hf : ∀ a, Blind (f a)) : Blind (p >>= f) := Alike.bind hp hf

theorem ite {c : Prop} [Decidable c] {q : Parse α} (hp : Blind p) (hq : Blind q) :
    Blind (if c then p else q) := by
  by_cases hc : c
  · rwa [if_pos hc]
  · rwa [if_neg hc]

theorem failure : Blind (Alternative.failure : Parse α) := fun _ _ hs => ⟨rfl, hs⟩

theorem attempt (hp : Blind p) : Blind (Parse.attempt p) := fun s s' hs =>
  ⟨congrArg some (hp s s' hs).1, (hp s s' hs).2⟩

/-- A rule that looks at the state first. -/
theorem get {f : ParseState → Parse α} (h : ∀ s s', s.Alike s' → Alike (f s) (f s')) :
    Blind (MonadState.get >>= f) := fun s s' hs => h s s' hs s s' hs

theorem fueled {p : Nat → Parse α} (h : ∀ n, Blind (p n)) : Blind (Parse.fueled p) :=
  get fun s s' hs => by rw [hs.budget]; exact h _

theorem fail (e : SyntaxError) (span : Span) : Blind (Parse.fail e span : Parse α) :=
  Alike.fail e e span rfl

theorem expected (what : String) : Blind (Parse.expected what : Parse α) :=
  get fun s s' hs => by rw [hs.span]; exact Alike.fail _ _ _ rfl

theorem unsupported (what : String) : Blind (Parse.unsupported what : Parse α) :=
  get fun s s' hs => by rw [hs.span]; exact fail _ _

theorem kind : Blind Parse.kind := get fun s s' hs => by rw [hs.kind]; exact pure _

theorem kindAt (n : Nat) : Blind (Parse.kindAt n) := get fun s s' hs => by rw [hs.kindAt]; exact pure _

theorem span : Blind Parse.span := get fun s s' hs => by rw [hs.span]; exact pure _

theorem lastSpan : Blind Parse.lastSpan := get fun s s' hs => by rw [hs.lastSpan]; exact pure _

theorem advance : Blind Parse.advance := fun _ _ hs => ⟨rfl, hs.advance⟩

theorem atKind (k : TokenKind) : Blind (Parse.atKind k) := get fun s s' hs => by rw [hs.kind]; exact pure _

theorem eat (k : TokenKind) : Blind (Parse.eat k) :=
  (atKind k).bind fun _ => .ite (advance.bind fun _ => pure _) (pure _)

theorem eatWord (w : Keyword) : Blind (Parse.eatWord w) := eat _

theorem eatSign (s : Symbol) : Blind (Parse.eatSign s) := eat _

theorem expect (k : TokenKind) : Blind (Parse.expect k) := by
  refine get fun s s' hs => ?_
  rw [hs.kind, hs.span]
  exact ite (advance.bind fun _ => pure _) (expected _)

theorem expectWord (w : Keyword) : Blind (Parse.expectWord w) := expect _

theorem expectSign (s : Symbol) : Blind (Parse.expectSign s) := expect _

theorem ident : Blind Parse.ident := by
  refine get fun s s' hs => ?_
  rw [hs.kind, hs.span, hs.lower_text]
  exact ite (advance.bind fun _ => pure _) (expected _)

theorem name : Blind Parse.name := ident.bind fun _ => pure _

theorem eatName : Blind Parse.eatName := (eat _).bind fun _ => pure _

theorem atDirection : Blind Parse.atDirection := kind.bind fun _ => pure _

theorem atLabel : Blind Parse.atLabel := get fun s s' hs => by rw [hs.kind, hs.kindAt]; exact pure _

theorem moreAt (sep : Symbol) {item : Parse α} (hitem : Blind item) (n : Nat) :
    Blind (Parse.moreAt sep item n) := by
  induction n with
  | zero => exact pure _
  | succ n ih =>
    exact (eatSign sep).bind fun _ => .ite (hitem.bind fun _ => ih.bind fun _ => pure _) (pure _)

theorem separated (sep : Symbol) {item : Parse α} (hitem : Blind item) :
    Blind (Parse.separated sep item) :=
  hitem.bind fun _ => (fueled (moreAt sep hitem)).bind fun _ => pure _

theorem names : Blind Parse.names := separated _ name

theorem finishEnd (w : Keyword) : Blind (Parse.finishEnd w) :=
  (eatWord w).bind fun _ => eatName.bind fun _ => (expectSign _).bind fun _ => pure _

/-! ### Skipping -/

theorem skipUntilAt {stop : ParseState → Bool} (hstop : ∀ s s', s.Alike s' → stop s = stop s') (n : Nat) :
    Blind (Parse.skipUntilAt stop n) := by
  induction n with
  | zero => exact pure _
  | succ n ih =>
    refine get fun s s' hs => ?_
    rw [hs.kind, hstop s s' hs]
    exact ite (pure _) (advance.bind fun _ => ih)

theorem skipUntil {stop : ParseState → Bool} (hstop : ∀ s s', s.Alike s' → stop s = stop s') :
    Blind (Parse.skipUntil stop) := fueled (skipUntilAt hstop)

theorem skipSentence : Blind Parse.skipSentence :=
  (skipUntil fun _ _ hs => by rw [hs.kind]).bind fun _ => (eatSign _).bind fun _ => pure _

theorem skipPastEnd (w : Keyword) : Blind (Parse.skipPastEnd w) := by
  refine (skipUntil fun _ _ hs => by rw [hs.kind, hs.kindAt]).bind fun _ => get fun s s' hs => ?_
  rw [hs.kind]
  exact ite (pure _) (advance.bind fun _ => skipSentence)

theorem skipToUnit : Blind Parse.skipToUnit :=
  advance.bind fun _ => skipUntil fun _ _ hs => by
    rw [startsUnit, startsUnit, hs.kind, hs.all_last fun k => k != .keyword .kwEnd]

/-! ### Expressions -/

section
variable {expr : Parse Expr} (hexpr : Blind expr)
include hexpr

theorem rangeAfter (left : Expr) : Blind (Parse.rangeAfter expr left) := by
  refine (eatWord _).bind fun _ => ite (hexpr.bind fun _ => pure _) ?_
  exact (eatWord _).bind fun _ => ite (hexpr.bind fun _ => pure _) (expected _)

omit hexpr in
theorem attributeAfter (base : Ident) : Blind (Parse.attributeAfter base) := by
  refine get fun s s' hs => ?_
  rw [hs.kind, hs.lower_text, hs.span]
  exact ite (unsupported _) (ite (advance.bind fun _ => pure _) (expected _))

theorem argumentsAfter (base : Ident) : Blind (Parse.argumentsAfter expr base) := by
  refine hexpr.bind fun first => atDirection.bind fun _ => ite ?_ ?_
  · exact (rangeAfter hexpr first).bind fun _ => (expectSign _).bind fun _ => pure _
  · refine (atKind _).bind fun _ => ite (unsupported _) ?_
    exact (fueled (moreAt _ hexpr)).bind fun _ => (expectSign _).bind fun _ => pure _

theorem nameExpr : Blind (Parse.nameExpr expr) := by
  refine ident.bind fun i => ite (pure _) (ite (pure _) ?_)
  refine (atKind _).bind fun _ => ite (unsupported _) ?_
  refine (eatSign _).bind fun _ => ite (attributeAfter i) ?_
  exact (eatSign _).bind fun _ => ite (argumentsAfter hexpr i) (pure _)

theorem element : Blind (Parse.element expr) := by
  refine (eatWord _).bind fun _ => ite ?_ ?_
  · exact (expectSign _).bind fun _ => hexpr.bind fun _ => pure _
  · refine hexpr.bind fun _ => (eatSign _).bind fun _ => ite (hexpr.bind fun _ => pure _) ?_
    exact (atKind _).bind fun _ => ite (span.bind fun _ => fail _ _) (pure _)

theorem parenExpr : Blind (Parse.parenExpr expr) := by
  refine (expectSign _).bind fun _ => (separated _ (element hexpr)).bind fun elements =>
    (expectSign _).bind fun _ => ?_
  split
  · exact pure _
  · exact pure _

omit hexpr in
theorem intExpr : Blind Parse.intExpr := by
  refine get fun s s' hs => ?_
  have hvalue : Literal.value? s.text.toList = Literal.value? s'.text.toList := by
    rw [← Literal.value?_toLower, ← Ascii.toList_lower, hs.lower_text, Ascii.toList_lower,
      Literal.value?_toLower]
  rw [hvalue, hs.span]
  split
  · exact advance.bind fun _ => pure _
  · exact fail _ _

/-- The text of a token goes into an expression only if it is a literal, and then it is the same. -/
theorem primary : Blind (Parse.primary expr) := by
  refine get fun s s' hs => ?_
  have htext := hs.text_of_isQuoted
  rw [hs.kind] at htext ⊢
  rw [hs.span]
  split
  · exact intExpr
  · exact unsupported _
  · rename_i hkind
    rw [htext (hkind ▸ rfl)]
    exact advance.bind fun _ => pure _
  · rename_i hkind
    rw [htext (hkind ▸ rfl)]
    exact advance.bind fun _ => pure _
  · rename_i hkind
    rw [htext (hkind ▸ rfl)]
    exact advance.bind fun _ => pure _
  · exact nameExpr hexpr
  · exact parenExpr hexpr
  · exact expected _

end

theorem operand {expr : Nat → Parse Expr} (hexpr : ∀ n, Blind (expr n)) : Blind (Parse.operand expr) := by
  refine get fun s s' hs => ?_
  rw [hs.kind, hs.span]
  split
  · exact advance.bind fun _ => (hexpr _).bind fun _ => pure _
  · exact primary (hexpr _)

theorem climb {expr : Nat → Parse Expr} (hexpr : ∀ n, Blind (expr n)) (least n : Nat) (lhs : Expr) :
    Blind (Parse.climb expr least n lhs) := by
  induction n generalizing lhs with
  | zero => exact pure _
  | succ n ih =>
    refine kind.bind fun k => ?_
    split
    · exact pure _
    · exact ite (pure _) (advance.bind fun _ => (hexpr _).bind fun rhs => ih _)

theorem exprAt (n least : Nat) : Blind (Parse.exprAt n least) := by
  induction n generalizing least with
  | zero => exact failure
  | succ n ih => exact (operand ih).bind fun lhs => climb ih least n lhs

theorem expr : Blind Parse.expr := fueled fun n => exprAt n _

theorem range : Blind Parse.range := expr.bind fun left => rangeAfter expr left

/-! ### Declarations -/

theorem subtype : Blind Parse.subtype := by
  refine span.bind fun _ => name.bind fun _ => (eatSign _).bind fun _ => ite ?_ ?_
  · exact range.bind fun _ => (expectSign _).bind fun _ => (pure _).bind fun _ =>
      lastSpan.bind fun _ => pure _
  · refine (eatWord _).bind fun _ => ite (range.bind fun _ => ?_) ?_
    all_goals exact (pure _).bind fun _ => lastSpan.bind fun _ => pure _

theorem initial : Blind Parse.initial :=
  (eatSign _).bind fun _ => ite (expr.bind fun _ => pure _) (pure _)

theorem genericType : Blind Parse.genericType := by
  refine get fun s s' hs => ?_
  rw [hs.lower_text, hs.kind]
  split
  iterate 4 exact advance.bind fun _ => pure _
  · by_cases hname : (s'.kind == .identifier) = true
    · rw [if_pos hname, if_pos hname]
      exact Alike.unsupported _ _
    · rw [if_neg hname, if_neg hname]
      exact expected _

theorem genericGroup : Blind Parse.genericGroup := by
  refine (eatWord _).bind fun _ => span.bind fun _ => names.bind fun _ => (expectSign _).bind fun _ =>
    genericType.bind fun _ => (eatWord _).bind fun _ => ite (range.bind fun _ => ?_) ?_
  all_goals exact initial.bind fun _ => lastSpan.bind fun _ => pure _

theorem mode : Blind Parse.mode := by
  refine kind.bind fun k => ?_
  split
  iterate 4 exact advance.bind fun _ => pure _
  · exact pure _

theorem portGroup : Blind Parse.portGroup :=
  (eatWord _).bind fun _ => span.bind fun _ => names.bind fun _ => (expectSign _).bind fun _ =>
    mode.bind fun _ => subtype.bind fun _ => initial.bind fun _ => lastSpan.bind fun _ => pure _

theorem interface (word : Keyword) {group : Parse (List α)} (hgroup : Blind group) :
    Blind (Parse.interface word group) :=
  (expectWord _).bind fun _ => (expectSign _).bind fun _ => (separated _ hgroup).bind fun _ =>
    (expectSign _).bind fun _ => (expectSign _).bind fun _ => pure _

theorem generics : Blind Parse.generics := interface _ genericGroup

theorem ports : Blind Parse.ports := interface _ portGroup

theorem signalDecl (start : Span) : Blind (Parse.signalDecl start) :=
  names.bind fun _ => (expectSign _).bind fun _ => subtype.bind fun _ => initial.bind fun _ =>
    (expectSign _).bind fun _ => lastSpan.bind fun _ => pure _

theorem constantDecl (start : Span) : Blind (Parse.constantDecl start) :=
  names.bind fun _ => (expectSign _).bind fun _ => subtype.bind fun _ => (expectSign _).bind fun _ =>
    expr.bind fun _ => (expectSign _).bind fun _ => lastSpan.bind fun _ => pure _

theorem enumerationDecl (start : Span) : Blind (Parse.enumerationDecl start) := by
  refine name.bind fun _ => (expectWord _).bind fun _ => (eatSign _).bind fun _ => ite ?_ (unsupported _)
  exact names.bind fun _ => (expectSign _).bind fun _ => (expectSign _).bind fun _ =>
    lastSpan.bind fun _ => pure _

theorem decl : Blind Parse.decl := by
  refine get fun s s' hs => ?_
  rw [hs.kind, hs.span]
  split
  · exact advance.bind fun _ => signalDecl _
  · exact advance.bind fun _ => constantDecl _
  · exact advance.bind fun _ => enumerationDecl _
  · exact (skipPastEnd _).bind fun _ => pure _
  · exact unsupported _
  · exact expected _

theorem declsAt (n : Nat) : Blind (Parse.declsAt n) := by
  induction n with
  | zero => exact pure _
  | succ n ih =>
    refine get fun s s' hs => ?_
    rw [hs.kind]
    refine ite (pure _) (decl.attempt.bind fun ds => ?_)
    split
    · exact ih.bind fun _ => pure _
    · exact skipSentence.bind fun _ => ih

theorem decls : Blind Parse.decls := fueled declsAt

/-! ### Statements of a process -/

theorem target : Blind Parse.target := by
  refine ident.bind fun i => (eatSign _).bind fun _ => ite ?_ (pure _)
  refine expr.bind fun first => atDirection.bind fun _ => ite ?_ ?_
  · exact (rangeAfter expr first).bind fun _ => (expectSign _).bind fun _ => pure _
  · exact (expectSign _).bind fun _ => pure _

theorem skipDelay : Blind Parse.skipDelay :=
  (eatWord _).bind fun _ => ite (skipUntil fun _ _ hs => by rw [hs.kind]) (pure _)

theorem delayedValue : Blind Parse.delayedValue :=
  span.bind fun _ => expr.bind fun _ => skipDelay.bind fun _ => lastSpan.bind fun _ => pure _

theorem alternativesAt (target : Target) (n : Nat) (v : Expr × Span) :
    Blind (Parse.alternativesAt target n v) := by
  induction n generalizing v with
  | zero => exact pure _
  | succ n ih =>
    refine (eatWord _).bind fun _ => ite ?_ (pure _)
    refine expr.bind fun _ => (eatWord _).bind fun _ => ite ?_ (pure _)
    exact delayedValue.bind fun w => (ih w).bind fun _ => pure _

theorem assignAfter (target : Target) (start : Span) : Blind (Parse.assignAfter target start) := by
  refine delayedValue.bind fun v => (atKind _).bind fun _ => ite ?_ ?_
  · exact (fueled fun n => alternativesAt target n _).bind fun _ => (expectSign _).bind fun _ =>
      lastSpan.bind fun _ => pure _
  · exact (expectSign _).bind fun _ => lastSpan.bind fun _ => pure _

theorem choice : Blind Parse.choice :=
  expr.bind fun _ => atDirection.bind fun _ => ite (unsupported _)
    ((atKind _).bind fun _ => ite (unsupported _) (pure _))

theorem choices : Blind Parse.choices := separated _ choice

theorem blockAt {stmt : Parse Stmt} (hstmt : Blind stmt) (n : Nat) : Blind (Parse.blockAt stmt n) := by
  induction n with
  | zero => exact pure _
  | succ n ih =>
    refine kind.bind fun _ => ite (pure _) (hstmt.attempt.bind fun s => ?_)
    split
    · exact ih.bind fun _ => pure _
    · exact skipSentence.bind fun _ => ih

section
variable {block : Parse (List Stmt)} (hblock : Blind block)
include hblock

theorem branchesAt (n : Nat) : Blind (Parse.branchesAt block n) := by
  induction n with
  | zero => exact pure _
  | succ n ih =>
    exact expr.bind fun _ => (expectWord _).bind fun _ => hblock.bind fun _ => (eatWord _).bind fun _ =>
      ite (ih.bind fun _ => pure _) (pure _)

theorem ifStmt : Blind (Parse.ifStmt block) := by
  refine (expectWord _).bind fun _ => (fueled (branchesAt hblock)).bind fun _ => (eatWord _).bind fun _ =>
    ite (hblock.bind fun _ => ?_) ?_
  all_goals
    exact (expectWord _).bind fun _ => (expectWord _).bind fun _ => eatName.bind fun _ =>
      (expectSign _).bind fun _ => lastSpan.bind fun _ => pure _

theorem armsAt (n : Nat) (others : Option (List Stmt)) : Blind (Parse.armsAt block n others) := by
  induction n generalizing others with
  | zero => exact pure _
  | succ n ih =>
    refine span.bind fun _ => (eatWord _).bind fun _ => ite ((eatWord _).bind fun _ => ite ?_ ?_) (pure _)
    · exact (expectSign _).bind fun _ => hblock.bind fun b => ih (some b)
    · exact choices.bind fun _ => (expectSign _).bind fun _ => hblock.bind fun _ => lastSpan.bind fun _ =>
        (ih others).bind fun _ => pure _

theorem caseStmt : Blind (Parse.caseStmt block) :=
  (expectWord _).bind fun _ => expr.bind fun _ => (expectWord _).bind fun _ =>
    (fueled fun n => armsAt hblock n none).bind fun _ => (expectWord _).bind fun _ =>
      (expectWord _).bind fun _ => eatName.bind fun _ => (expectSign _).bind fun _ =>
        lastSpan.bind fun _ => pure _

omit hblock in
theorem assignStmt : Blind Parse.assignStmt := by
  refine span.bind fun start => target.bind fun t => kind.bind fun k => ?_
  split
  · exact advance.bind fun _ => assignAfter t start
  · exact unsupported _
  · exact expected _

omit hblock in
theorem nullStmt : Blind Parse.nullStmt :=
  (expectWord _).bind fun _ => (expectSign _).bind fun _ => lastSpan.bind fun _ => pure _

omit hblock in
theorem skipLabel : Blind Parse.skipLabel :=
  atLabel.bind fun _ => ite (advance.bind fun _ => advance) (pure _)

theorem stmtOf : Blind (Parse.stmtOf block) := by
  refine skipLabel.bind fun _ => kind.bind fun k => ?_
  split
  · exact ifStmt hblock
  · exact caseStmt hblock
  · exact nullStmt
  · exact assignStmt
  · exact unsupported _
  · exact unsupported _
  · exact expected _

end

theorem nestedBlockAt (n : Nat) : Blind (Parse.nestedBlockAt n) := by
  induction n with
  | zero => exact pure _
  | succ n ih => exact fueled (blockAt (stmtOf ih))

theorem block : Blind Parse.block := fueled nestedBlockAt

/-! ### Statements of an architecture -/

theorem sensitivity : Blind Parse.sensitivity := by
  refine (eatSign _).bind fun _ => ite ((eatWord _).bind fun _ => ite ?_ ?_) (pure _)
  · exact (expectSign _).bind fun _ => pure _
  · exact (separated _ ident).bind fun _ => (expectSign _).bind fun _ => pure _

theorem beginProcess : Blind Parse.beginProcess := by
  refine kind.bind fun k => ?_
  split
  · exact advance
  iterate 4 exact unsupported _
  · exact expected _

theorem process (label : Option String) (start : Span) : Blind (Parse.process label start) :=
  (expectWord _).bind fun _ => sensitivity.bind fun _ => (eatWord _).bind fun _ =>
    beginProcess.bind fun _ => block.bind fun _ => (expectWord _).bind fun _ =>
      (expectWord _).bind fun _ => eatName.bind fun _ => (expectSign _).bind fun _ =>
        lastSpan.bind fun _ => pure _

theorem association : Blind Parse.association := by
  refine get fun s s' hs => ?_
  rw [hs.kind, hs.kindAt, hs.span]
  refine ite (ident.bind fun _ => advance.bind fun _ => ?_) ?_
  all_goals
    refine (eatWord _).bind fun _ => ite ?_ (expr.bind fun _ => ?_)
    all_goals exact (pure _).bind fun _ => lastSpan.bind fun _ => pure _

theorem mapClause (word : Keyword) : Blind (Parse.mapClause word) := by
  refine (eatWord _).bind fun _ => ite ?_ (pure _)
  exact (expectWord _).bind fun _ => (expectSign _).bind fun _ =>
    (separated _ association).bind fun _ => (expectSign _).bind fun _ => pure _

theorem instanceAfter (label entity : String) (architecture : Option String) (start : Span) :
    Blind (Parse.instanceAfter label entity architecture start) :=
  (mapClause _).bind fun _ => (mapClause _).bind fun _ => (expectSign _).bind fun _ =>
    lastSpan.bind fun _ => pure _

theorem requireLabel (label : Option String) (start : Span) : Blind (Parse.requireLabel label start) := by
  cases label with
  | none => exact fail _ _
  | some l => exact pure _

theorem entityInstance (label : Option String) (start : Span) :
    Blind (Parse.entityInstance label start) := by
  refine (requireLabel label start).bind fun l => (expectWord _).bind fun _ => name.bind fun _ =>
    (eatSign _).bind fun _ => ite (name.bind fun entity => ?_) ?_
  all_goals
    refine (eatSign _).bind fun _ => ite ?_ (instanceAfter _ _ _ _)
    exact name.bind fun _ => (expectSign _).bind fun _ => instanceAfter _ _ _ _

theorem componentInstance (label : Option String) (start : Span) :
    Blind (Parse.componentInstance label start) :=
  (requireLabel label start).bind fun l => (eatWord _).bind fun _ => name.bind fun entity =>
    instanceAfter l entity none start

theorem selectedAt (target : Target) (n : Nat) (others : Option (List Stmt)) :
    Blind (Parse.selectedAt target n others) := by
  induction n generalizing others with
  | zero => exact pure _
  | succ n ih =>
    refine span.bind fun _ => delayedValue.bind fun _ => (expectWord _).bind fun _ =>
      (eatWord _).bind fun _ => ite ?_ ?_
    · exact (eatSign _).bind fun _ => ite (ih _) (pure _)
    · refine choices.bind fun _ => lastSpan.bind fun _ => (eatSign _).bind fun _ => ite ?_ (pure _)
      exact (ih _).bind fun _ => pure _

theorem selectedAssign (label : Option String) (start : Span) : Blind (Parse.selectedAssign label start) :=
  (expectWord _).bind fun _ => expr.bind fun _ => (expectWord _).bind fun _ => target.bind fun t =>
    (expectSign _).bind fun _ => (fueled fun n => selectedAt t n none).bind fun _ =>
      (expectSign _).bind fun _ => lastSpan.bind fun _ => pure _

theorem concurrentAssign (label : Option String) (start : Span) :
    Blind (Parse.concurrentAssign label start) :=
  target.bind fun t => (expectSign _).bind fun _ => (assignAfter t start).bind fun _ =>
    lastSpan.bind fun _ => pure _

theorem label? : Blind Parse.label? :=
  atLabel.bind fun _ => ite (name.bind fun _ => advance.bind fun _ => pure _) (pure _)

theorem headKind : Blind Parse.headKind := atLabel.bind fun _ => ite (kindAt 2) kind

theorem skipConcurrent (head : TokenKind) : Blind (Parse.skipConcurrent head) := by
  unfold Parse.skipConcurrent
  split
  · exact skipPastEnd _
  · exact skipPastEnd _
  · exact skipSentence

section
variable {body : Parse (List Concurrent)} (hbody : Blind body)
include hbody

theorem generate (label : Option String) (start : Span) : Blind (Parse.generate body label start) := by
  refine (requireLabel label start).bind fun l => (expectWord _).bind fun _ => name.bind fun var =>
    (expectWord _).bind fun _ => range.bind fun r => (expectWord _).bind fun _ => kind.bind fun k => ?_
  have hrest : ∀ ds : List Decl, Blind (do
      let stmts ← body
      let _ ← Parse.expectWord .kwEnd
      let _ ← Parse.expectWord .kwGenerate
      Parse.eatName
      let _ ← Parse.expectSign .semicolon
      return Concurrent.generate ⟨l, var, r, ds, stmts, start.cover (← Parse.lastSpan)⟩) :=
    fun _ => hbody.bind fun _ => (expectWord _).bind fun _ => (expectWord _).bind fun _ =>
      eatName.bind fun _ => (expectSign _).bind fun _ => lastSpan.bind fun _ => pure _
  split
  case h_5 => exact (eatWord _).bind fun _ => (pure _).bind hrest
  all_goals exact decls.bind fun _ => (expectWord _).bind fun _ => (pure _).bind hrest

theorem concurrentOf : Blind (Parse.concurrentOf body) := by
  refine span.bind fun start => label?.bind fun label => get fun s s' hs => ?_
  rw [hs.kind, hs.kindAt]
  split
  · exact (process label start).bind fun _ => pure _
  · exact entityInstance label start
  · exact componentInstance label start
  · exact generate hbody label start
  · exact unsupported _
  · exact (selectedAssign label start).bind fun _ => pure _
  · exact ite (componentInstance label start) ((concurrentAssign label start).bind fun _ => pure _)
  · exact expected _

end

theorem concurrentsAt {stmt : Parse Concurrent} (hstmt : Blind stmt) (n : Nat) :
    Blind (Parse.concurrentsAt stmt n) := by
  induction n with
  | zero => exact pure _
  | succ n ih =>
    refine get fun s s' hs => ?_
    rw [hs.kind]
    refine ite (pure _) (headKind.bind fun head => hstmt.attempt.bind fun c => ?_)
    split
    · exact ih.bind fun _ => pure _
    · exact (skipConcurrent head).bind fun _ => ih

theorem nestedConcurrentsAt (n : Nat) : Blind (Parse.nestedConcurrentsAt n) := by
  induction n with
  | zero => exact pure _
  | succ n ih => exact fueled (concurrentsAt (concurrentOf ih))

theorem concurrents : Blind Parse.concurrents := fueled nestedConcurrentsAt

/-! ### Units -/

theorem entity : Blind Parse.entity := by
  refine (expectWord _).bind fun start => name.bind fun n => (expectWord _).bind fun _ =>
    (atKind _).bind fun _ => ?_
  have hend : ∀ (gs : List Generic) (ps : List Port), Blind (do
      if ← Parse.atWord .kwBegin then
        Parse.unsupported "entity statement part"
      let _ ← Parse.expectWord .kwEnd
      Parse.finishEnd .kwEntity
      return (⟨n, gs, ps, start.cover (← Parse.lastSpan)⟩ : Entity)) := by
    intro gs ps
    refine (atKind _).bind fun _ => ite ((unsupported _).bind fun _ => ?_) ?_
    all_goals
      exact (expectWord _).bind fun _ => (finishEnd _).bind fun _ => lastSpan.bind fun _ => pure _
  have hports : ∀ gs : List Generic, Blind (do
      let ps ← if ← Parse.atWord .kwPort then Parse.ports else Pure.pure []
      if ← Parse.atWord .kwBegin then
        Parse.unsupported "entity statement part"
      let _ ← Parse.expectWord .kwEnd
      Parse.finishEnd .kwEntity
      return (⟨n, gs, ps, start.cover (← Parse.lastSpan)⟩ : Entity)) :=
    fun gs => (atKind _).bind fun _ => ite (ports.bind fun ps => hend gs ps) (hend gs [])
  exact ite (generics.bind fun gs => hports gs) (hports [])

theorem architecture : Blind Parse.architecture :=
  (expectWord _).bind fun _ => name.bind fun _ => (expectWord _).bind fun _ => name.bind fun _ =>
    (expectWord _).bind fun _ => decls.bind fun _ => (expectWord _).bind fun _ =>
      concurrents.bind fun _ => (expectWord _).bind fun _ => (finishEnd _).bind fun _ =>
        lastSpan.bind fun _ => pure _

theorem unit : Blind Parse.unit := by
  have hskip : Blind (do Parse.skipToUnit; return ({} : Library)) := skipToUnit.bind fun _ => pure _
  refine kind.bind fun k => ?_
  split
  iterate 2 exact skipSentence.bind fun _ => pure _
  · refine entity.attempt.bind fun e => ?_
    split
    · exact pure _
    · exact hskip
  · refine architecture.attempt.bind fun a => ?_
    split
    · exact pure _
    · exact hskip
  · exact (unsupported _).attempt.bind fun _ => hskip
  · exact (expected _).attempt.bind fun _ => hskip

theorem unitsAt (n : Nat) : Blind (Parse.unitsAt n) := by
  induction n with
  | zero => exact pure _
  | succ n ih =>
    exact kind.bind fun _ => ite (pure _) (unit.bind fun _ => ih.bind fun _ => pure _)

theorem units : Blind Parse.units := fueled unitsAt

end Blind

end Parse

/-! ### Texts -/

theorem parse_eq (file : Nat) (text : String) : parse file text =
    ((Parse.units (.init (Lexer.lex file text).1)).1.getD {},
      (Lexer.lex file text).2 ++ (Parse.units (.init (Lexer.lex file text).1)).2.reported.reverse) := by
  unfold parse parseTokens
  rcases Lexer.lex file text with ⟨tokens, faults⟩
  dsimp only
  rcases Parse.units (.init tokens) with ⟨units, s⟩
  rfl

/-- Texts that differ in the case of letters only, and not in literals, have tokens of the same kinds at
the same places, form the same units, and have the same faults at the same places. -/
theorem parse_respelled {file : Nat} {t u : String} (h : Lexer.Respelled file t u) :
    (Lexer.lex file t).1.map (fun k => (k.kind, k.span)) =
      (Lexer.lex file u).1.map (fun k => (k.kind, k.span)) ∧
    (parse file t).1 = (parse file u).1 ∧
    (parse file t).2.map (fun d => (d.code, d.span)) = (parse file u).2.map fun d => (d.code, d.span) := by
  have htokens := Lexer.tokens_alike h
  have hinit : (ParseState.init (Lexer.lex file t).1).Alike (.init (Lexer.lex file u).1) :=
    ⟨.nil, htokens, .nil⟩
  obtain ⟨hunits, hend⟩ := Parse.Blind.units _ _ hinit
  have hfaults := List.rel_append (Lexer.faults_alike h.lower_eq file) (List.rel_reverse hend.reported)
  rw [parse_eq, parse_eq, hunits]
  refine ⟨?_, rfl, ?_⟩
  · rw [← List.forall₂_eq_eq_eq, List.forall₂_map_left_iff, List.forall₂_map_right_iff]
    exact htokens.imp fun _ _ hk => Prod.ext hk.kind hk.span
  · rw [← List.forall₂_eq_eq_eq, List.forall₂_map_left_iff, List.forall₂_map_right_iff]
    exact hfaults.imp fun _ _ hd => Prod.ext hd.code hd.span

/-- An architecture with literals, a fault and a comment. -/
def mixedCase : String :=
  "architecture Rtl of E is begin q <= X\"aF\" & 16#fF# & T'Event; Wait; end; -- Done"

theorem parse_respelled_mixedCase :
    let other := "Architecture rTL Of e Is Begin Q <= X\"aF\" & 16#Ff# & t'eVENT; wAIT; END; -- DONE"
    Lexer.Respelled 0 mixedCase other ∧ (parse 0 mixedCase).1.architectures.length = 1 ∧
    (parse 0 mixedCase).1 = (parse 0 other).1 ∧
    (parse 0 mixedCase).2.map (fun d => (d.code, d.span)) =
      (parse 0 other).2.map fun d => (d.code, d.span) := by
  intro other
  have hrespelled : Lexer.Respelled 0 mixedCase other := by decide +kernel
  obtain ⟨-, hunits, hfaults⟩ := parse_respelled hrespelled
  exact ⟨hrespelled, by decide +kernel, hunits, hfaults⟩

end HdlLint.Syntax
