import HdlLint.Proofs.ProcessTexts

/-!
# The spans of an expression nest

Each node of an expression that is read spans what lies between two of the tokens that were passed
(`Seated`). The spans of its names and sub-expressions are inside of its own, and those of its
sub-expressions stand one behind the other (`Expr.Nests`). Both follow from where the tokens of each part
stand: the rules pass the tokens of one part after those of another, and whatever else they pass, such as
brackets, choices and commas, makes no difference (`Fits`, `Row`). `Parse.expr_nests` says so of all
tokens that are laid out in the order in which they are read, as those of a text are.
-/

namespace HdlLint

/-- The second span lies in the first one. -/
structure Span.Contains (x y : Span) : Prop where
  file_eq : x.file = y.file
  start_le : x.start ≤ y.start
  stop_le : y.stop ≤ x.stop

namespace Syntax

/-! ### Nodes -/

namespace Expr

def parts : Expr → List Expr
  | .int .. | .bool .. | .char .. | .str .. | .name _ | .attribute .. => []
  | .call _ args _ => args
  | .slice _ l _ r _ => [l, r]
  | .unary _ e _ => [e]
  | .binary _ l r _ => [l, r]
  | .aggregate vs _ => vs

/-- The name in a node itself. -/
def idents : Expr → List Ident
  | .name i | .call i _ _ | .slice i _ _ _ _ | .attribute i _ _ => [i]
  | _ => []

/-- The expression itself, and all nodes below it. -/
inductive Inside : Expr → Expr → Prop
  | self {e : Expr} : Inside e e
  | part {e p n : Expr} : p ∈ e.parts → Inside p n → Inside e n

/-- The node spans its names and its sub-expressions, which stand one behind the other. -/
structure Nests (n : Expr) : Prop where
  idents : ∀ i ∈ n.idents, n.span.Contains i.span
  parts : ∀ p ∈ n.parts, n.span.Contains p.span
  ordered : n.parts.Pairwise fun p q => p.span.stop ≤ q.span.start

end Expr

/-- The span goes from the start of one of the tokens to the end of one of them, and is not empty. -/
structure Seated (file : Nat) (ts : List Token) (x : Span) : Prop where
  file_eq : x.file = file
  starts : ∃ t ∈ ts, x.start = t.span.start
  stops : ∃ t ∈ ts, x.stop = t.span.stop
  start_lt : x.start < x.stop

namespace Seated
variable {file : Nat} {ts us : List Token} {t : Token} {x y : Span}

theorem mono (h : Seated file ts x) (hsub : ts ⊆ us) : Seated file us x :=
  ⟨h.file_eq, h.starts.imp fun _ ht => ⟨hsub ht.1, ht.2⟩, h.stops.imp fun _ ht => ⟨hsub ht.1, ht.2⟩, h.start_lt⟩

theorem token (h : Laid file ts) (ht : t ∈ ts) : Seated file ts t.span :=
  ⟨h.file_eq t ht, ⟨t, ht, rfl⟩, ⟨t, ht, rfl⟩, h.start_lt t ht⟩

/-- Spans of tokens that stand one behind the other stand so too. -/
theorem stop_le_start (hl : Laid file (ts ++ us)) (hx : Seated file ts x) (hy : Seated file us y) :
    x.stop ≤ y.start := by
  obtain ⟨t, ht, hstop⟩ := hx.stops
  obtain ⟨u, hu, hstart⟩ := hy.starts
  rw [hstop, hstart]
  exact (List.pairwise_append.1 hl.ascending).2.2 t ht u hu

theorem cover_eq (hl : Laid file (ts ++ us)) (hx : Seated file ts x) (hy : Seated file us y) :
    x.cover y = ⟨file, x.start, y.stop⟩ := by
  have hle := stop_le_start hl hx hy
  have hxlt := hx.start_lt
  have hylt := hy.start_lt
  rw [Span.cover, if_pos (hx.file_eq.trans hy.file_eq.symm), hx.file_eq, Nat.min_eq_left (by omega),
    Nat.max_eq_right (by omega)]

theorem cover (hl : Laid file (ts ++ us)) (hx : Seated file ts x) (hy : Seated file us y) :
    Seated file (ts ++ us) (x.cover y) := by
  have hle := stop_le_start hl hx hy
  have hxlt := hx.start_lt
  have hylt := hy.start_lt
  rw [cover_eq hl hx hy]
  refine ⟨rfl, ?_, ?_, by simp only; omega⟩
  · obtain ⟨t, ht, hstart⟩ := hx.starts
    exact ⟨t, List.mem_append_left _ ht, hstart⟩
  · obtain ⟨u, hu, hstop⟩ := hy.stops
    exact ⟨u, List.mem_append_right _ hu, hstop⟩

theorem cover_contains (hl : Laid file (ts ++ us)) (hx : Seated file ts x) (hy : Seated file us y) :
    (x.cover y).Contains x ∧ (x.cover y).Contains y := by
  have hle := stop_le_start hl hx hy
  have hxlt := hx.start_lt
  have hylt := hy.start_lt
  rw [cover_eq hl hx hy]
  exact ⟨⟨hx.file_eq.symm, Nat.le_refl _, by simp only; omega⟩, ⟨hy.file_eq.symm, by simp only; omega, Nat.le_refl _⟩⟩

/-- What is seated on tokens lies between the first and the last of them. -/
theorem between {z : Token} (hl : Laid file (t :: ts)) (hz : (t :: ts).getLast? = some z)
    (hx : Seated file (t :: ts) x) : t.span.start ≤ x.start ∧ x.stop ≤ z.span.stop := by
  obtain ⟨u, hu, hstart⟩ := hx.starts
  obtain ⟨v, hv, hstop⟩ := hx.stops
  rw [hstart, hstop]
  exact ⟨hl.start_le hu, hl.stop_le hz hv⟩

end Seated

/-! ### Expressions and tokens -/

/-- All nodes of the expression are seated on the tokens, and nest. -/
def Fits (file : Nat) (ts : List Token) (e : Expr) : Prop :=
  ∀ n, e.Inside n → Seated file ts n.span ∧ n.Nests

/-- The expressions fit on the tokens and stand one behind the other, if the tokens do. -/
def Row (es : List Expr) (ts : List Token) : Prop :=
  ∀ file, Laid file ts → (∀ e ∈ es, Fits file ts e) ∧ es.Pairwise fun p q => p.span.stop ≤ q.span.start

variable {file : Nat} {ts us vs : List Token} {t c : Token} {e l r : Expr} {es fs : List Expr}

theorem Fits.seated (h : Fits file ts e) : Seated file ts e.span := (h e .self).1

theorem Fits.mono (h : Fits file ts e) (hsub : ts ⊆ us) : Fits file us e :=
  fun n hn => ⟨(h n hn).1.mono hsub, (h n hn).2⟩

/-- A node fits if it does so itself and all its sub-expressions do. -/
theorem Fits.node (hseated : Seated file ts e.span) (hnests : e.Nests) (hparts : ∀ p ∈ e.parts, Fits file ts p) :
    Fits file ts e := by
  intro n hn
  cases hn with
  | self => exact ⟨hseated, hnests⟩
  | part hp hn => exact hparts _ hp n hn

namespace Row

theorem nil : Row [] ts := fun _ _ => ⟨nofun, .nil⟩

theorem append (hes : Row es ts) (hfs : Row fs us) : Row (es ++ fs) (ts ++ us) := by
  intro file hl
  obtain ⟨hes, hesordered⟩ := hes file hl.left
  obtain ⟨hfs, hfsordered⟩ := hfs file hl.right
  constructor
  · intro e he
    rcases List.mem_append.1 he with he | he
    · exact (hes e he).mono (List.subset_append_left ts us)
    · exact (hfs e he).mono (List.subset_append_right ts us)
  · refine List.pairwise_append.2 ⟨hesordered, hfsordered, fun p hp q hq => ?_⟩
    exact (hes p hp).seated.stop_le_start hl (hfs q hq).seated

/-- Other tokens in front make no difference. -/
theorem behind (h : Row es us) (ts : List Token) : Row es (ts ++ us) := nil.append h

theorem before (h : Row es ts) (us : List Token) : Row es (ts ++ us) := by
  have h' : Row (es ++ []) (ts ++ us) := h.append nil
  rwa [List.append_nil] at h'

theorem fits (h : Row [e] ts) (hl : Laid file ts) : Fits file ts e := (h file hl).1 e (List.mem_singleton_self e)

/-- There are tokens wherever there is an expression. -/
theorem ne_nil (h : Row [e] ts) : ts ≠ [] := by
  rintro rfl
  have hl : Laid 0 [] := ⟨nofun, nofun, .nil⟩
  obtain ⟨t, ht, -⟩ := (h.fits hl).seated.starts
  cases ht

theorem single (h : ∀ file, Laid file ts → Fits file ts e) : Row [e] ts :=
  fun file hl => ⟨List.forall_mem_singleton.2 (h file hl), List.pairwise_singleton _ e⟩

/-- A node that is one token. -/
theorem leaf (hparts : e.parts = []) (hidents : ∀ i ∈ e.idents, i.span = e.span) (hspan : e.span = t.span) :
    Row [e] [t] := by
  refine single fun file hl => .node (hspan ▸ .token hl (List.mem_singleton_self t)) ⟨fun i hi => ?_, ?_, ?_⟩ ?_
  · rw [hidents i hi]
    exact ⟨rfl, Nat.le_refl _, Nat.le_refl _⟩
  · simp [hparts]
  · simp [hparts]
  · simp [hparts]

/-- A node from one token to another, with its name, if it has one, at the first of them and its
sub-expressions between the two. -/
theorem enclosed (hspan : e.span = t.span.cover c.span) (hidents : ∀ i ∈ e.idents, i.span = t.span)
    (hparts : Row e.parts us) : Row [e] (t :: (us ++ [c])) := by
  refine single fun file hl => ?_
  have hlast : (t :: (us ++ [c])).getLast? = some c := by
    rw [← List.cons_append, List.getLast?_concat]
  have hcover : e.span = ⟨file, t.span.start, c.span.stop⟩ := by
    rw [hspan, ← hl.spanOf_eq hlast, spanOf, hlast]
    rfl
  have hcontains : ∀ {x}, Seated file (t :: (us ++ [c])) x → e.span.Contains x := by
    intro x hx
    obtain ⟨hstart, hstop⟩ := hx.between hl hlast
    rw [hcover]
    exact ⟨hx.file_eq.symm, hstart, hstop⟩
  have ht : Seated file (t :: (us ++ [c])) t.span := .token hl List.mem_cons_self
  obtain ⟨hall, hordered⟩ := (hparts.before [c]).behind [t] file hl
  refine .node ?_ ⟨fun i hi => ?_, fun p hp => hcontains (hall p hp).seated, hordered⟩ hall
  · have hlt := ht.start_lt
    have hstop := (ht.between hl hlast).2
    rw [hcover]
    exact ⟨rfl, ⟨t, List.mem_cons_self, rfl⟩, ⟨c, by simp, rfl⟩, by simp only; omega⟩
  · rw [hidents i hi]
    exact hcontains ht

/-- A node that covers what is seated on some tokens and what is seated on those behind them. -/
theorem covering {x y : Span} (hspan : e.span = x.cover y) (hidents : e.idents = [])
    (hx : ∀ file, Laid file ts → Seated file ts x) (hy : ∀ file, Laid file us → Seated file us y)
    (hcovered : ∀ p ∈ e.parts, p.span = x ∨ p.span = y) (hparts : Row e.parts (ts ++ us)) :
    Row [e] (ts ++ us) := by
  refine single fun file hl => ?_
  have hx := hx file hl.left
  have hy := hy file hl.right
  obtain ⟨hleft, hright⟩ := hx.cover_contains hl hy
  obtain ⟨hall, hordered⟩ := hparts file hl
  refine .node (hspan ▸ hx.cover hl hy) ⟨by simp [hidents], fun p hp => ?_, hordered⟩ hall
  rcases hcovered p hp with heq | heq
  · rw [hspan, heq]
    exact hleft
  · rw [hspan, heq]
    exact hright

theorem unary {op : UnaryOp} (h : Row [e] us) : Row [.unary op e (t.span.cover e.span)] ([t] ++ us) :=
  covering rfl rfl (fun _ hl => .token hl (List.mem_singleton_self t)) (fun _ hl => (h.fits hl).seated)
    (fun _ hp => .inr (List.mem_singleton.1 hp ▸ rfl)) (h.behind [t])

theorem binary {op : BinaryOp} (hl : Row [l] ts) (hr : Row [r] us) : Row [.join op l r] (ts ++ us) :=
  covering rfl rfl (fun _ h => (hl.fits h).seated) (fun _ h => (hr.fits h).seated)
    (fun _ hp => (List.mem_pair.1 hp).imp (congrArg _) (congrArg _)) (hl.append hr)

end Row

/-! ### Rules -/

namespace Parse
variable {α β : Type}

/-- If the rule gives something from the state `s`, then it passes tokens of which, together with what it
gives, `Q` holds. -/
def GivesAt (s : ParseState) (p : Parse α) (Q : α → List Token → Prop) : Prop :=
  ∀ a s', p s = (some a, s') → ∃ ts, s.rest = ts ++ s'.rest ∧ Q a ts

def Gives (p : Parse α) (Q : α → List Token → Prop) : Prop := ∀ s, GivesAt s p Q

theorem GivesAt.bind {s : ParseState} {p : Parse α} {f : α → Parse β} {Q : α → List Token → Prop}
    {R : β → List Token → Prop} (hp : GivesAt s p Q)
    (hf : ∀ a ts, Q a ts → Gives (f a) fun b us => R b (ts ++ us)) : GivesAt s (p >>= f) R := by
  intro b s'' hrun
  rcases hps : p s with ⟨_ | a, s'⟩
  · rw [run_bind_none hps] at hrun
    cases hrun
  · rw [run_bind_some hps] at hrun
    obtain ⟨ts, hrest, hQ⟩ := hp a s' hps
    obtain ⟨us, hrest', hR⟩ := hf a ts hQ s' b s'' hrun
    exact ⟨ts ++ us, by rw [hrest, hrest', List.append_assoc], hR⟩

theorem GivesAt.get {s : ParseState} {f : ParseState → Parse α} {Q : α → List Token → Prop}
    (h : GivesAt s (f s) Q) : GivesAt s (MonadState.get >>= f) Q := h

namespace Gives
variable {p : Parse α} {f : α → Parse β} {Q Q' : α → List Token → Prop} {R : β → List Token → Prop}

theorem pure {a : α} (h : Q a []) : Gives (Pure.pure a : Parse α) Q := by
  intro s b s' hrun
  cases hrun
  exact ⟨[], rfl, h⟩

theorem bind (hp : Gives p Q) (hf : ∀ a ts, Q a ts → Gives (f a) fun b us => R b (ts ++ us)) :
    Gives (p >>= f) R :=
  fun s => (hp s).bind hf

theorem post (h : Gives p Q) (hQ : ∀ a ts, Q a ts → Q' a ts) : Gives p Q' := by
  intro s a s' hrun
  obtain ⟨ts, hrest, hts⟩ := h s a s' hrun
  exact ⟨ts, hrest, hQ a ts hts⟩

theorem map {g : α → β} (h : Gives p Q) (hR : ∀ a ts, Q a ts → R (g a) ts) :
    Gives (p >>= fun a => Pure.pure (g a)) R := by
  refine h.bind fun a ts hts => pure ?_
  rw [List.append_nil]
  exact hR a ts hts

theorem ite {c : Prop} [Decidable c] {q : Parse α} (hp : Gives p Q) (hq : Gives q Q) :
    Gives (if c then p else q) Q := by
  split_ifs
  · exact hp
  · exact hq

theorem get {f : ParseState → Parse α} (h : ∀ s, GivesAt s (f s) Q) : Gives (MonadState.get >>= f) Q := h

theorem of_none (h : ∀ s, (p s).1 = none) : Gives p Q := by
  intro s a s' hrun
  have hnone := h s
  rw [hrun] at hnone
  cases hnone

theorem expected (what : String) : Gives (Parse.expected what : Parse α) Q := of_none fun _ => rfl

theorem unsupported (what : String) : Gives (Parse.unsupported what : Parse α) Q := of_none fun _ => rfl

theorem skip (hp : Steady p) (hf : ∀ a ts, Gives (f a) fun b us => R b (ts ++ us)) : Gives (p >>= f) R := by
  have hany : Gives p fun _ _ => True := by
    intro s a s' hrun
    obtain ⟨ts, hts⟩ := hp.suffix s
    rw [hrun] at hts
    exact ⟨ts, hts.symm, trivial⟩
  exact hany.bind fun a ts _ => hf a ts

theorem advance {s : ParseState} (h : s.kind ≠ .eof) :
    GivesAt s Parse.advance fun _ ts => ∃ t : Token, ts = [t] ∧ t.span = s.span := by
  intro a s' hrun
  cases hrun
  obtain ⟨t, -, hrest, -⟩ := ParseState.exists_passed_advance h
  refine ⟨[t], hrest, t, rfl, ?_⟩
  rw [ParseState.span, ParseState.token?, hrest]
  rfl

theorem expect {k : TokenKind} (hk : k ≠ .eof) :
    Gives (Parse.expect k) fun x ts => ∃ t : Token, ts = [t] ∧ x = t.span := by
  intro s
  by_cases hs : s.kind = k
  · intro x s' hrun
    rw [expect_of_kind hs] at hrun
    cases hrun
    obtain ⟨ts, hrest, t, hts, ht⟩ := advance (hs ▸ hk) () s.advance rfl
    exact ⟨ts, hrest, t, hts, ht.symm⟩
  · intro x s' hrun
    have hnone := expect_of_ne hs
    rw [hrun] at hnone
    cases hnone

theorem expectSign (x : Symbol) : Gives (Parse.expectSign x) fun x ts => ∃ t : Token, ts = [t] ∧ x = t.span :=
  expect nofun

theorem ident : Gives Parse.ident fun i ts => ∃ t : Token, ts = [t] ∧ i.span = t.span := by
  intro s
  by_cases hs : s.kind = .identifier
  · intro i s' hrun
    rw [ident_of_kind hs] at hrun
    cases hrun
    obtain ⟨ts, hrest, t, hts, ht⟩ := advance (hs ▸ nofun) () s.advance rfl
    exact ⟨ts, hrest, t, hts, ht.symm⟩
  · intro i s' hrun
    have hnone := ident_of_ne hs
    rw [hrun] at hnone
    cases hnone

theorem atKind {k : TokenKind} {f : Bool → Parse β} (h : ∀ b, Gives (f b) R) : Gives (Parse.atKind k >>= f) R :=
  fun s => h _ s

theorem atDirection {f : Bool → Parse β} (h : ∀ b, Gives (f b) R) : Gives (Parse.atDirection >>= f) R :=
  fun s => h _ s

theorem fueled {p : Nat → Parse α} (h : ∀ n, Gives (p n) Q) : Gives (Parse.fueled p) Q := fun s => h _ s

/-- A token may be passed, and something follows it. -/
theorem eat {k : TokenKind} {f : Bool → Parse β} (h : ∀ b ts, Gives (f b) fun c us => R c (ts ++ us)) :
    Gives (Parse.eat k >>= f) R :=
  skip (fun r => (reads_suffix r).eat k) h

/-! ### Lists -/

section
variable {sep : Symbol} {item : Parse α} {g : α → Expr} (hitem : Gives item fun a ts => Row [g a] ts)
include hitem

theorem moreAt (n : Nat) : Gives (Parse.moreAt sep item n) fun as ts => Row (as.map g) ts := by
  induction n with
  | zero => exact .pure .nil
  | succ n ih =>
    refine eat fun _ ts => .ite ?_ (.pure .nil)
    refine hitem.bind fun a us ha => ih.map fun as vs has => ?_
    exact (ha.append has).behind ts

theorem separated : Gives (Parse.separated sep item) fun as ts => Row (as.map g) ts := by
  refine hitem.bind fun a ts ha => (fueled (moreAt hitem)).map fun as us has => ?_
  exact ha.append has

end

/-! ### Expressions -/

theorem attributeAfter (base : Ident) : Gives (Parse.attributeAfter base) fun e ts =>
    ∃ w, ts = [w] ∧ e.parts = [] ∧ e.idents = [base] ∧ e.span = base.span.cover w.span := by
  refine get fun s => ?_
  split_ifs with hparen hword
  · exact unsupported _ s
  · have hne : s.kind ≠ .eof := by
      intro heof
      rw [heof] at hword
      cases hword
    refine (advance hne).bind ?_
    rintro - - ⟨w, rfl, hw⟩
    exact .pure ⟨w, rfl, rfl, rfl, congrArg base.span.cover hw.symm⟩
  · exact expected _ s

/-- A literal is the token at hand. -/
theorem literal {s : ParseState} (hne : s.kind ≠ .eof) {e : Expr} (hparts : e.parts = []) (hidents : e.idents = [])
    (hspan : e.span = s.span) : GivesAt s (do Parse.advance; return e) fun e ts => Row [e] ts := by
  refine (advance hne).bind ?_
  rintro - - ⟨t, rfl, ht⟩
  exact .pure (.leaf hparts (by simp [hidents]) (hspan.trans ht.symm))

theorem intExpr {s : ParseState} (hkind : s.kind = .intLiteral) : GivesAt s Parse.intExpr fun e ts => Row [e] ts := by
  refine .get ?_
  split
  · exact literal (by simp [hkind]) rfl rfl rfl
  · exact of_none (fun _ => rfl) s

section
variable {expr : Parse Expr} (hexpr : Gives expr fun e ts => Row [e] ts)
include hexpr

theorem rangeAfter (left : Expr) : Gives (Parse.rangeAfter expr left) fun r ts => r.left = left ∧ Row [r.right] ts := by
  refine eat fun _ ts => .ite ?_ (eat fun _ us => .ite ?_ (expected _))
  · exact hexpr.map fun _ us he => ⟨rfl, he.behind ts⟩
  · exact hexpr.map fun _ vs he => ⟨rfl, (he.behind us).behind ts⟩

theorem argumentsAfter (base : Ident) : Gives (Parse.argumentsAfter expr base) fun e ts =>
    ∃ us c, ts = us ++ [c] ∧ Row e.parts us ∧ e.idents = [base] ∧ e.span = base.span.cover c.span := by
  refine hexpr.bind fun first ts hfirst => atDirection fun _ => .ite ?_ (atKind fun _ => .ite (unsupported _) ?_)
  · refine (rangeAfter hexpr first).bind fun r us hr => (expectSign _).bind ?_
    rintro - - ⟨c, rfl, rfl⟩
    refine .pure ⟨ts ++ us, c, by simp, ?_, rfl, rfl⟩
    exact hr.1 ▸ hfirst.append hr.2
  · refine (fueled (moreAt (g := id) hexpr)).bind fun more us hmore => (expectSign _).bind ?_
    rintro - - ⟨c, rfl, rfl⟩
    rw [List.map_id] at hmore
    exact .pure ⟨ts ++ us, c, by simp, hfirst.append hmore, rfl, rfl⟩

theorem nameExpr : Gives (Parse.nameExpr expr) fun e ts => Row [e] ts := by
  refine ident.bind ?_
  rintro i - ⟨t, rfl, hi⟩
  have hleaf : ∀ {e : Expr}, e.parts = [] → (∀ x ∈ e.idents, x = i) → e.span = i.span → ∀ us, Row [e] ([t] ++ us) := by
    intro e hparts hidents hspan us
    refine (Row.leaf hparts (fun x hx => ?_) (hspan.trans hi)).before us
    rw [hidents x hx, hspan]
  refine .ite (.pure (hleaf rfl ?_ rfl [])) (.ite (.pure (hleaf rfl ?_ rfl [])) ?_)
  · simp [Expr.idents]
  · simp [Expr.idents]
  refine atKind fun _ => .ite (unsupported _) (eat fun _ us => .ite ?_ (eat fun _ vs => .ite ?_ (.pure ?_)))
  · refine (attributeAfter i).post ?_
    rintro e - ⟨w, rfl, hparts, hidents, hspan⟩
    refine .enclosed (hi ▸ hspan) (by simp [hidents, hi]) ?_
    rw [hparts]
    exact .nil
  · refine (argumentsAfter hexpr i).post ?_
    rintro e - ⟨ws, c, rfl, hparts, hidents, hspan⟩
    have hrow : Row e.parts (us ++ (vs ++ ws)) := (hparts.behind vs).behind us
    have henclosed := Row.enclosed (hi ▸ hspan) (by simp [hidents, hi]) hrow
    simpa using henclosed
  · exact hleaf rfl (by simp [Expr.idents]) rfl _

theorem element : Gives (Parse.element expr) fun x ts => Row [x.1] ts := by
  refine eat fun _ ts => .ite ?_ ?_
  · refine (expectSign _).bind fun _ us _ => hexpr.map fun e vs he => ?_
    exact (he.behind us).behind ts
  · refine hexpr.bind fun e us he => eat fun _ vs => .ite ?_ (atKind fun _ => .ite ?_ (.pure ?_))
    · exact hexpr.map fun e ws he => ((he.behind vs).behind us).behind ts
    · exact skip (fun r => (reads_suffix r).span.keeps) fun _ _ => of_none fun _ => rfl
    · exact (he.before _).behind ts

theorem parenExpr : Gives (Parse.parenExpr expr) fun e ts => Row [e] ts := by
  refine (expectSign _).bind ?_
  rintro - - ⟨o, rfl, rfl⟩
  refine (separated (element hexpr)).bind fun elements us hrow => (expectSign _).bind ?_
  rintro - - ⟨c, rfl, rfl⟩
  split
  · exact .pure ((hrow.before _).behind [o])
  · exact .pure (.enclosed rfl nofun hrow)

theorem primary : Gives (Parse.primary expr) fun e ts => Row [e] ts := by
  refine get fun s => ?_
  split
  · rename_i hkind
    exact intExpr hkind
  · exact unsupported _ s
  iterate 3
    rename_i hkind
    exact literal (by simp [hkind]) rfl rfl rfl
  · exact nameExpr hexpr s
  · exact parenExpr hexpr s
  · exact expected _ s

end

section
variable {expr : Nat → Parse Expr} (hexpr : ∀ n, Gives (expr n) fun e ts => Row [e] ts)
include hexpr

theorem operand : Gives (Parse.operand expr) fun e ts => Row [e] ts := by
  refine get fun s => ?_
  split
  · rename_i op hop
    refine (advance (unary_kind_ne_eof hop)).bind ?_
    rintro - - ⟨t, rfl, ht⟩
    exact (hexpr _).map fun e us he => ht ▸ he.unary
  · exact primary (hexpr _) s

/-- Behind an operand that stands on some tokens. -/
theorem climb (least n : Nat) {lhs : Expr} {ts : List Token} (hlhs : Row [lhs] ts) :
    Gives (Parse.climb expr least n lhs) fun e us => Row [e] (ts ++ us) := by
  induction n generalizing lhs ts with
  | zero => exact .pure (hlhs.before [])
  | succ n ih =>
    refine get fun s => ?_
    split
    · exact (pure (hlhs.before [])) s
    · rename_i op hop
      split_ifs
      · exact (pure (hlhs.before [])) s
      · refine (advance (binary_kind_ne_eof hop)).bind ?_
        rintro - - ⟨t, rfl, -⟩
        refine (hexpr _).bind fun rhs us hrhs => ?_
        have hjoin : Row [.join op lhs rhs] (ts ++ ([t] ++ us)) := hlhs.binary (hrhs.behind [t])
        exact (ih hjoin).post fun e vs he => by simpa using he

end

theorem exprAt (n least : Nat) : Gives (Parse.exprAt n least) fun e ts => Row [e] ts := by
  induction n generalizing least with
  | zero => exact of_none fun _ => rfl
  | succ n ih => exact (operand ih).bind fun lhs ts hlhs => climb ih least n hlhs

theorem expr : Gives Parse.expr fun e ts => Row [e] ts := fueled fun n => exprAt n _

end Gives

/-- The end of the text is never passed. -/
theorem reads_passed (r : List Token) :
    Reads (fun s => ∃ ts, r = ts ++ s.rest ∧ ∀ t ∈ ts, t.kind ≠ .eof) fun _ => True where
  pass s h := by
    obtain ⟨ts, hts, hne⟩ := h
    by_cases hend : s.kind = .eof
    · rw [ParseState.advance_of_eof hend]
      exact ⟨ts, hts, hne⟩
    · obtain ⟨t, ht, hrest, -⟩ := ParseState.exists_passed_advance hend
      refine ⟨ts ++ [t], by simp [hts, hrest], fun u hu => ?_⟩
      rcases List.mem_append.1 hu with hu | hu
      · exact hne u hu
      · rw [List.mem_singleton.1 hu, ht]
        exact hend
  report _ _ _ h _ := h
  here _ _ := trivial
  last _ _ := trivial
  cover _ _ _ _ := trivial

theorem partOf_of_expr {tokens ts : List Token} {s s' : ParseState} {e : Expr} (hs : s.rest <:+ tokens)
    (h : Parse.expr s = (some e, s')) (hrest : s.rest = ts ++ s'.rest) : PartOf tokens ts := by
  obtain ⟨us, hus, hne⟩ := ((reads_passed s.rest).read.keeps s ⟨[], rfl, nofun⟩).1
  rw [h] at hus
  obtain rfl : ts = us := List.append_cancel_right (hrest.symm.trans hus)
  refine ⟨.trans ?_ hs.isInfix, hne⟩
  rw [hrest]
  exact (List.prefix_append ts s'.rest).isInfix

/-- Where an expression is read, tokens are passed, and if they are laid out in the order in which they
are read, as those of each text are, then all nodes of the expression are seated on them, lie between the
first and the last of them, and nest. -/
theorem expr_nests {s s' : ParseState} {e : Expr} (h : Parse.expr s = (some e, s')) :
    ∃ ts first last, s.rest = ts ++ s'.rest ∧ ts.head? = some first ∧ ts.getLast? = some last ∧
      (∀ file text, s.rest <:+ (Lexer.lex file text).1 → Laid file ts) ∧
      ∀ file, Laid file ts → ∀ n, e.Inside n →
        Seated file ts n.span ∧ Span.Contains ⟨file, first.span.start, last.span.stop⟩ n.span ∧ n.Nests := by
  obtain ⟨ts, hrest, hrow⟩ := Gives.expr s e s' h
  obtain ⟨first, ts, rfl⟩ := List.exists_cons_of_ne_nil hrow.ne_nil
  have hlast := List.getLast?_eq_some_getLast (List.cons_ne_nil first ts)
  refine ⟨first :: ts, first, _, hrest, rfl, hlast, fun file text hs => (partOf_of_expr hs h hrest).laid, ?_⟩
  intro file hl n hn
  obtain ⟨hseated, hnests⟩ := hrow.fits hl n hn
  obtain ⟨hstart, hstop⟩ := hseated.between hl hlast
  exact ⟨hseated, ⟨hseated.file_eq.symm, hstart, hstop⟩, hnests⟩

/-- The parentheses of an operand are outside of its span, and those of an aggregate are not. -/
theorem expr_nests_parenthesized :
    ∃ e s', Parse.expr (.init (Lexer.lex 0 "f(a, (b)) + (1, others => -(c))").1) = (some e, s') ∧
      e.parts.map (fun p => (p.span, p.parts.map Expr.span)) =
        [(⟨0, 0, 9⟩, [⟨0, 2, 3⟩, ⟨0, 6, 7⟩]), (⟨0, 12, 31⟩, [⟨0, 13, 14⟩, ⟨0, 26, 29⟩])] ∧
      ∃ ts first last, (Lexer.lex 0 "f(a, (b)) + (1, others => -(c))").1 = ts ++ s'.rest ∧
        ts.head? = some first ∧ ts.getLast? = some last ∧ Laid 0 ts ∧ ∀ n, e.Inside n →
          Seated 0 ts n.span ∧ Span.Contains ⟨0, first.span.start, last.span.stop⟩ n.span ∧ n.Nests := by
  have hrun : (Parse.expr (.init (Lexer.lex 0 "f(a, (b)) + (1, others => -(c))").1)).1.map
      (fun e => e.parts.map fun p => (p.span, p.parts.map Expr.span)) =
        some [(⟨0, 0, 9⟩, [⟨0, 2, 3⟩, ⟨0, 6, 7⟩]), (⟨0, 12, 31⟩, [⟨0, 13, 14⟩, ⟨0, 26, 29⟩])] := by
    decide +kernel
  obtain ⟨e, hread, hspans⟩ := Option.map_eq_some_iff.1 hrun
  have hread := Prod.ext (x := Parse.expr _) (y := (some e, _)) hread rfl
  obtain ⟨ts, first, last, hrest, hfirst, hlast, hlaid, hnests⟩ := expr_nests hread
  have hl : Laid 0 ts := hlaid 0 _ List.suffix_rfl
  exact ⟨e, _, hread, hspans, ts, first, last, hrest, hfirst, hlast, hl, hnests 0 hl⟩

end Parse

end Syntax

end HdlLint
