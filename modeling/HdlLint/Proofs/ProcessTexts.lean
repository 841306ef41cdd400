import HdlLint.Proofs.StatementTexts
import HdlLint.Proofs.UnitHeads
import HdlLint.Proofs.Unrolling

/-!
# The texts of processes

Above the statements of a process a rule may be given up, and reading goes on behind what was skipped. So
here only what a rule gives, if anything, is followed (`Tells`). All processes that come out of a text
without a fault have bodies that are spelled by tokens of the text that stand together
(`parse_bodyText`).
-/

namespace HdlLint.Syntax

/-- The tokens `ts` stand together in the text, and its end is none of them. -/
def PartOf (tokens ts : List Token) : Prop := ts <:+: tokens ∧ ∀ t ∈ ts, t.kind ≠ .eof

theorem PartOf.of_isInfix {tokens ts us : List Token} (h : PartOf tokens ts) (hus : us <:+: ts) :
    PartOf tokens us :=
  ⟨hus.trans h.1, fun t ht => h.2 t (hus.subset ht)⟩

/-- Tokens that stand together in the text spell the body of the process. -/
def BodyText (tokens : List Token) (p : Process) : Prop := ∃ ts, PartOf tokens ts ∧ BlockText ts p.body

/-- They do so for each process of the statement. -/
def Concurrent.Spelled (tokens : List Token) (c : Concurrent) : Prop :=
  ∀ n, ∀ x ∈ c.processesAt n, BodyText tokens x.2

namespace Concurrent.Spelled
variable {tokens : List Token}

theorem process {p : Process} (h : BodyText tokens p) : Spelled tokens (.process p) :=
  fun _ _ hx => List.mem_singleton.1 hx ▸ h

theorem instantiation (i : Instantiation) : Spelled tokens (.instantiation i) := nofun

theorem processesFrom {cs : List Concurrent} (h : ∀ c ∈ cs, c.Spelled tokens) (n : Nat) :
    ∀ x ∈ processesFrom n cs, BodyText tokens x.2 := by
  induction cs generalizing n with
  | nil => nofun
  | cons c cs ih =>
    obtain ⟨hc, hcs⟩ := List.forall_mem_cons.1 h
    intro x hx
    rcases List.mem_append.1 hx with hx | hx
    · exact hc n x hx
    · exact ih hcs (n + 1) x hx

theorem generate {label var : String} {range : Range} {decls : List Decl} {body : List Concurrent}
    {span : Span} (h : ∀ c ∈ body, c.Spelled tokens) :
    Spelled tokens (.generate ⟨label, var, range, decls, body, span⟩) := by
  intro n x hx
  obtain ⟨y, hy, rfl⟩ := List.mem_map.1 hx
  exact processesFrom h decls.length y hy

end Concurrent.Spelled

namespace Parse
variable {α β : Type} {tokens before : List Token} {H : Prop}

/-! ### Rules that may be given up -/

/-- As `Spells`, except that the rule may give nothing, wherever it has come to then. -/
structure Tells (tokens before : List Token) (H : Prop) (p : Parse α) (Q : α → List Token → Prop) :
    Prop where
  stays : Keeps Faulty p
  tells : H → ∀ s, Behind tokens before s → Faulty (p s).2 ∨
    ∃ ts, Behind tokens (ts.reverse ++ before) (p s).2 ∧ ∀ a, (p s).1 = some a → Q a ts

theorem Spells.tells {p : Parse α} {Q : α → List Token → Prop} (h : Spells tokens before H p Q) :
    Tells tokens before H p Q := by
  refine ⟨h.stays, fun hH s hs => (h.gives hH s hs).imp_right ?_⟩
  rintro ⟨a, ts, ha, hQ, hat⟩
  exact ⟨ts, hat, fun b hb => Option.some.inj (ha.symm.trans hb) ▸ hQ⟩

/-- Some tokens behind `before` were passed. -/
def Onward (tokens before : List Token) (s : ParseState) : Prop :=
  ∃ ts : List Token, Behind tokens (ts.reverse ++ before) s

theorem reads_onward (tokens before : List Token) : Reads (Onward tokens before) fun _ => True where
  pass s h := by
    obtain ⟨ts, hat⟩ := h
    by_cases hend : s.kind = .eof
    · exact ⟨ts, (ParseState.advance_of_eof hend).symm ▸ hat⟩
    · obtain ⟨t, -, -, hat'⟩ := hat.advance hend
      refine ⟨ts ++ [t], ?_⟩
      rwa [List.reverse_append]
  report _ _ _ h _ := h.imp fun _ hat => ⟨hat.passed_eq, hat.tokens_eq, hat.ne_eof⟩
  here _ _ := trivial
  last _ _ := trivial
  cover _ _ _ _ := trivial

namespace Tells
variable {p : Parse α} {f : α → Parse β} {Q Q' : α → List Token → Prop} {R : β → List Token → Prop}

theorem pure {a : α} (h : H → Q a []) : Tells tokens before H (Pure.pure a : Parse α) Q :=
  (Spells.pure h).tells

theorem bind (hp : Tells tokens before H p Q) (hf : ∀ a ts,
    Tells tokens (ts.reverse ++ before) (H ∧ Q a ts) (f a) fun b us => R b (ts ++ us)) :
    Tells tokens before H (p >>= f) R := by
  refine ⟨hp.stays.bind fun a => (hf a []).stays, fun hH s hs => ?_⟩
  have hps := hp.tells hH s hs
  rcases hrun : p s with ⟨_ | a, s'⟩
  · rw [hrun] at hps
    rw [run_bind_none hrun]
    exact hps.imp_right fun ⟨ts, hat, _⟩ => ⟨ts, hat, nofun⟩
  · rw [hrun] at hps
    rw [run_bind_some hrun]
    rcases hps with hfault | ⟨ts, hat, hQ⟩
    · exact .inl ((hf a []).stays s' hfault).1
    · refine ((hf a ts).tells ⟨hH, hQ a rfl⟩ s' hat).imp_right ?_
      rintro ⟨us, hat', hR⟩
      refine ⟨ts ++ us, ?_, hR⟩
      rwa [List.reverse_append, List.append_assoc]

theorem post (h : Tells tokens before H p Q) (hQ : ∀ a ts, H → Q a ts → Q' a ts) :
    Tells tokens before H p Q' :=
  ⟨h.stays, fun hH s hs => (h.tells hH s hs).imp_right fun ⟨ts, hat, hts⟩ =>
    ⟨ts, hat, fun a ha => hQ a ts hH (hts a ha)⟩⟩

theorem pre {H' : Prop} (h : Tells tokens before H p Q) (hH : H' → H) : Tells tokens before H' p Q :=
  ⟨h.stays, fun h' => h.tells (hH h')⟩

theorem ite {c : Prop} [Decidable c] {q : Parse α} (hp : c → Tells tokens before H p Q)
    (hq : ¬c → Tells tokens before H q Q) : Tells tokens before H (if c then p else q) Q := by
  by_cases hc : c
  · rw [if_pos hc]
    exact hp hc
  · rw [if_neg hc]
    exact hq hc

theorem unsupported (what : String) : Tells tokens before H (Parse.unsupported what) Q :=
  (Spells.unsupported what).tells

theorem expected (what : String) : Tells tokens before H (Parse.expected what) Q :=
  (Spells.expected what).tells

theorem get {f : ParseState → Parse α} (h : ∀ s, Tells tokens before H (f s) Q) :
    Tells tokens before H (MonadState.get >>= f) Q :=
  ⟨Keeps.get.bind fun s => (h s).stays, fun hH s => (h s).tells hH s⟩

theorem fueled {p : Nat → Parse α} (h : ∀ n, Tells tokens before H (p n) Q) :
    Tells tokens before H (Parse.fueled p) Q :=
  get fun _ => h _

/-- The span of the token at hand is that of the first token that is passed. -/
theorem span {f : Span → Parse α}
    (h : ∀ x, Tells tokens before H (f x) fun a ts => (∀ t us, ts = t :: us → x = t.span) → Q a ts) :
    Tells tokens before H (Parse.span >>= f) Q := by
  refine ⟨Keeps.get.bind fun s => (h s.span).stays, fun hH s hs => ?_⟩
  refine ((h s.span).tells hH s hs).imp_right ?_
  rintro ⟨ts, hat, hQ⟩
  refine ⟨ts, hat, fun a ha => hQ a ha ?_⟩
  rintro t us rfl
  exact hs.span_of_passed hat

theorem attempt (h : Tells tokens before H p Q) :
    Tells tokens before H (Parse.attempt p) fun o ts => ∀ a, o = some a → Q a ts := by
  refine ⟨h.stays.attempt, fun hH s hs => (h.tells hH s hs).imp_right ?_⟩
  rintro ⟨ts, hat, hQ⟩
  exact ⟨ts, hat, fun o ho a ha => hQ a ((Option.some.inj ho).trans ha)⟩

/-- A rule of which it does not matter what it passes, and what follows it. -/
theorem skip {R : β → Prop} (hp : ∀ I, Reads I (fun _ => True) → Keeps I p)
    (hf : ∀ a before, Tells tokens before H (f a) fun b _ => R b) :
    Tells tokens before H (p >>= f) fun b _ => R b := by
  have hany : Tells tokens before H p fun _ _ => True := by
    refine ⟨hp _ reads_faulty, fun _ s hs => .inr ?_⟩
    obtain ⟨ts, hat⟩ := (hp _ (reads_onward tokens before) s ⟨[], hs⟩).1
    exact ⟨ts, hat, fun _ _ => trivial⟩
  exact hany.bind fun a ts => (hf a _).pre And.left

/-- What is passed are tokens of the text that stand together. -/
theorem within (h : Tells tokens before H p fun a ts => PartOf tokens ts → Q a ts) :
    Tells tokens before H p Q := by
  refine ⟨h.stays, fun hH s hs => (h.tells hH s hs).imp_right ?_⟩
  rintro ⟨ts, hat, hQ⟩
  refine ⟨ts, hat, fun a ha => hQ a ha ⟨⟨before.reverse, (p s).2.rest, ?_⟩, fun t ht => ?_⟩⟩
  · rw [← hat.tokens_eq, List.reverse_append, List.reverse_reverse]
  · exact hat.ne_eof t (List.mem_append_left _ (List.mem_reverse.2 ht))

/-! ### Statements of an architecture -/

theorem label? : Spells tokens before H Parse.label? fun _ ts => LabelText ts := by
  refine .get fun s => .ite (fun hlabel => ?_) fun _ => .pure fun _ => .none
  rw [Bool.and_eq_true, beq_iff_eq, beq_iff_eq] at hlabel
  have hname : Spells tokens before (H ∧ Behind tokens before s) Parse.name fun _ ts =>
      ∃ n, ts = [n] ∧ n.kind = .identifier :=
    Spells.ident_token.map fun _ _ _ hn => hn
  refine hname.token fun _ n => .advance (k := .symbol .colon) ?_ nofun fun c => .pure ?_
  · exact fun h => hlabel.2 ▸ h.1.2.next_second n
  · exact fun h => .some h.1.2 h.2

theorem instanceAfter (label entity : String) (architecture : Option String) (start : Span) :
    Tells tokens before H (Parse.instanceAfter label entity architecture start)
      fun c _ => c.Spelled tokens :=
  skip (fun _ h => (h.mapClause _).keeps) fun _ _ => skip (fun _ h => (h.mapClause _).keeps) fun _ _ =>
    skip (fun _ h => (h.expectSign _).keeps) fun _ _ => skip (fun _ h => h.lastSpan.keeps) fun _ _ =>
      .pure fun _ => .instantiation _

theorem entityInstance (label : Option String) (start : Span) :
    Tells tokens before H (Parse.entityInstance label start) fun c _ => c.Spelled tokens := by
  refine skip (fun _ h => h.requireLabel trivial label) fun l _ =>
    skip (fun _ h => (h.expectWord _).keeps) fun _ _ => skip (fun _ h => h.name) fun _ _ =>
      skip (fun _ h => h.eatSign _) fun _ _ =>
        .ite (fun _ => skip (fun _ h => h.name) fun entity _ => ?_) fun _ =>
          skip (fun _ _ => Keeps.pure) fun entity _ => ?_
  all_goals
    refine skip (fun _ h => h.eatSign _) fun _ _ => .ite (fun _ => ?_) fun _ => ?_
    · exact skip (fun _ h => h.name) fun _ _ => skip (fun _ h => (h.expectSign _).keeps) fun _ _ =>
        skip (fun _ _ => Keeps.pure) fun _ _ => instanceAfter _ _ _ _
    · exact skip (fun _ _ => Keeps.pure) fun _ _ => instanceAfter _ _ _ _

theorem componentInstance (label : Option String) (start : Span) :
    Tells tokens before H (Parse.componentInstance label start) fun c _ => c.Spelled tokens :=
  skip (fun _ h => h.requireLabel trivial label) fun l _ => skip (fun _ h => h.eatWord _) fun _ _ =>
    skip (fun _ h => h.name) fun entity _ => instanceAfter l entity none start

/-- A statement outside of processes is the body of one, with its label. -/
theorem bodyText_of_standsFor {start : Span} {p : Process} {lab ts : List Token} (hlab : LabelText lab)
    (h : Spells.StandsFor start p ts) (hstart : ∀ t us, lab ++ ts = t :: us → start = t.span)
    (hpart : PartOf tokens (lab ++ ts)) : BodyText tokens p := by
  obtain ⟨st, hbody, hst⟩ := h lab hlab hstart
  refine ⟨lab ++ ts, hpart, ?_⟩
  have hblock := BlockText.cons .none hst .nil
  rwa [List.nil_append, List.append_nil, ← hbody] at hblock

section
variable {body : Parse (List Concurrent)} (hbody : ∀ {before : List Token} {H : Prop},
  Tells tokens before H body fun cs _ => ∀ c ∈ cs, c.Spelled tokens)
include hbody

theorem generate (label : Option String) (start : Span) :
    Tells tokens before H (Parse.generate body label start) fun c _ => c.Spelled tokens := by
  refine skip (fun _ h => h.requireLabel trivial label) fun l _ =>
    skip (fun _ h => (h.expectWord _).keeps) fun _ _ => skip (fun _ h => h.name) fun var _ =>
      skip (fun _ h => (h.expectWord _).keeps) fun _ _ => skip (fun _ h => h.range.keeps) fun r _ =>
        skip (fun _ h => (h.expectWord _).keeps) fun _ _ => skip (fun _ _ => Keeps.kind) fun k _ => ?_
  have hrest : ∀ (ds : List Decl) {before : List Token} {H : Prop}, Tells tokens before H (do
      let stmts ← body
      let _ ← Parse.expectWord .kwEnd
      let _ ← Parse.expectWord .kwGenerate
      Parse.eatName
      let _ ← Parse.expectSign .semicolon
      return Concurrent.generate ⟨l, var, r, ds, stmts, start.cover (← Parse.lastSpan)⟩)
        fun c _ => c.Spelled tokens :=
    fun _ => hbody.bind fun _ _ => skip (fun _ h => (h.expectWord _).keeps) fun _ _ =>
      skip (fun _ h => (h.expectWord _).keeps) fun _ _ => skip (fun _ h => h.eatName) fun _ _ =>
        skip (fun _ h => (h.expectSign _).keeps) fun _ _ => skip (fun _ h => h.lastSpan.keeps) fun _ _ =>
          .pure fun h => .generate h.2
  split
  case h_5 => exact skip (fun _ h => h.eatWord _) fun _ _ => skip (fun _ _ => Keeps.pure) fun ds _ => hrest ds
  all_goals
    exact skip (fun _ h => h.decls.keeps) fun ds _ => skip (fun _ h => (h.expectWord _).keeps) fun _ _ =>
      skip (fun _ _ => Keeps.pure) fun ds _ => hrest ds

theorem concurrentOf : Tells tokens before H (Parse.concurrentOf body) fun c _ => c.Spelled tokens := by
  refine within (span fun start => label?.tells.bind fun label lab => get fun s => ?_)
  have hstands : ∀ {before : List Token} {p : Parse Process},
      Spells tokens before (H ∧ LabelText lab) p (Spells.StandsFor start) →
      Tells tokens before (H ∧ LabelText lab) (do return Concurrent.process (← p)) fun c ts =>
        (∀ t us, lab ++ ts = t :: us → start = t.span) → PartOf tokens (lab ++ ts) → c.Spelled tokens := by
    intro before p hp
    refine (hp.map fun q ts h hq hstart hpart => ?_).tells
    exact .process (bodyText_of_standsFor h.2 hq hstart hpart)
  have hany : ∀ {before : List Token} {p : Parse Concurrent},
      Tells tokens before (H ∧ LabelText lab) p (fun c _ => c.Spelled tokens) →
      Tells tokens before (H ∧ LabelText lab) p fun c ts =>
        (∀ t us, lab ++ ts = t :: us → start = t.span) → PartOf tokens (lab ++ ts) → c.Spelled tokens :=
    fun hp => hp.post fun _ _ _ hc _ _ => hc
  split
  · refine ((Spells.process label start).map ?_).tells
    rintro p _ - ⟨front, bs, back, hbs, rfl⟩ - hpart
    refine .process ⟨bs, hpart.of_isInfix ⟨lab ++ front, back, ?_⟩, hbs⟩
    simp only [List.append_assoc]
  · exact hany (entityInstance label start)
  · exact hany (componentInstance label start)
  · exact hany (generate hbody label start)
  · exact .unsupported _
  · exact hstands (Spells.selectedAssign label start)
  · exact .ite (fun _ => hany (componentInstance label start)) fun _ =>
      hstands (Spells.concurrentAssign label start)
  · exact .expected _

end

theorem concurrentsAt {stmt : Parse Concurrent} (hstmt : ∀ {before : List Token} {H : Prop},
    Tells tokens before H stmt fun c _ => c.Spelled tokens) (n : Nat) :
    Tells tokens before H (Parse.concurrentsAt stmt n) fun cs _ => ∀ c ∈ cs, c.Spelled tokens := by
  induction n generalizing before H with
  | zero => exact .pure fun _ => nofun
  | succ n ih =>
    refine get fun s => .ite (fun _ => .pure fun _ => nofun) fun _ =>
      skip (fun _ _ => Reads.headKind) fun head _ => hstmt.attempt.bind fun o ts => ?_
    split
    · exact ih.bind fun _ _ => .pure fun h => List.forall_mem_cons.2 ⟨h.1.2 _ rfl, h.2⟩
    · exact skip (fun _ h => h.skipConcurrent head) fun _ _ => ih

theorem concurrents :
    Tells tokens before H Parse.concurrents fun cs _ => ∀ c ∈ cs, c.Spelled tokens := by
  have hnested : ∀ n {before : List Token} {H : Prop},
      Tells tokens before H (Parse.nestedConcurrentsAt n) fun cs _ => ∀ c ∈ cs, c.Spelled tokens := by
    intro n
    induction n with
    | zero => exact .pure fun _ => nofun
    | succ n ih => exact fueled fun k => concurrentsAt (concurrentOf ih) k
  exact fueled fun n => hnested n

/-! ### Units -/

theorem architecture : Tells tokens before H Parse.architecture fun a _ =>
    ∀ x ∈ a.processes, BodyText tokens x.2 :=
  skip (fun _ h => (h.expectWord _).keeps) fun _ _ => skip (fun _ h => h.name) fun _ _ =>
    skip (fun _ h => (h.expectWord _).keeps) fun _ _ => skip (fun _ h => h.name) fun _ _ =>
      skip (fun _ h => (h.expectWord _).keeps) fun _ _ => skip (fun _ h => h.decls.keeps) fun _ _ =>
        skip (fun _ h => (h.expectWord _).keeps) fun _ _ => concurrents.bind fun _ _ =>
          skip (fun _ h => (h.expectWord _).keeps) fun _ _ => skip (fun _ h => h.finishEnd _) fun _ _ =>
            skip (fun _ h => h.lastSpan.keeps) fun _ _ =>
              .pure fun h => Concurrent.Spelled.processesFrom h.2 0

theorem unit : Tells tokens before H Parse.unit fun l _ =>
    ∀ a ∈ l.architectures, ∀ x ∈ a.processes, BodyText tokens x.2 := by
  have hskip : ∀ {before : List Token} {H : Prop}, Tells tokens before H
      (do Parse.skipToUnit; return ({} : Library)) fun l _ => ∀ a ∈ l.architectures, ∀ x ∈ a.processes,
        BodyText tokens x.2 := skip (fun _ h => h.skipToUnit) fun _ _ => .pure fun _ => nofun
  refine skip (fun _ _ => Keeps.kind) fun k _ => ?_
  split
  iterate 2 exact skip (fun _ h => h.skipSentence) fun _ _ => .pure fun _ => nofun
  · refine skip (fun _ h => Keeps.attempt h.entity.keeps) fun o _ => ?_
    split
    · exact .pure fun _ => nofun
    · exact hskip
  · refine architecture.attempt.bind fun o _ => ?_
    split
    · exact .pure fun h => List.forall_mem_singleton.2 (h.2 _ rfl)
    · exact hskip
  · exact skip (fun _ h => Keeps.attempt (h.unsupported _)) fun _ _ => hskip
  · exact skip (fun _ h => Keeps.attempt (h.expected _)) fun _ _ => hskip

theorem unitsAt (n : Nat) : Tells tokens before H (Parse.unitsAt n) fun l _ =>
    ∀ a ∈ l.architectures, ∀ x ∈ a.processes, BodyText tokens x.2 := by
  induction n generalizing before H with
  | zero => exact .pure fun _ => nofun
  | succ n ih =>
    refine skip (fun _ _ => Keeps.kind) fun _ _ => .ite (fun _ => .pure fun _ => nofun) fun _ => ?_
    exact unit.bind fun _ _ => ih.bind fun _ _ => .pure fun h a ha =>
      (List.mem_append.1 ha).elim (h.1.2 a) (h.2 a)

end Tells

end Parse

/-- Where nothing is reported, the tokens of the text that stand in the body of a process spell it. -/
theorem parse_bodyText {file : Nat} {text : String} (h : (parse file text).2 = []) :
    ∀ a ∈ (parse file text).1.architectures, ∀ x ∈ a.processes,
      BodyText (Lexer.lex file text).1 x.2 := by
  have htells : Parse.Tells (Lexer.lex file text).1 [] True Parse.units fun l _ =>
      ∀ a ∈ l.architectures, ∀ x ∈ a.processes, BodyText (Lexer.lex file text).1 x.2 :=
    .fueled .unitsAt
  have hunits := htells.tells trivial (.init (Lexer.lex file text).1) ⟨rfl, rfl, nofun⟩
  rw [parse_eq] at h ⊢
  have hreported : (Parse.units (.init (Lexer.lex file text).1)).2.reported = [] :=
    List.reverse_eq_nil_iff.1 (List.append_eq_nil_iff.1 h).2
  obtain ⟨-, -, hl⟩ := hunits.resolve_left fun hfault => hfault hreported
  rcases hgives : (Parse.units (.init (Lexer.lex file text).1)).1 with _ | l
  · exact nofun
  · exact hl l hgives

/-! ### Places -/

/-- Tokens of one file that have characters, each of them behind those before it. -/
structure Laid (file : Nat) (ts : List Token) : Prop where
  file_eq : ∀ t ∈ ts, t.span.file = file
  start_lt : ∀ t ∈ ts, t.span.start < t.span.stop
  ascending : ts.Pairwise fun t u => t.span.stop ≤ u.span.start

theorem PartOf.laid {file : Nat} {text : String} {ts : List Token} (h : PartOf (Lexer.lex file text).1 ts) :
    Laid file ts := by
  obtain ⟨inner, htokens, hinner⟩ := Lexer.lex_closed file text
  refine ⟨fun t ht => ?_, fun t ht => ?_, (Lexer.lex_ascending file text).sublist h.1.sublist⟩
  · rcases Lexer.mem_lex.1 (h.1.subset ht) with ⟨p, -, k, -, rfl⟩ | rfl
    · rfl
    · rfl
  · have hmem : t ∈ inner ++ [Lexer.eof file text] := htokens ▸ h.1.subset ht
    refine (hinner t ((List.mem_append.1 hmem).resolve_right fun heof => h.2 t ht ?_)).2
    rw [List.mem_singleton.1 heof]
    rfl

namespace Laid
variable {file : Nat} {ts us : List Token} {t z : Token}

theorem of_isInfix (h : Laid file ts) (hus : us <:+: ts) : Laid file us :=
  ⟨fun t ht => h.file_eq t (hus.subset ht), fun t ht => h.start_lt t (hus.subset ht),
    h.ascending.sublist hus.sublist⟩

theorem left (h : Laid file (ts ++ us)) : Laid file ts := h.of_isInfix (List.prefix_append ts us).isInfix

theorem right (h : Laid file (ts ++ us)) : Laid file us := h.of_isInfix (List.suffix_append ts us).isInfix

theorem start_le (h : Laid file (t :: ts)) {u : Token} (hu : u ∈ t :: ts) :
    t.span.start ≤ u.span.start := by
  rcases List.mem_cons.1 hu with rfl | hmem
  · exact Nat.le_refl _
  · have hstop := List.rel_of_pairwise_cons h.ascending hmem
    have ht := h.start_lt t List.mem_cons_self
    omega

theorem stop_le (h : Laid file ts) (hz : ts.getLast? = some z) {u : Token} (hu : u ∈ ts) :
    u.span.stop ≤ z.span.stop := by
  obtain ⟨front, rfl⟩ := List.getLast?_eq_some_iff.1 hz
  rcases List.mem_append.1 hu with hmem | hmem
  · have hstop := (List.pairwise_append.1 h.ascending).2.2 u hmem z (List.mem_singleton_self z)
    have hlt := h.start_lt z (List.mem_of_getLast? hz)
    omega
  · rw [List.mem_singleton.1 hmem]

/-- Tokens span what is between the first and the last of them. -/
theorem spanOf_eq (h : Laid file (t :: ts)) (hz : (t :: ts).getLast? = some z) :
    spanOf (t :: ts) = ⟨file, t.span.start, z.span.stop⟩ := by
  have hmem : z ∈ t :: ts := List.mem_of_getLast? hz
  have hfile : t.span.file = z.span.file :=
    (h.file_eq t List.mem_cons_self).trans (h.file_eq z hmem).symm
  rw [spanOf, hz]
  show t.span.cover z.span = _
  rw [Span.cover, if_pos hfile, Nat.min_eq_left (h.start_le hmem),
    Nat.max_eq_right (h.stop_le hz List.mem_cons_self), h.file_eq t List.mem_cons_self]

end Laid

end HdlLint.Syntax
