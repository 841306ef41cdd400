import HdlLint.Proofs.Spelling

/-!
# The texts of statements

What a statement is made of is told here by its tokens (`StmtText`), with the tokens of the statements
inside it and all the alternatives of a `case` in the order in which they are written. A statement spans
its tokens from the first to the last, and so does each value of an assignment that has several. The one
thing that the tree does not show is an alternative `others` behind which another one follows: of several
the last one counts (`othersOf`).

The rules for the statements of a process, and for those that stand for one, pass such texts
(`Spells.block`, `Spells.selectedAssign`, `Spells.concurrentAssign`).
-/

namespace HdlLint.Syntax

/-! ### Texts -/

/-- From the first of the tokens to the last. -/
def spanOf (ts : List Token) : Span :=
  (ts.head?.elim .nowhere Token.span).cover (ts.getLast?.elim .nowhere Token.span)

/-- The tokens of a label, which may be left out. -/
inductive LabelText : List Token → Prop where
  | none : LabelText []
  | some {n c : Token} : n.kind = .identifier → c.kind = .symbol .colon → LabelText [n, c]

/-- The name behind closing words, which may be left out. -/
inductive NameText : List Token → Prop where
  | none : NameText []
  | some {n : Token} : n.kind = .identifier → NameText [n]

/-- The tokens of a delay, which may be left out. -/
inductive DelayText : List Token → Prop where
  | none : DelayText []
  | some {a : Token} {ts : List Token} : a.kind = .keyword .kwAfter →
      (∀ t ∈ ts, Clause.endsDelay t.kind = false) → DelayText (a :: ts)

/-- The tokens of a value and its delay. -/
def ValueText (ts : List Token) : Prop := ∃ es ds, ExprText es ∧ DelayText ds ∧ ts = es ++ ds

theorem ValueText.ne_nil {ts : List Token} (h : ValueText ts) : ts ≠ [] := by
  obtain ⟨es, ds, hes, -, rfl⟩ := h
  exact fun hnil => hes.ne_nil (List.append_eq_nil_iff.1 hnil).1

/-- The values of an assignment with their conditions: `a when c else b when d else e`. -/
inductive ValuesText (target : Target) : List Token → List Branch → Option (List Stmt) → Prop where
  | last {vs : List Token} {value : Expr} : ValueText vs →
      ValuesText target vs [] (some [.assign target value (spanOf vs)])
  | only {vs cs : List Token} {w : Token} {value condition : Expr} : ValueText vs →
      w.kind = .keyword .kwWhen → ExprText cs →
      ValuesText target (vs ++ w :: cs) [⟨condition, [.assign target value (spanOf vs)]⟩] none
  | more {vs cs us : List Token} {w e : Token} {value condition : Expr} {branches : List Branch}
      {otherwise : Option (List Stmt)} : ValueText vs → w.kind = .keyword .kwWhen → ExprText cs →
      e.kind = .keyword .kwElse → ValuesText target us branches otherwise →
      ValuesText target (vs ++ w :: (cs ++ e :: us))
        (⟨condition, [.assign target value (spanOf vs)]⟩ :: branches) otherwise

/-- An alternative as it is written. -/
inductive Alternative where
  | arm (a : Arm)
  | others (body : List Stmt)

namespace Alternative

def body : Alternative → List Stmt
  | .arm a => a.body
  | .others b => b

def arm? : Alternative → Option Arm
  | .arm a => some a
  | .others _ => none

def others? : Alternative → Option (List Stmt)
  | .arm _ => none
  | .others b => some b

end Alternative

/-- The alternatives that the tree keeps in their order. -/
def armsOf (alts : List Alternative) : List Arm := alts.filterMap Alternative.arm?

/-- The last alternative `others`. -/
def othersOf : List Alternative → Option (List Stmt)
  | [] => none
  | alt :: alts => (othersOf alts).or alt.others?

theorem othersOf_cons_or (alt : Alternative) (alts : List Alternative) (previous : Option (List Stmt)) :
    (othersOf (alt :: alts)).or previous = (othersOf alts).or (alt.others?.or previous) :=
  Option.or_assoc

/-- What stands behind the word `when` of an alternative. -/
inductive WhenText : List Token → Alternative → Prop where
  | arm {cs : List Token} {a : Arm} : ExprText cs → (∀ t ∈ cs.head?, t.kind ≠ .keyword .kwOthers) →
      WhenText cs (.arm a)
  | others {o : Token} {body : List Stmt} : o.kind = .keyword .kwOthers → WhenText [o] (.others body)

/-- The alternatives of a selected assignment: `a when c | d, b when others`. -/
inductive SelectedText (target : Target) : List Token → List Alternative → Prop where
  | last {vs hs : List Token} {w : Token} {value : Expr} {alt : Alternative} : ValueText vs →
      w.kind = .keyword .kwWhen → WhenText hs alt → alt.body = [.assign target value (spanOf vs)] →
      SelectedText target (vs ++ w :: hs) [alt]
  | more {vs hs us : List Token} {w c : Token} {value : Expr} {alt : Alternative}
      {alts : List Alternative} : ValueText vs → w.kind = .keyword .kwWhen → WhenText hs alt →
      alt.body = [.assign target value (spanOf vs)] → c.kind = .symbol .comma →
      SelectedText target us alts → SelectedText target (vs ++ w :: (hs ++ c :: us)) (alt :: alts)

mutual

/-- The tokens of a statement. Only the label of a statement outside of processes belongs to them. -/
inductive StmtText : List Token → Stmt → Prop where
  | assign {ts lab tgt vs : List Token} {a z : Token} {target : Target} {value : Expr} :
      LabelText lab → ExprText tgt → a.kind = .symbol .lessEquals → ValueText vs →
      z.kind = .symbol .semicolon → ts = lab ++ (tgt ++ a :: (vs ++ [z])) →
      StmtText ts (.assign target value (spanOf ts))
  | conditional {ts lab tgt vs : List Token} {a z : Token} {target : Target} {branches : List Branch}
      {otherwise : Option (List Stmt)} :
      LabelText lab → ExprText tgt → a.kind = .symbol .lessEquals →
      ValuesText target vs branches otherwise → z.kind = .symbol .semicolon →
      ts = lab ++ (tgt ++ a :: (vs ++ [z])) → StmtText ts (.ifs branches otherwise (spanOf ts))
  | selected {ts lab es tgt us : List Token} {w s a z : Token} {target : Target} {subject : Expr}
      {alts : List Alternative} :
      LabelText lab → w.kind = .keyword .kwWith → ExprText es → s.kind = .keyword .kwSelect →
      ExprText tgt → a.kind = .symbol .lessEquals → SelectedText target us alts →
      z.kind = .symbol .semicolon → ts = lab ++ w :: (es ++ s :: (tgt ++ a :: (us ++ [z]))) →
      StmtText ts (.case subject (armsOf alts) (othersOf alts) (spanOf ts))
  | ifs {ts bs os name : List Token} {i e i' z : Token} {branches : List Branch}
      {otherwise : Option (List Stmt)} :
      i.kind = .keyword .kwIf → BranchesText bs branches → ElseText os otherwise →
      e.kind = .keyword .kwEnd → i'.kind = .keyword .kwIf → NameText name →
      z.kind = .symbol .semicolon → ts = i :: (bs ++ (os ++ e :: i' :: (name ++ [z]))) →
      StmtText ts (.ifs branches otherwise (spanOf ts))
  | case {ts es us name : List Token} {c i e c' z : Token} {subject : Expr} {alts : List Alternative} :
      c.kind = .keyword .kwCase → ExprText es → i.kind = .keyword .kwIs → CasesText us alts →
      e.kind = .keyword .kwEnd → c'.kind = .keyword .kwCase → NameText name →
      z.kind = .symbol .semicolon → ts = c :: (es ++ i :: (us ++ e :: c' :: (name ++ [z]))) →
      StmtText ts (.case subject (armsOf alts) (othersOf alts) (spanOf ts))
  | null {n z : Token} : n.kind = .keyword .kwNull → z.kind = .symbol .semicolon →
      StmtText [n, z] (.null (spanOf [n, z]))

/-- The tokens of a block. -/
inductive BlockText : List Token → List Stmt → Prop where
  | nil : BlockText [] []
  | cons {lab ts us : List Token} {st : Stmt} {b : List Stmt} : LabelText lab → StmtText ts st →
      BlockText us b → BlockText (lab ++ (ts ++ us)) (st :: b)

/-- The conditions of an `if` behind its first word, each with its statements. -/
inductive BranchesText : List Token → List Branch → Prop where
  | last {cs bs : List Token} {t : Token} {condition : Expr} {body : List Stmt} : ExprText cs →
      t.kind = .keyword .kwThen → BlockText bs body →
      BranchesText (cs ++ t :: bs) [⟨condition, body⟩]
  | more {cs bs us : List Token} {t e : Token} {condition : Expr} {body : List Stmt}
      {branches : List Branch} : ExprText cs → t.kind = .keyword .kwThen → BlockText bs body →
      e.kind = .keyword .kwElsif → BranchesText us branches →
      BranchesText (cs ++ t :: (bs ++ e :: us)) (⟨condition, body⟩ :: branches)

inductive ElseText : List Token → Option (List Stmt) → Prop where
  | none : ElseText [] none
  | some {e : Token} {bs : List Token} {body : List Stmt} : e.kind = .keyword .kwElse →
      BlockText bs body → ElseText (e :: bs) (some body)

/-- The alternatives of a `case`. -/
inductive CasesText : List Token → List Alternative → Prop where
  | nil : CasesText [] []
  | cons {hs bs us : List Token} {w a : Token} {alt : Alternative} {alts : List Alternative} :
      w.kind = .keyword .kwWhen → WhenText hs alt → a.kind = .symbol .arrow → BlockText bs alt.body →
      CasesText us alts → CasesText (w :: (hs ++ a :: (bs ++ us))) (alt :: alts)

end

/-- A span from the first token that was passed to the last one. -/
theorem cover_eq_spanOf {ts : List Token} {x y : Span} (before : List Token) (hne : ts ≠ [])
    (hx : ∀ t us, ts = t :: us → x = t.span)
    (hy : ∀ t, (ts.reverse ++ before).head? = some t → y = t.span) : x.cover y = spanOf ts := by
  obtain ⟨t, us, rfl⟩ := List.exists_cons_of_ne_nil hne
  have hlast : (t :: us).getLast? = some ((t :: us).getLast hne) := List.getLast?_eq_some_getLast hne
  rw [spanOf, hlast, hx t us rfl]
  refine congrArg _ (hy _ ?_)
  rw [List.head?_append, List.head?_reverse, hlast]
  rfl

namespace Parse
variable {tokens before : List Token} {H : Prop}

namespace Spells

/-! ### Assignments -/

theorem target : Spells tokens before H Parse.target fun _ ts => ExprText ts := by
  have hparen : ∀ {n o c : Token} {ts : List Token}, n.kind = .identifier → o.kind = .symbol .leftParen →
      ExprText ts → c.kind = .symbol .rightParen → ExprText (n :: o :: (ts ++ [c])) := by
    intro n o c ts hn ho hts hc
    have hclose : ExprText (ts ++ [c]) := (ExprText.ofEnd (.token (hc ▸ rfl))).after hts.phrase
    exact (hclose.cons (ho ▸ rfl)).cons (hn ▸ rfl)
  refine ident fun i n => eatSign (fun o => expr.bind fun first es => ?_) (.pure fun h => ?_)
  · refine atDirection fun _ => .ite (fun _ => ?_) fun _ => ?_
    · refine (rangeAfter (fun _ => expr) first fun _ => .all tokens _).bind fun _ rs =>
        expectSign fun c => .pure ?_
      rintro ⟨⟨⟨⟨⟨-, hn⟩, ho⟩, hes⟩, hrs⟩, hc⟩
      rw [← List.append_assoc]
      exact hparen hn ho (hes.append hrs) hc
    · refine expectSign fun c => .pure ?_
      rintro ⟨⟨⟨⟨-, hn⟩, ho⟩, hes⟩, hc⟩
      exact hparen hn ho hes hc
  · exact .ofEnd (.token (h.2 ▸ rfl))

/-- Skipping passes only tokens at which `stop` does not hold. -/
theorem skipUntil (stop : TokenKind → Bool) : Spells tokens before H
    (Parse.skipUntil fun s => stop s.kind) fun _ ts => ∀ t ∈ ts, stop t.kind = false := by
  have hat : ∀ n {before : List Token} {H : Prop}, Spells tokens before H
      (Parse.skipUntilAt (fun s => stop s.kind) n) fun _ ts => ∀ t ∈ ts, stop t.kind = false := by
    intro n
    induction n with
    | zero => exact .pure fun _ => nofun
    | succ n ih =>
      intro before H
      refine get fun s => .ite (fun _ => .pure fun _ => nofun) fun hgo => ?_
      have hgo : s.kind ≠ .eof ∧ stop s.kind = false := by simpa using hgo
      refine advance (fun h => h.2.next) hgo.1 fun t => ih.post fun _ ts h hts => ?_
      exact List.forall_mem_cons.2 ⟨h.2 ▸ hgo.2, hts⟩
  exact fueled fun n => hat n

theorem skipDelay : Spells tokens before H Parse.skipDelay fun _ ts => DelayText ts := by
  refine eatWord (fun a => ?_) (.pure fun _ => .none)
  refine (skipUntil fun k => k == .symbol .semicolon || k == .keyword .kwWhen || k == .keyword .kwElse ||
    k == .symbol .comma).post ?_
  rintro _ ts ⟨-, ha⟩ hts
  exact .some ha fun t ht => (Clause.endsDelay_eq t.kind).symm.trans (hts t ht)

theorem delayedValue : Spells tokens before H Parse.delayedValue
    fun r ts => ValueText ts ∧ r.2 = spanOf ts := by
  refine span fun x => expr.bind fun e es => skipDelay.bind fun _ ds => lastSpan fun y => .pure ?_
  rintro ⟨⟨⟨-, hes⟩, hds⟩, hy⟩ hx
  rw [List.append_nil] at hx ⊢
  have hvalue : ValueText (es ++ ds) := ⟨es, ds, hes, hds, rfl⟩
  refine ⟨hvalue, cover_eq_spanOf before hvalue.ne_nil hx fun t ht => hy t ?_⟩
  rwa [List.reverse_append, List.append_assoc] at ht

theorem alternativesAt (target : Target) (n : Nat) (v : Expr × Span) (hn : H → Left tokens before n) :
    Spells tokens before H (Parse.alternativesAt target n v) fun r ts =>
      ∀ vs, ValueText vs → v.2 = spanOf vs → ValuesText target (vs ++ ts) r.1 r.2 := by
  induction n generalizing before H v with
  | zero => exact of_left_zero Keeps.pure hn
  | succ n ih =>
    obtain ⟨value, whole⟩ := v
    refine eatWord (fun w => expr.bind fun c cs => eatWord (fun e => ?_) (.pure ?_)) (.pure ?_)
    · refine delayedValue.bind fun v us => (ih v fun h => ?_).map ?_
      · exact (((hn h.1.1.1.1).pass w).append cs).cons e |>.append us
      · rintro r ts ⟨⟨⟨⟨-, hw⟩, hcs⟩, he⟩, hus, hspan⟩ hts vs hvs rfl
        exact .more hvs hw hcs he (hts us hus hspan)
    · rintro ⟨⟨-, hw⟩, hcs⟩ vs hvs rfl
      rw [List.append_nil]
      exact .only hvs hw hcs
    · rintro - vs hvs rfl
      rw [List.append_nil]
      exact .last hvs

/-- Behind the label, the target and the sign of an assignment, which starts at `start`. -/
theorem assignAfter (target : Target) (start : Span) :
    Spells tokens before H (Parse.assignAfter target start) fun st ts =>
      ∀ lab tgt a, LabelText lab → ExprText tgt → a.kind = .symbol .lessEquals →
        (∀ t us, lab ++ tgt = t :: us → start = t.span) → StmtText (lab ++ (tgt ++ a :: ts)) st := by
  have hspan : ∀ {lab tgt vs : List Token} {a z : Token} {y : Span}, ExprText tgt →
      (∀ t us, lab ++ tgt = t :: us → start = t.span) → y = z.span →
      start.cover y = spanOf (lab ++ (tgt ++ a :: (vs ++ [z]))) := by
    intro lab tgt vs a z y htgt hstart hy
    refine cover_eq_spanOf [] (by simp) (fun t us hus => ?_) fun t ht => ?_
    · obtain ⟨u, us', hu⟩ := List.exists_cons_of_ne_nil fun h : lab ++ tgt = [] =>
        htgt.ne_nil (List.append_eq_nil_iff.1 h).2
      rw [← List.append_assoc, hu] at hus
      exact (List.cons.inj hus).1 ▸ hstart u us' hu
    · have hz : z = t := by simpa using ht
      exact hz ▸ hy
  refine delayedValue.bind fun v vs => atKind fun _ => .ite (fun _ => ?_) fun _ => ?_
  · refine (fueled fun n => alternativesAt target n v And.right).bind fun r us =>
      expectSign fun z => lastSpan fun y => .pure ?_
    rintro ⟨⟨⟨⟨-, hvs, hwhole⟩, hus⟩, hz⟩, hy⟩ lab tgt a hlab htgt ha hstart
    have hcover : start.cover y = spanOf (lab ++ (tgt ++ a :: ((vs ++ us) ++ [z]))) :=
      hspan htgt hstart (hy z rfl)
    rw [hcover, ← List.append_assoc vs us]
    exact .conditional hlab htgt ha (hus vs hvs hwhole) hz rfl
  · refine expectSign fun z => lastSpan fun y => .pure ?_
    rintro ⟨⟨⟨-, hvs, -⟩, hz⟩, hy⟩ lab tgt a hlab htgt ha hstart
    rw [hspan htgt hstart (hy z rfl)]
    exact .assign hlab htgt ha hvs hz rfl

theorem choice : Spells tokens before H Parse.choice fun _ ts => ExprText ts := by
  refine expr.bind fun _ ts => atDirection fun _ => .ite (fun _ => .unsupported _) fun _ =>
    atKind fun _ => .ite (fun _ => .unsupported _) fun _ => .pure fun h => ?_
  rw [List.append_nil]
  exact h.2

/-- Where the word `others` does not stand, the choices do not start with it. -/
theorem choices (hnot : H → ¬Next tokens before (.keyword .kwOthers)) :
    Spells tokens before H Parse.choices fun _ ts =>
      ExprText ts ∧ ∀ t ∈ ts.head?, t.kind ≠ .keyword .kwOthers := by
  have hchoices : Spells tokens before H Parse.choices fun _ ts => ExprText ts :=
    separated (fun _ => choice) rfl fun _ => .all tokens before
  refine first (hchoices.post fun _ ts hH hts hfirst => ⟨hts, fun t ht hothers => ?_⟩)
  obtain ⟨us, rfl⟩ : ∃ us, ts = t :: us := by
    cases ts with
    | nil => cases ht
    | cons u us => exact ⟨us, congrArg (· :: us) (Option.some.inj ht)⟩
  exact hnot hH (hothers ▸ hfirst t us rfl)

/-! ### Statements of a process -/

/-- The tokens of a statement with its label. -/
def Labelled (st : Stmt) (ts : List Token) : Prop :=
  ∃ lab us, LabelText lab ∧ StmtText us st ∧ ts = lab ++ us

theorem blockAt {stmt : Parse Stmt} (hstmt : ∀ {before : List Token} {H : Prop},
    Spells tokens before H stmt Labelled) (n : Nat) :
    Spells tokens before H (Parse.blockAt stmt n) fun b ts => BlockText ts b := by
  induction n generalizing before H with
  | zero => exact .pure fun _ => .nil
  | succ n ih =>
    refine kind fun k => .ite (fun _ => .pure fun _ => .nil) fun _ => hstmt.attempt.bind fun o ts => ?_
    cases o with
    | some st =>
      refine ih.map ?_
      rintro b us ⟨-, _, ⟨⟩, lab, ts, hlab, hts, rfl⟩ hus
      rw [List.append_assoc]
      exact .cons hlab hts hus
    | none =>
      -- a statement that cannot be read is a fault
      have hstays : Keeps Faulty (Parse.blockAt stmt n) := (@ih before H).stays
      refine .of_not (reads_faulty.skipSentence.bind fun _ => hstays) ?_
      rintro ⟨-, _, ⟨⟩, -⟩

theorem eatName : Spells tokens before H Parse.eatName fun _ ts => NameText ts := by
  refine (eat_token (k := .identifier) nofun).map ?_
  rintro _ ts - (⟨-, n, rfl, hn⟩ | ⟨-, rfl, -⟩)
  · exact .some hn
  · exact .none

theorem skipLabel : Spells tokens before H Parse.skipLabel fun _ ts => LabelText ts := by
  refine get fun s => .ite (fun hlabel => ?_) fun _ => .pure fun _ => .none
  rw [Bool.and_eq_true, beq_iff_eq, beq_iff_eq] at hlabel
  refine advance (k := .identifier) (fun h => hlabel.1 ▸ h.2.next) nofun fun n => ?_
  refine (advance_token (k := .symbol .colon) (fun h => hlabel.2 ▸ h.1.2.next_second n) nofun).post ?_
  rintro _ _ ⟨-, hn⟩ ⟨c, rfl, hc⟩
  exact .some hn hc

section
variable {block : Parse (List Stmt)} (hblock : ∀ {before : List Token} {H : Prop},
  Spells tokens before H block fun b ts => BlockText ts b)
include hblock

theorem branchesAt (n : Nat) (hn : H → Left tokens before n) :
    Spells tokens before H (Parse.branchesAt block n) fun bs ts => BranchesText ts bs := by
  induction n generalizing before H with
  | zero => exact of_left_zero Keeps.pure hn
  | succ n ih =>
    refine expr.bind fun c cs => expectWord fun t => hblock.bind fun body bs =>
      eatWord (fun e => ?_) (.pure ?_)
    · refine (ih fun h => ?_).map ?_
      · exact ((((hn h.1.1.1.1).append cs).pass t).append bs).cons e
      · rintro _ us ⟨⟨⟨⟨-, hcs⟩, ht⟩, hbs⟩, he⟩ hus
        exact .more hcs ht hbs he hus
    · rintro ⟨⟨⟨-, hcs⟩, ht⟩, hbs⟩
      rw [List.append_nil]
      exact .last hcs ht hbs

theorem ifStmt : Spells tokens before H (Parse.ifStmt block) fun st ts => StmtText ts st := by
  refine expectWord fun i => (fueled fun n => branchesAt hblock n And.right).bind fun branches bs => ?_
  have hend : ∀ (os : List Token) {before : List Token} {otherwise : Option (List Stmt)} {H : Prop},
      (H → i.kind = .keyword .kwIf ∧ BranchesText bs branches ∧ ElseText os otherwise) →
      Spells tokens before H (do
        let _ ← Parse.expectWord .kwEnd
        let _ ← Parse.expectWord .kwIf
        Parse.eatName
        let _ ← Parse.expectSign .semicolon
        return Stmt.ifs branches otherwise (i.span.cover (← Parse.lastSpan)))
      fun st ts => StmtText (i :: (bs ++ (os ++ ts))) st := by
    intro os before otherwise H hH
    refine expectWord fun e => expectWord fun i' => eatName.bind fun _ name => expectSign fun z =>
      lastSpan fun y => .pure ?_
    rintro ⟨⟨⟨⟨⟨h, he⟩, hi'⟩, hname⟩, hz⟩, hy⟩
    obtain ⟨hi, hbs, hos⟩ := hH h
    have hcover : i.span.cover y = spanOf (i :: (bs ++ (os ++ e :: i' :: (name ++ [z])))) := by
      rw [hy z rfl]
      simp [spanOf, List.getLast?_cons]
    rw [hcover]
    exact .ifs hi hbs hos he hi' hname hz rfl
  refine eatWord (fun l => hblock.bind fun body us => ?_) ?_
  · refine hend (l :: us) ?_
    rintro ⟨⟨⟨⟨-, hi⟩, hbs⟩, hl⟩, hus⟩
    exact ⟨hi, hbs, .some hl hus⟩
  · exact hend [] fun h => ⟨h.1.2, h.2, .none⟩

theorem armsAt (n : Nat) (others : Option (List Stmt)) (hn : H → Left tokens before n) :
    Spells tokens before H (Parse.armsAt block n others) fun r ts =>
      ∃ alts, CasesText ts alts ∧ r = (armsOf alts, (othersOf alts).or others) := by
  induction n generalizing before H others with
  | zero => exact of_left_zero Keeps.pure hn
  | succ n ih =>
    refine span_any fun x => eatWord (fun w => eat_or nofun (fun o => ?_) ?_)
      (.pure fun _ => ⟨[], .nil, rfl⟩)
    · refine expectSign fun a => hblock.bind fun body bs => (ih (some body) fun h => ?_).post ?_
      · exact ((((hn h.1.1.1.1).pass w).cons o).cons a).append bs
      · rintro _ us ⟨⟨⟨⟨-, hw⟩, ho⟩, ha⟩, hbs⟩ ⟨alts, hus, rfl⟩
        refine ⟨.others body :: alts, .cons hw (.others ho) ha hbs hus, ?_⟩
        rw [othersOf_cons_or]
        rfl
    · refine (choices And.right).bind fun choices cs => expectSign fun a => hblock.bind fun body bs =>
        lastSpan fun y => (ih others fun h => ?_).map ?_
      · exact ((((hn h.1.1.1.1.1.1).pass w).append cs).cons a).append bs
      · rintro _ us ⟨⟨⟨⟨⟨⟨-, hw⟩, -⟩, hcs, hne⟩, ha⟩, hbs⟩, -⟩ ⟨alts, hus, rfl⟩
        refine ⟨.arm ⟨choices, body, x.cover y⟩ :: alts, .cons hw (.arm hcs hne) ha hbs hus, ?_⟩
        rw [othersOf_cons_or]
        rfl

theorem caseStmt : Spells tokens before H (Parse.caseStmt block) fun st ts => StmtText ts st := by
  refine expectWord fun c => expr.bind fun subject es => expectWord fun i =>
    (fueled fun n => armsAt hblock n none And.right).bind fun r us => expectWord fun e =>
      expectWord fun c' => eatName.bind fun _ name => expectSign fun z => lastSpan fun y => .pure ?_
  rintro ⟨⟨⟨⟨⟨⟨⟨⟨⟨-, hc⟩, hes⟩, hi⟩, alts, hus, rfl⟩, he⟩, hc'⟩, hname⟩, hz⟩, hy⟩
  have hcover : c.span.cover y = spanOf (c :: (es ++ i :: (us ++ e :: c' :: (name ++ [z])))) := by
    rw [hy z rfl]
    simp [spanOf, List.getLast?_cons]
  rw [hcover, Option.or_none]
  exact .case hc hes hi hus he hc' hname hz rfl

omit hblock in
theorem assignStmt : Spells tokens before H Parse.assignStmt fun st ts => StmtText ts st := by
  refine span fun x => target.bind fun t tgt => kind fun k => ?_
  split
  · refine advance (k := .symbol .lessEquals) And.right nofun fun a => (assignAfter t x).post ?_
    rintro st ts ⟨⟨⟨-, htgt⟩, -⟩, ha⟩ hts hx
    refine hts [] tgt a .none htgt ha fun u us hus => hx u (us ++ a :: ts) ?_
    rw [List.nil_append] at hus
    rw [hus]
    rfl
  · exact .unsupported _
  · exact .expected _

omit hblock in
theorem nullStmt : Spells tokens before H Parse.nullStmt fun st ts => StmtText ts st := by
  refine expectWord fun n => expectSign fun z => lastSpan fun y => .pure ?_
  rintro ⟨⟨⟨-, hn⟩, hz⟩, hy⟩
  rw [hy z rfl]
  exact .null hn hz

theorem stmtOf : Spells tokens before H (Parse.stmtOf block) Labelled := by
  refine skipLabel.bind fun _ lab => kind fun k => ?_
  have hlabelled : ∀ {H : Prop} {p : Parse Stmt} {before : List Token}, (H → LabelText lab) →
      Spells tokens before H p (fun st ts => StmtText ts st) →
      Spells tokens before H p fun st ts => Labelled st (lab ++ ts) :=
    fun hlab hp => hp.post fun _ ts h hts => ⟨lab, ts, hlab h, hts, rfl⟩
  split
  · exact hlabelled (fun h => h.1.2) (ifStmt hblock)
  · exact hlabelled (fun h => h.1.2) (caseStmt hblock)
  · exact hlabelled (fun h => h.1.2) nullStmt
  · exact hlabelled (fun h => h.1.2) assignStmt
  · exact .unsupported _
  · exact .unsupported _
  · exact .expected _

end

theorem nestedBlockAt (n : Nat) :
    Spells tokens before H (Parse.nestedBlockAt n) fun b ts => BlockText ts b := by
  induction n generalizing before H with
  | zero => exact .pure fun _ => .nil
  | succ n ih => exact fueled fun k => blockAt (stmtOf ih) k

theorem block : Spells tokens before H Parse.block fun b ts => BlockText ts b :=
  fueled fun n => nestedBlockAt n

/-! ### Processes -/

theorem sensitivity : Spells tokens before H Parse.sensitivity fun _ _ => True := by
  have hident : ∀ {before : List Token} {H : Prop}, (H → Left tokens before (tokens.length + 1)) →
      Spells tokens before H Parse.ident fun _ ts => ExprText ts := by
    refine fun _ => ident_token.post ?_
    rintro _ _ - ⟨t, rfl, ht⟩
    exact .ofEnd (.token (ht ▸ rfl))
  refine eatSign (fun _ => eatWord (fun _ => ?_) ?_) (.pure fun _ => trivial)
  · exact expectSign fun _ => .pure fun _ => trivial
  · exact (separated hident rfl fun _ => .all tokens _).bind fun _ _ => expectSign fun _ =>
      .pure fun _ => trivial

theorem beginProcess : Spells tokens before H Parse.beginProcess fun _ _ => True := by
  refine kind fun k => ?_
  split
  · exact (advance_token (k := .keyword .kwBegin) And.right nofun).post fun _ _ _ _ => trivial
  iterate 4 exact .unsupported _
  · exact .expected _

theorem process (label : Option String) (start : Span) :
    Spells tokens before H (Parse.process label start) fun p ts =>
      ∃ front bs back, BlockText bs p.body ∧ ts = front ++ (bs ++ back) := by
  refine expectWord fun w => sensitivity.bind fun _ ss =>
    (eat_token (k := .keyword .kwIs) nofun).bind fun _ is =>
    beginProcess.bind fun _ os => block.bind fun body bs => expectWord fun e => expectWord fun w' =>
      eatName.bind fun _ name => expectSign fun z => lastSpan fun y => .pure ?_
  rintro ⟨⟨⟨⟨⟨⟨-, hbs⟩, -⟩, -⟩, -⟩, -⟩, -⟩
  exact ⟨w :: (ss ++ (is ++ os)), bs, e :: w' :: (name ++ [z]), hbs, by simp⟩

theorem selectedAt (target : Target) (n : Nat) (others : Option (List Stmt))
    (hn : H → Left tokens before n) : Spells tokens before H (Parse.selectedAt target n others)
      fun r ts => ∃ alts, SelectedText target ts alts ∧ r = (armsOf alts, (othersOf alts).or others) := by
  induction n generalizing before H others with
  | zero => exact of_left_zero Keeps.pure hn
  | succ n ih =>
    refine span_any fun x => delayedValue.bind fun v vs => expectWord fun w =>
      eat_or nofun (fun o => ?_) ?_
    · refine eatSign (fun c => (ih _ fun h => ?_).post ?_) (.pure ?_)
      · exact (((hn h.1.1.1.1).append vs).pass w).cons o |>.cons c
      · rintro _ us ⟨⟨⟨⟨-, hvs, hspan⟩, hw⟩, ho⟩, hc⟩ ⟨alts, hus, rfl⟩
        rw [hspan]
        refine ⟨.others [.assign target v.1 (spanOf vs)] :: alts, .more hvs hw (.others ho) rfl hc hus, ?_⟩
        rw [othersOf_cons_or]
        rfl
      · rintro ⟨⟨⟨-, hvs, hspan⟩, hw⟩, ho⟩
        rw [hspan]
        exact ⟨[.others _], .last hvs hw (.others ho) rfl, rfl⟩
    · refine (choices And.right).bind fun choices cs => lastSpan fun y => eatSign (fun c => ?_) (.pure ?_)
      · refine (ih others fun h => ?_).map ?_
        · exact (((hn h.1.1.1.1.1.1).append vs).pass w).append cs |>.cons c
        · rintro _ us ⟨⟨⟨⟨⟨⟨-, hvs, hspan⟩, hw⟩, -⟩, hcs, hne⟩, -⟩, hc⟩ ⟨alts, hus, rfl⟩
          rw [hspan]
          refine ⟨.arm ⟨choices, [.assign target v.1 (spanOf vs)], x.cover y⟩ :: alts,
            .more hvs hw (.arm hcs hne) rfl hc hus, ?_⟩
          rw [othersOf_cons_or]
          rfl
      · rintro ⟨⟨⟨⟨⟨-, hvs, hspan⟩, hw⟩, -⟩, hcs, hne⟩, -⟩
        rw [hspan, List.append_nil]
        exact ⟨[.arm ⟨choices, [.assign target v.1 (spanOf vs)], x.cover y⟩],
          .last hvs hw (.arm hcs hne) rfl, rfl⟩

/-- The statement that a process outside of `process` stands for, which starts at `start`. -/
def StandsFor (start : Span) (p : Process) (ts : List Token) : Prop :=
  ∀ lab, LabelText lab → (∀ t us, lab ++ ts = t :: us → start = t.span) →
    ∃ st, p.body = [st] ∧ StmtText (lab ++ ts) st

theorem selectedAssign (label : Option String) (start : Span) :
    Spells tokens before H (Parse.selectedAssign label start) (StandsFor start) := by
  refine expectWord fun w => expr.bind fun subject es => expectWord fun s => target.bind fun t tgt =>
    expectSign fun a => (fueled fun n => selectedAt t n none And.right).bind fun r us =>
      expectSign fun z => lastSpan fun y => .pure ?_
  rintro ⟨⟨⟨⟨⟨⟨⟨⟨-, hw⟩, hes⟩, hs⟩, htgt⟩, ha⟩, alts, hus, rfl⟩, hz⟩, hy⟩ lab hlab hstart
  have hcover : start.cover y = spanOf (lab ++ w :: (es ++ s :: (tgt ++ a :: (us ++ [z])))) := by
    refine cover_eq_spanOf [] (by simp) hstart fun t ht => ?_
    have hz' : z = t := by simpa using ht
    exact hz' ▸ hy z rfl
  refine ⟨_, rfl, ?_⟩
  rw [hcover, Option.or_none]
  exact .selected hlab hw hes hs htgt ha hus hz rfl

theorem concurrentAssign (label : Option String) (start : Span) :
    Spells tokens before H (Parse.concurrentAssign label start) (StandsFor start) := by
  refine target.bind fun t tgt => expectSign fun a => (assignAfter t start).bind fun st us =>
    lastSpan fun y => .pure ?_
  rintro ⟨⟨⟨⟨-, htgt⟩, ha⟩, hus⟩, -⟩ lab hlab hstart
  rw [List.append_nil] at hstart ⊢
  refine ⟨st, rfl, hus lab tgt a hlab htgt ha fun u vs hvs => hstart u (vs ++ a :: us) ?_⟩
  rw [← List.append_assoc, hvs]
  rfl

end Spells

end Parse

end HdlLint.Syntax
