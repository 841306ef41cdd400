import Mathlib.Data.Bool.Count
import HdlLint.Proofs.ProcessTexts

/-!
# The alternatives of a case

The alternatives of a `case` or of a selected assignment are counted here in its tokens alone, without
reading it (`alternatives`), and compared with what the tree keeps of them. A statement without a fault
has an arm for each alternative that is not `others`, in any number, but of the alternatives `others` only
one. So none is lost just if there is at most one `others` (`parse_keepsAlternatives`), and where this is
so for all the statements inside too, each semicolon between the words of the statement is the end of one
that the tree has.
-/

namespace HdlLint

/-! ### Alternatives of a text -/

/-- The kinds that neither start nor end anything that is counted or passed over. -/
def TokenKind.isQuiet : TokenKind → Bool
  | .symbol .tick | .keyword .kwAfter | .keyword .kwCase | .keyword .kwWhen => false
  | _ => true

theorem TokenKind.isQuiet_of_inExpr {k : TokenKind} (h : k.inExpr) : k.isQuiet := by
  unfold isQuiet
  split
  iterate 4 cases h
  rfl

namespace Syntax

/-- What is passed over at hand. -/
inductive Skipping where
  | nothing
  | attributeName
  | delay

/-- The kinds of the tokens apart from the names of attributes and from delays, in which any word may
stand. -/
def significantAt : Skipping → List Token → List TokenKind
  | _, [] => []
  | .nothing, t :: ts =>
    if t.kind = .symbol .tick then significantAt .attributeName ts
    else if t.kind = .keyword .kwAfter then significantAt .delay ts
    else t.kind :: significantAt .nothing ts
  | .attributeName, _ :: ts => significantAt .nothing ts
  | .delay, t :: ts =>
    if Clause.endsDelay t.kind then t.kind :: significantAt .nothing ts else significantAt .delay ts

/-- For each word `when` outside of the nested statements `case` that stands behind a kind with `opens`:
whether `others` follows it. The kind `last` stands in front of the kinds given. -/
def whensAt (opens : TokenKind → Bool) : Nat → TokenKind → List TokenKind → List Bool
  | _, _, [] => []
  | depth, last, k :: ks =>
    if k = .keyword .kwCase then
      whensAt opens (if last = .keyword .kwEnd then depth - 1 else depth + 1) k ks
    else if k = .keyword .kwWhen ∧ depth = 0 ∧ opens last then
      decide (ks.head? = some (.keyword .kwOthers)) :: whensAt opens depth k ks
    else
      whensAt opens depth k ks

/-- In a `case` an alternative starts where a statement could start. Behind a value the word `when`
belongs to an assignment. -/
def opensAlternative : TokenKind → Bool
  | .keyword .kwIs | .symbol .semicolon | .symbol .arrow => true
  | _ => false

/-- For each alternative of a `case` or of a selected assignment with these tokens: whether it is
`others`. -/
def alternatives (ts : List Token) : List Bool :=
  match significantAt .nothing ts with
  | .keyword .kwCase :: ks => whensAt opensAlternative 0 (.keyword .kwCase) ks
  | ks => whensAt (fun _ => true) 0 .eof ks

/-- The tokens that start inside of the span. -/
def tokensIn (tokens : List Token) (span : Span) : List Token :=
  tokens.filter fun t => decide (span.start ≤ t.span.start) && decide (t.span.start < span.stop)

/-! ### Counting along a text -/

section
variable {opens : TokenKind → Bool} {depth : Nat} {last k : TokenKind} {t : Token} {ts us : List Token}

/-- The words `when` of tokens. -/
def whens (opens : TokenKind → Bool) (depth : Nat) (last : TokenKind) (ts : List Token) : List Bool :=
  whensAt opens depth last (significantAt .nothing ts)

theorem significantAt_cons (hk : t.kind = k) (htick : k ≠ .symbol .tick) (hafter : k ≠ .keyword .kwAfter) :
    significantAt .nothing (t :: ts) = k :: significantAt .nothing ts := by
  rw [significantAt, hk, if_neg htick, if_neg hafter]

theorem whens_cons (hk : t.kind = k) (hquiet : k.isQuiet) :
    whens opens depth last (t :: ts) = whens opens depth k ts := by
  have hne : ∀ k', k'.isQuiet = false → k ≠ k' := by
    rintro k' hk' rfl
    rw [hk'] at hquiet
    cases hquiet
  rw [whens, significantAt_cons hk (hne _ rfl) (hne _ rfl), whensAt, if_neg (hne _ rfl),
    if_neg fun h => hne _ rfl h.1]
  rfl

theorem whens_attribute {w : Token} (ht : t.kind = .symbol .tick) :
    whens opens depth last (t :: w :: ts) = whens opens depth last ts := by
  rw [whens, significantAt, if_pos ht]
  rfl

theorem whens_case (ht : t.kind = .keyword .kwCase) : whens opens depth last (t :: ts) =
    whens opens (if last = .keyword .kwEnd then depth - 1 else depth + 1) (.keyword .kwCase) ts := by
  rw [whens, significantAt_cons ht nofun nofun, whensAt, if_pos rfl]
  rfl

/-- A word `when` that is not counted. -/
theorem whens_when_inner (ht : t.kind = .keyword .kwWhen) (h : depth = 0 → opens last = false) :
    whens opens depth last (t :: ts) = whens opens depth (.keyword .kwWhen) ts := by
  rw [whens, significantAt_cons ht nofun nofun, whensAt, if_neg nofun, if_neg]
  · rfl
  · rintro ⟨-, hdepth, hopens⟩
    rw [h hdepth] at hopens
    cases hopens

theorem whens_when (ht : t.kind = .keyword .kwWhen) (h : opens last) : whens opens 0 last (t :: ts) =
    decide ((significantAt .nothing ts).head? = some (.keyword .kwOthers)) ::
      whens opens 0 (.keyword .kwWhen) ts := by
  rw [whens, significantAt_cons ht nofun nofun, whensAt, if_neg nofun, if_pos ⟨rfl, rfl, h⟩]
  rfl

/-- Along the tokens nothing is counted, and behind them `last'` is the last kind. -/
def Moves (opens : TokenKind → Bool) (last last' : TokenKind) (ts : List Token) : Prop :=
  ∀ depth us, whens opens depth last (ts ++ us) = whens opens depth last' us

theorem Moves.nil : Moves opens last last [] := fun _ _ => rfl

theorem Moves.cons {last' : TokenKind} (hk : t.kind = k) (hquiet : k.isQuiet) (h : Moves opens k last' ts) :
    Moves opens last last' (t :: ts) :=
  fun depth us => (whens_cons hk hquiet).trans (h depth us)

theorem Moves.append {last' last'' : TokenKind} (h : Moves opens last last' ts)
    (h' : Moves opens last' last'' us) : Moves opens last last'' (ts ++ us) := by
  intro depth vs
  rw [List.append_assoc, h, h']

theorem Phrase.moves (h : Phrase ts) (opens : TokenKind → Bool) (last : TokenKind) :
    ∃ last', Moves opens last last' ts := by
  induction h generalizing last with
  | nil => exact ⟨last, .nil⟩
  | @cons t ts ht _ ih =>
    obtain ⟨last', hmoves⟩ := ih t.kind
    exact ⟨last', hmoves.cons rfl (TokenKind.isQuiet_of_inExpr ht)⟩
  | «attribute» hn hk _ _ ih =>
    obtain ⟨last', hmoves⟩ := ih .identifier
    refine ⟨last', .cons hn rfl fun depth us => ?_⟩
    exact (whens_attribute hk).trans (hmoves depth us)

/-- Behind an expression the last kind is that of an operand. -/
theorem ExprText.moves (h : ExprText ts) (opens : TokenKind → Bool) (last : TokenKind) :
    ∃ k : TokenKind, k.endsOperand ∧ Moves opens last k ts := by
  obtain ⟨front, back, hfront, hback, rfl⟩ := h
  obtain ⟨last', hmoves⟩ := hfront.moves opens last
  cases hback with
  | @token t ht =>
    refine ⟨t.kind, ht, hmoves.append (.cons rfl ?_ .nil)⟩
    exact TokenKind.isQuiet_of_inExpr (TokenKind.inExpr_of_endsOperand ht)
  | «attribute» hn hk _ =>
    exact ⟨.identifier, rfl, hmoves.append (.cons hn rfl fun _ _ => whens_attribute hk)⟩

theorem opensAlternative_of_endsOperand (h : k.endsOperand) : opensAlternative k = false := by
  unfold opensAlternative
  split
  iterate 3 cases h
  rfl

/-- A delay is passed over up to the token that ends it. -/
theorem DelayText.significantAt (h : DelayText ts) (ht : Clause.endsDelay t.kind) :
    significantAt .nothing (ts ++ t :: us) = Syntax.significantAt .nothing (t :: us) := by
  have hne : ∀ k, Clause.endsDelay k = false → t.kind ≠ k := by
    rintro k hk rfl
    rw [ht] at hk
    cases hk
  cases h with
  | none => rfl
  | @some a ts ha hts =>
    rw [List.cons_append, Syntax.significantAt, ha, if_neg nofun, if_pos rfl]
    induction ts with
    | nil => exact (if_pos ht).trans (significantAt_cons rfl (hne _ rfl) (hne _ rfl)).symm
    | cons u ts ih =>
      obtain ⟨hu, hts⟩ := List.forall_mem_cons.1 hts
      exact (if_neg (Bool.eq_false_iff.1 hu)).trans (ih hts)

/-- The same for a value in front of a token that ends delays. -/
theorem ValueText.whens (h : ValueText ts) (opens : TokenKind → Bool) (last : TokenKind) :
    ∃ k : TokenKind, k.endsOperand ∧ ∀ {depth t us}, Clause.endsDelay t.kind →
      whens opens depth last (ts ++ t :: us) = Syntax.whens opens depth k (t :: us) := by
  obtain ⟨es, ds, hes, hds, rfl⟩ := h
  obtain ⟨k, hk, hmoves⟩ := hes.moves opens last
  refine ⟨k, hk, fun ht => ?_⟩
  rw [List.append_assoc, hmoves, Syntax.whens, hds.significantAt ht]
  rfl

theorem ValueText.moves (h : ValueText ts) (opens : TokenKind → Bool) (last : TokenKind) :
    ∃ k : TokenKind, k.endsOperand ∧ ∀ {t last'} {us : List Token}, Clause.endsDelay t.kind →
      Moves opens k last' (t :: us) → Moves opens last last' (ts ++ t :: us) := by
  obtain ⟨k, hk, hvalue⟩ := h.whens opens last
  refine ⟨k, hk, fun ht hmoves depth us => ?_⟩
  rw [← hmoves depth us, List.append_assoc]
  exact hvalue ht

theorem LabelText.moves (h : LabelText ts) (opens : TokenKind → Bool) (last : TokenKind) :
    ∃ last', Moves opens last last' ts := by
  cases h with
  | none => exact ⟨last, .nil⟩
  | some hn hc => exact ⟨.symbol .colon, .cons hn rfl (.cons hc rfl .nil)⟩

theorem NameText.moves (h : NameText ts) (opens : TokenKind → Bool) (last : TokenKind) :
    ∃ last', Moves opens last last' ts := by
  cases h with
  | none => exact ⟨last, .nil⟩
  | some hn => exact ⟨.identifier, .cons hn rfl .nil⟩

theorem WhenText.moves {alt : Alternative} (h : WhenText ts alt) (opens : TokenKind → Bool)
    (last : TokenKind) : ∃ last', Moves opens last last' ts := by
  cases h with
  | arm hcs _ =>
    obtain ⟨k, -, hmoves⟩ := hcs.moves opens last
    exact ⟨k, hmoves⟩
  | others ho => exact ⟨_, .cons ho rfl .nil⟩

def Alternative.isOthers (alt : Alternative) : Bool := alt.others?.isSome

/-- The first token of an expression is none that is passed over. -/
theorem ExprText.head_significantAt (h : ExprText ts) :
    (significantAt .nothing (ts ++ us)).head? = ts.head?.map Token.kind := by
  have hphrase := h.phrase
  cases hphrase with
  | nil => exact absurd rfl h.ne_nil
  | @cons t ts ht _ =>
    have hne : ∀ k : TokenKind, k.inExpr = false → t.kind ≠ k := by
      rintro k hk rfl
      rw [hk] at ht
      cases ht
    rw [List.cons_append, significantAt_cons rfl (hne _ rfl) (hne _ rfl)]
    rfl
  | «attribute» hn _ _ _ =>
    rw [List.cons_append, significantAt_cons hn nofun nofun, List.head?_cons, List.head?_cons,
      Option.map_some, hn]

theorem WhenText.head_significantAt {alt : Alternative} (h : WhenText ts alt) :
    decide ((significantAt .nothing (ts ++ us)).head? = some (.keyword .kwOthers)) = alt.isOthers := by
  cases h with
  | arm hcs hne =>
    rw [hcs.head_significantAt]
    refine decide_eq_false fun h => ?_
    obtain ⟨t, ht, hkind⟩ := Option.map_eq_some_iff.1 h
    exact hne t ht hkind
  | others ho =>
    rw [List.cons_append, significantAt_cons ho nofun nofun]
    rfl

end

/-! ### Counting along statements -/

section
variable {depth : Nat} {last k : TokenKind} {t z : Token} {ts us : List Token}

/-- A word `when` behind a value starts no alternative of a `case`. -/
theorem Moves.when {last' : TokenKind} (ht : t.kind = .keyword .kwWhen) (hk : k.endsOperand)
    (h : Moves opensAlternative (.keyword .kwWhen) last' ts) : Moves opensAlternative k last' (t :: ts) :=
  fun depth us =>
    (whens_when_inner ht fun _ => opensAlternative_of_endsOperand hk).trans (h depth us)

theorem ValuesText.moves {target : Target} {branches : List Branch} {otherwise : Option (List Stmt)}
    (h : ValuesText target ts branches otherwise) (hz : z.kind = .symbol .semicolon) (last : TokenKind) :
    Moves opensAlternative last (.symbol .semicolon) (ts ++ [z]) := by
  induction h generalizing last with
  | last hvs =>
    obtain ⟨k, -, hvalue⟩ := hvs.moves opensAlternative last
    exact hvalue (hz ▸ rfl) (.cons hz rfl .nil)
  | only hvs hw hcs =>
    obtain ⟨k, hk, hvalue⟩ := hvs.moves opensAlternative last
    obtain ⟨k', -, hcondition⟩ := hcs.moves opensAlternative (.keyword .kwWhen)
    rw [List.append_assoc]
    exact hvalue (hw ▸ rfl) (.when hw hk (hcondition.append (.cons hz rfl .nil)))
  | more hvs hw hcs he _ ih =>
    obtain ⟨k, hk, hvalue⟩ := hvs.moves opensAlternative last
    obtain ⟨k', -, hcondition⟩ := hcs.moves opensAlternative (.keyword .kwWhen)
    rw [List.append_assoc, List.cons_append, List.append_assoc, List.cons_append]
    exact hvalue (hw ▸ rfl) (.when hw hk (hcondition.append (.cons he rfl (ih _))))

theorem SelectedText.moves {target : Target} {alts : List Alternative} (h : SelectedText target ts alts)
    (last : TokenKind) : ∃ last', Moves opensAlternative last last' ts := by
  induction h generalizing last with
  | last hvs hw hhs _ =>
    obtain ⟨k, hk, hvalue⟩ := hvs.moves opensAlternative last
    obtain ⟨last', hmoves⟩ := hhs.moves opensAlternative (.keyword .kwWhen)
    exact ⟨last', hvalue (hw ▸ rfl) (.when hw hk hmoves)⟩
  | more hvs hw hhs _ hc _ ih =>
    obtain ⟨k, hk, hvalue⟩ := hvs.moves opensAlternative last
    obtain ⟨k', hmoves⟩ := hhs.moves opensAlternative (.keyword .kwWhen)
    obtain ⟨last', hmore⟩ := ih (.symbol .comma)
    exact ⟨last', hvalue (hw ▸ rfl) (.when hw hk (hmoves.append (.cons hc rfl hmore)))⟩

/-- Alternatives of a `case` count only if it is not nested in the one whose alternatives are counted. -/
def counted (depth : Nat) (alts : List Alternative) : List Bool :=
  if depth = 0 then alts.map Alternative.isOthers else []

mutual

theorem StmtText.moves : ∀ {ts st}, StmtText ts st → ∀ last, last ≠ .keyword .kwEnd →
    Moves opensAlternative last (.symbol .semicolon) ts
  | _, _, .assign hlab htgt ha hvs hz heq, last, _ => by
    subst heq
    obtain ⟨l, hlabel⟩ := hlab.moves opensAlternative last
    obtain ⟨k, -, htarget⟩ := htgt.moves opensAlternative l
    obtain ⟨k', -, hvalue⟩ := hvs.moves opensAlternative (.symbol .lessEquals)
    exact hlabel.append (htarget.append (.cons ha rfl (hvalue (hz ▸ rfl) (.cons hz rfl .nil))))
  | _, _, .conditional hlab htgt ha hvs hz heq, last, _ => by
    subst heq
    obtain ⟨l, hlabel⟩ := hlab.moves opensAlternative last
    obtain ⟨k, -, htarget⟩ := htgt.moves opensAlternative l
    exact hlabel.append (htarget.append (.cons ha rfl (hvs.moves hz _)))
  | _, _, .selected hlab hw hes hs htgt ha hus hz heq, last, _ => by
    subst heq
    obtain ⟨l, hlabel⟩ := hlab.moves opensAlternative last
    obtain ⟨k, -, hsubject⟩ := hes.moves opensAlternative (.keyword .kwWith)
    obtain ⟨k', -, htarget⟩ := htgt.moves opensAlternative (.keyword .kwSelect)
    obtain ⟨l', hselected⟩ := hus.moves (.symbol .lessEquals)
    exact hlabel.append (.cons hw rfl (hsubject.append (.cons hs rfl (htarget.append
      (.cons ha rfl (hselected.append (.cons hz rfl .nil)))))))
  | _, _, .ifs hi hbs hos he hi' hname hz heq, last, _ => by
    subst heq
    obtain ⟨l, hbranches⟩ := BranchesText.moves hbs (.keyword .kwIf)
    obtain ⟨l', hotherwise⟩ := ElseText.moves hos l
    obtain ⟨l'', hend⟩ := hname.moves opensAlternative (.keyword .kwIf)
    exact .cons hi rfl (hbranches.append (hotherwise.append (.cons he rfl (.cons hi' rfl
      (hend.append (.cons hz rfl .nil))))))
  | _, _, .case hc hes hi hus he hc' hname hz heq, last, hlast => by
    subst heq
    obtain ⟨k, -, hsubject⟩ := hes.moves opensAlternative (.keyword .kwCase)
    obtain ⟨l, hend⟩ := hname.moves opensAlternative (.keyword .kwCase)
    intro depth vs
    -- the statement is one deeper from its first word to its closing ones
    obtain ⟨l', hcases⟩ := CasesText.whens hus (.keyword .kwIs) rfl (depth + 1)
    rw [List.cons_append, whens_case hc, if_neg hlast, List.append_assoc, hsubject, List.cons_append,
      whens_cons hi rfl, List.append_assoc, hcases, List.cons_append, whens_cons he rfl, List.cons_append,
      whens_case hc', if_pos rfl, List.append_assoc, hend]
    exact whens_cons hz rfl
  | _, _, .null hn hz, _, _ => .cons hn rfl (.cons hz rfl .nil)

theorem BlockText.moves : ∀ {ts b}, BlockText ts b → ∀ last, last ≠ .keyword .kwEnd →
    ∃ last', (last' = last ∨ last' = .symbol .semicolon) ∧ Moves opensAlternative last last' ts
  | _, _, .nil, last, _ => ⟨last, .inl rfl, .nil⟩
  | _, _, .cons hlab hts hus, last, hlast => by
    obtain ⟨last', hlast', hmore⟩ := BlockText.moves hus (.symbol .semicolon) nofun
    refine ⟨last', .inr (hlast'.elim id id), ?_⟩
    cases hlab with
    | none => exact (StmtText.moves hts last hlast).append hmore
    | some hn hc =>
      exact .cons hn rfl (.cons hc rfl ((StmtText.moves hts (.symbol .colon) nofun).append hmore))

theorem BranchesText.moves : ∀ {ts branches}, BranchesText ts branches → ∀ last,
    ∃ last', Moves opensAlternative last last' ts
  | _, _, .last hcs ht hbs, last => by
    obtain ⟨k, -, hcondition⟩ := hcs.moves opensAlternative last
    obtain ⟨l, -, hbody⟩ := BlockText.moves hbs (.keyword .kwThen) nofun
    exact ⟨l, hcondition.append (.cons ht rfl hbody)⟩
  | _, _, .more hcs ht hbs he hus, last => by
    obtain ⟨k, -, hcondition⟩ := hcs.moves opensAlternative last
    obtain ⟨l, -, hbody⟩ := BlockText.moves hbs (.keyword .kwThen) nofun
    obtain ⟨l', hmore⟩ := BranchesText.moves hus (.keyword .kwElsif)
    exact ⟨l', hcondition.append (.cons ht rfl (hbody.append (.cons he rfl hmore)))⟩

theorem ElseText.moves : ∀ {ts otherwise}, ElseText ts otherwise → ∀ last,
    ∃ last', Moves opensAlternative last last' ts
  | _, _, .none, last => ⟨last, .nil⟩
  | _, _, .some he hbs, _ => by
    obtain ⟨l, -, hbody⟩ := BlockText.moves hbs (.keyword .kwElse) nofun
    exact ⟨l, .cons he rfl hbody⟩

theorem CasesText.whens : ∀ {ts alts}, CasesText ts alts → ∀ last, opensAlternative last → ∀ depth,
    ∃ last', ∀ us, whens opensAlternative depth last (ts ++ us) =
      counted depth alts ++ Syntax.whens opensAlternative depth last' us
  | _, _, .nil, last, _, depth => ⟨last, fun us => by rw [counted, List.map_nil, ite_self]; rfl⟩
  | _, _, .cons hw hhs ha hbs hus, last, hlast, depth => by
    obtain ⟨l, hhead⟩ := hhs.moves opensAlternative (.keyword .kwWhen)
    obtain ⟨l', hl', hbody⟩ := BlockText.moves hbs (.symbol .arrow) nofun
    have hopens : opensAlternative l' := by rcases hl' with rfl | rfl <;> rfl
    obtain ⟨l'', hmore⟩ := CasesText.whens hus l' hopens depth
    refine ⟨l'', fun vs => ?_⟩
    have hrest : Syntax.whens opensAlternative depth (.keyword .kwWhen) _ = _ :=
      ((hhead.append (.cons ha rfl hbody)) depth _).trans (hmore vs)
    rw [List.append_assoc, List.cons_append] at hrest
    rw [List.cons_append, List.append_assoc, List.cons_append, List.append_assoc]
    cases depth with
    | zero =>
      rw [whens_when hw hlast, hhs.head_significantAt, hrest]
      rfl
    | succ depth =>
      rw [whens_when_inner hw fun h => absurd h (Nat.succ_ne_zero depth), hrest]
      rfl

end

theorem whens_nil (opens : TokenKind → Bool) (depth : Nat) (last : TokenKind) :
    whens opens depth last [] = [] := rfl

theorem alternatives_case (ht : t.kind = .keyword .kwCase) :
    alternatives (t :: ts) = whens opensAlternative 0 (.keyword .kwCase) ts := by
  rw [alternatives, significantAt_cons ht nofun nofun]
  rfl

theorem alternatives_selected (ht : t.kind = k) (hquiet : k.isQuiet) :
    alternatives (t :: ts) = whens (fun _ => true) 0 k ts := by
  have hne : ∀ k', k'.isQuiet = false → k ≠ k' := by
    rintro k' hk' rfl
    rw [hk'] at hquiet
    cases hquiet
  have hfirst : whens (fun _ => true) 0 .eof (t :: ts) = whens (fun _ => true) 0 k ts :=
    whens_cons ht hquiet
  rw [← hfirst, whens, alternatives, significantAt_cons ht (hne _ rfl) (hne _ rfl)]
  split
  · rename_i heq
    exact absurd (List.cons.inj heq).1 (hne _ rfl)
  · rfl

/-- All words `when` of a selected assignment start alternatives. -/
theorem SelectedText.whens {target : Target} {alts : List Alternative} (h : SelectedText target ts alts)
    (last : TokenKind) : ∃ last', ∀ us, whens (fun _ => true) 0 last (ts ++ us) =
      alts.map Alternative.isOthers ++ Syntax.whens (fun _ => true) 0 last' us := by
  induction h generalizing last with
  | last hvs hw hhs _ =>
    obtain ⟨k, -, hvalue⟩ := hvs.whens (fun _ => true) last
    obtain ⟨last', hmoves⟩ := hhs.moves (fun _ => true) (.keyword .kwWhen)
    refine ⟨last', fun us => ?_⟩
    rw [List.append_assoc, List.cons_append, hvalue (hw ▸ rfl), whens_when hw rfl, hhs.head_significantAt,
      hmoves]
    rfl
  | more hvs hw hhs _ hc _ ih =>
    obtain ⟨k, -, hvalue⟩ := hvs.whens (fun _ => true) last
    obtain ⟨k', hmoves⟩ := hhs.moves (fun _ => true) (.keyword .kwWhen)
    obtain ⟨last', hmore⟩ := ih (.symbol .comma)
    refine ⟨last', fun us => ?_⟩
    rw [List.append_assoc, List.cons_append, List.append_assoc, List.cons_append, hvalue (hw ▸ rfl),
      whens_when hw rfl, hhs.head_significantAt, hmoves, whens_cons hc rfl, hmore]
    rfl

theorem CasesText.alternatives {es name : List Token} {c i e c' : Token} {alts : List Alternative}
    (h : CasesText us alts) (hc : c.kind = .keyword .kwCase) (hes : ExprText es)
    (hi : i.kind = .keyword .kwIs) (he : e.kind = .keyword .kwEnd) (hc' : c'.kind = .keyword .kwCase)
    (hname : NameText name) (hz : z.kind = .symbol .semicolon) :
    alternatives (c :: (es ++ i :: (us ++ e :: c' :: (name ++ [z])))) =
      alts.map Alternative.isOthers := by
  obtain ⟨k, -, hsubject⟩ := hes.moves opensAlternative (.keyword .kwCase)
  obtain ⟨l, hcases⟩ := h.whens (.keyword .kwIs) rfl 0
  obtain ⟨l', hend⟩ := hname.moves opensAlternative (.keyword .kwCase)
  rw [alternatives_case hc, hsubject, whens_cons hi rfl, hcases, whens_cons he rfl, whens_case hc', hend,
    whens_cons hz rfl, whens_nil, List.append_nil]
  rfl

/-- The alternatives that are counted are those that are written. -/
theorem StmtText.alternatives {subject : Expr} {arms : List Arm} {others : Option (List Stmt)} {span : Span}
    (h : StmtText ts (.case subject arms others span)) : ∃ alts, arms = armsOf alts ∧
      others = othersOf alts ∧ alternatives ts = alts.map Alternative.isOthers := by
  cases h with
  | @selected _ lab es tgt us w s a z _ _ alts hlab hw hes hs htgt ha hus hz heq =>
    refine ⟨alts, rfl, rfl, ?_⟩
    subst heq
    obtain ⟨k, -, hsubject⟩ := hes.moves (fun _ => true) (.keyword .kwWith)
    obtain ⟨k', -, htarget⟩ := htgt.moves (fun _ => true) (.keyword .kwSelect)
    obtain ⟨l, hselected⟩ := hus.whens (.symbol .lessEquals)
    have hrest : whens (fun _ => true) 0 (.keyword .kwWith) (es ++ s :: (tgt ++ a :: (us ++ [z]))) =
        alts.map Alternative.isOthers := by
      rw [hsubject, whens_cons hs rfl, htarget, whens_cons ha rfl, hselected, whens_cons hz rfl, whens_nil,
        List.append_nil]
    cases hlab with
    | none => exact (alternatives_selected hw rfl).trans hrest
    | some hn hc =>
      rw [List.cons_append, alternatives_selected hn rfl, List.cons_append, whens_cons hc rfl]
      exact (whens_cons hw rfl).trans hrest
  | @case _ es us name c i e c' z _ alts hc hes hi hus he hc' hname hz heq =>
    exact ⟨alts, rfl, rfl, heq ▸ hus.alternatives hc hes hi he hc' hname hz⟩

end

/-! ### Statements inside of statements -/

def Stmt.span : Stmt → Span
  | .assign _ _ span | .ifs _ _ span | .case _ _ _ span | .null span => span

/-- The blocks under a statement. -/
def Stmt.blocks : Stmt → List (List Stmt)
  | .assign _ _ _ | .null _ => []
  | .ifs branches otherwise _ => branches.map (·.body) ++ otherwise.toList
  | .case _ arms others _ => arms.map (·.body) ++ others.toList

/-- The statement stands in the block or in a block under one of its statements. -/
inductive InBlock (st : Stmt) : List Stmt → Prop where
  | here {b : List Stmt} : st ∈ b → InBlock st b
  | under {b c : List Stmt} {st' : Stmt} : st' ∈ b → c ∈ st'.blocks → InBlock st c → InBlock st b

theorem InBlock.mono {st : Stmt} {b b' : List Stmt} (h : InBlock st b) (hsub : ∀ x ∈ b, x ∈ b') :
    InBlock st b' := by
  cases h with
  | here hst => exact .here (hsub _ hst)
  | under hst hc hin => exact .under (hsub _ hst) hc hin

theorem InBlock.of_mem_blocks {st st' : Stmt} {c : List Stmt} (h : InBlock st c) (hc : c ∈ st'.blocks) :
    InBlock st [st'] :=
  .under (List.mem_singleton_self st') hc h

section
variable {alts : List Alternative} {b c : List Stmt}

theorem length_armsOf (alts : List Alternative) :
    (armsOf alts).length = (alts.map Alternative.isOthers).count false := by
  induction alts with
  | nil => rfl
  | cons alt alts ih =>
    rw [List.map_cons, List.count_cons, ← ih]
    cases alt with
    | arm a => rfl
    | others b => rfl

theorem isSome_othersOf (alts : List Alternative) :
    (othersOf alts).isSome ↔ true ∈ alts.map Alternative.isOthers := by
  induction alts with
  | nil => simp [othersOf]
  | cons alt alts ih =>
    rw [othersOf, Option.isSome_or, Bool.or_eq_true, ih, List.map_cons, List.mem_cons, or_comm,
      Alternative.isOthers, eq_comm]

theorem exists_of_othersOf (h : othersOf alts = some b) : .others b ∈ alts := by
  induction alts with
  | nil => cases h
  | cons alt alts ih =>
    rcases Option.or_eq_some_iff.1 h with hlast | ⟨-, hthis⟩
    · exact List.mem_cons_of_mem _ (ih hlast)
    · cases alt with
      | arm a => cases hthis
      | others b' => exact Option.some.inj hthis ▸ List.mem_cons_self

/-- What the tree keeps under a `case` was written as an alternative. -/
theorem exists_alternative (h : c ∈ (armsOf alts).map (·.body) ++ (othersOf alts).toList) :
    ∃ alt ∈ alts, alt.body = c := by
  rcases List.mem_append.1 h with h | h
  · obtain ⟨a, ha, rfl⟩ := List.mem_map.1 h
    obtain ⟨alt, halt, harm⟩ := List.mem_filterMap.1 ha
    cases alt with
    | arm a' => exact ⟨.arm a', halt, congrArg Arm.body (Option.some.inj harm)⟩
    | others b => cases harm
  · exact ⟨.others c, exists_of_othersOf (Option.mem_toList.1 h), rfl⟩

theorem othersOf_eq_some (hone : (alts.map Alternative.isOthers).count true ≤ 1)
    (h : .others b ∈ alts) : othersOf alts = some b := by
  induction alts with
  | nil => cases h
  | cons alt alts ih =>
    rw [List.map_cons, List.count_cons] at hone
    rcases List.mem_cons.1 h with rfl | h
    · have hnone : othersOf alts = none := by
        rw [← Option.not_isSome_iff_eq_none, isSome_othersOf, ← List.count_eq_zero]
        have hthis : (if Alternative.isOthers (.others b) == true then 1 else 0) = 1 := rfl
        omega
      rw [othersOf, hnone]
      rfl
    · rw [othersOf, ih (by omega) h]
      rfl

/-- If `others` is written at most once, the tree keeps all alternatives. -/
theorem body_mem_blocks (hone : (alts.map Alternative.isOthers).count true ≤ 1) {alt : Alternative}
    (h : alt ∈ alts) : alt.body ∈ (armsOf alts).map (·.body) ++ (othersOf alts).toList := by
  cases alt with
  | arm a => exact List.mem_append_left _ (List.mem_map_of_mem (List.mem_filterMap.2 ⟨.arm a, h, rfl⟩))
  | others b => exact List.mem_append_right _ (Option.mem_toList.2 (othersOf_eq_some hone h))

end

section
variable {ts : List Token}

theorem BranchesText.block : ∀ {ts branches}, BranchesText ts branches → ∀ br ∈ branches,
    ∃ us, us <:+: ts ∧ BlockText us br.body
  | _, _, @BranchesText.last cs bs t _ _ _ _ hbs, br, hbr => by
    obtain rfl := List.mem_singleton.1 hbr
    exact ⟨bs, ⟨cs ++ [t], [], by simp⟩, hbs⟩
  | _, _, @BranchesText.more cs bs us t e _ _ _ _ _ hbs _ hus, br, hbr => by
    rcases List.mem_cons.1 hbr with rfl | hbr
    · exact ⟨bs, ⟨cs ++ [t], e :: us, by simp⟩, hbs⟩
    · obtain ⟨vs, hvs, hbody⟩ := BranchesText.block hus br hbr
      exact ⟨vs, hvs.trans ⟨cs ++ t :: (bs ++ [e]), [], by simp⟩, hbody⟩

theorem CasesText.block : ∀ {ts alts}, CasesText ts alts → ∀ alt ∈ alts,
    ∃ us, us <:+: ts ∧ BlockText us alt.body
  | _, _, @CasesText.cons hs bs us w a _ _ _ _ _ hbs hus, alt, halt => by
    rcases List.mem_cons.1 halt with rfl | halt
    · exact ⟨bs, ⟨w :: (hs ++ [a]), us, by simp⟩, hbs⟩
    · obtain ⟨vs, hvs, hbody⟩ := CasesText.block hus alt halt
      exact ⟨vs, hvs.trans ⟨w :: (hs ++ a :: bs), [], by simp⟩, hbody⟩

theorem ValuesText.block {target : Target} {branches : List Branch} {otherwise : Option (List Stmt)}
    (h : ValuesText target ts branches otherwise) :
    ∀ c ∈ branches.map (·.body) ++ otherwise.toList, ∃ value span, c = [.assign target value span] := by
  induction h with
  | last _ => exact List.forall_mem_singleton.2 ⟨_, _, rfl⟩
  | only _ _ _ => exact List.forall_mem_singleton.2 ⟨_, _, rfl⟩
  | more _ _ _ _ _ ih => exact List.forall_mem_cons.2 ⟨⟨_, _, rfl⟩, ih⟩

theorem SelectedText.block {target : Target} {alts : List Alternative} (h : SelectedText target ts alts) :
    ∀ alt ∈ alts, ∃ value span, alt.body = [.assign target value span] := by
  induction h with
  | last _ _ _ hbody => exact List.forall_mem_singleton.2 ⟨_, _, hbody⟩
  | more _ _ _ hbody _ _ ih => exact List.forall_mem_cons.2 ⟨⟨_, _, hbody⟩, ih⟩

/-- A block under a statement is written inside of it, or it is a value of an assignment. -/
theorem StmtText.block {st : Stmt} {c : List Stmt} (h : StmtText ts st) (hc : c ∈ st.blocks) :
    (∃ us, us <:+: ts ∧ BlockText us c) ∨ ∃ target value span, c = [.assign target value span] := by
  cases h with
  | assign | null => cases hc
  | conditional _ _ _ hvs _ _ => exact .inr ⟨_, hvs.block c hc⟩
  | selected _ _ _ _ _ _ hus _ _ =>
    obtain ⟨alt, halt, rfl⟩ := exists_alternative hc
    exact .inr ⟨_, hus.block alt halt⟩
  | @ifs _ bs os name i e i' z _ _ _ hbs hos _ _ _ _ heq =>
    subst heq
    refine .inl ?_
    rcases List.mem_append.1 hc with hbranch | helse
    · obtain ⟨br, hbr, rfl⟩ := List.mem_map.1 hbranch
      obtain ⟨us, hus, hbody⟩ := hbs.block br hbr
      exact ⟨us, hus.trans ⟨[i], os ++ e :: i' :: (name ++ [z]), by simp⟩, hbody⟩
    · cases hos with
      | none => cases helse
      | @some l us _ _ hbody =>
        obtain rfl := List.mem_singleton.1 helse
        exact ⟨us, ⟨i :: (bs ++ [l]), e :: i' :: (name ++ [z]), by simp⟩, hbody⟩
  | @case _ es us name w i e w' z _ _ _ _ _ hus _ _ _ _ heq =>
    subst heq
    obtain ⟨alt, halt, rfl⟩ := exists_alternative hc
    obtain ⟨vs, hvs, hbody⟩ := hus.block alt halt
    exact .inl ⟨vs, hvs.trans ⟨w :: (es ++ [i]), e :: w' :: (name ++ [z]), by simp⟩, hbody⟩

theorem BlockText.stmt : ∀ {ts b}, BlockText ts b → ∀ st ∈ b, ∃ us, us <:+: ts ∧ StmtText us st
  | _, _, @BlockText.cons lab ts us _ _ _ hts hus, st, hst => by
    rcases List.mem_cons.1 hst with rfl | hst
    · exact ⟨ts, ⟨lab, us, by simp⟩, hts⟩
    · obtain ⟨vs, hvs, hstmt⟩ := BlockText.stmt hus st hst
      exact ⟨vs, hvs.trans ⟨lab ++ ts, [], by simp⟩, hstmt⟩

/-- Each `case` inside of a block is written there. -/
theorem BlockText.case {b : List Stmt} {subject : Expr} {arms : List Arm} {others : Option (List Stmt)}
    {span : Span} (h : BlockText ts b) (hst : InBlock (.case subject arms others span) b) :
    ∃ us, us <:+: ts ∧ StmtText us (.case subject arms others span) := by
  induction hst generalizing ts with
  | here hst => exact h.stmt _ hst
  | under hst' hc hst ih =>
    obtain ⟨us, hus, hstmt⟩ := h.stmt _ hst'
    rcases hstmt.block hc with ⟨vs, hvs, hblock⟩ | ⟨target, value, span', rfl⟩
    · obtain ⟨ws, hws, hcase⟩ := ih hblock
      exact ⟨ws, hws.trans (hvs.trans hus), hcase⟩
    · -- a value has no `case` in it
      cases hst with
      | here hst => cases List.mem_singleton.1 hst
      | under hst'' hc' _ =>
        cases List.mem_singleton.1 hst''
        cases hc'

/-! ### Ends of statements -/

/-- No statement ends with one of the tokens. -/
def Unended (ts : List Token) : Prop := ∀ t ∈ ts, t.kind ≠ .symbol .semicolon

theorem Unended.nil : Unended [] := nofun

theorem Unended.cons {t : Token} {k : TokenKind} (ht : t.kind = k) (hk : k ≠ .symbol .semicolon)
    (h : Unended ts) : Unended (t :: ts) :=
  List.forall_mem_cons.2 ⟨ht ▸ hk, h⟩

theorem Unended.append {us : List Token} (h : Unended ts) (h' : Unended us) : Unended (ts ++ us) :=
  List.forall_mem_append.2 ⟨h, h'⟩

theorem Phrase.unended (h : Phrase ts) : Unended ts := by
  induction h with
  | nil => exact .nil
  | @cons t _ ht _ ih =>
    refine .cons rfl (fun hz => ?_) ih
    rw [hz] at ht
    cases ht
  | @«attribute» n k w _ hn hk hw _ ih =>
    refine .cons hn nofun (.cons hk nofun (.cons rfl (fun hz => ?_) ih))
    rw [hz] at hw
    cases hw

theorem ExprText.unended (h : ExprText ts) : Unended ts := h.phrase.unended

theorem ValueText.unended (h : ValueText ts) : Unended ts := by
  obtain ⟨es, ds, hes, hds, rfl⟩ := h
  refine hes.unended.append ?_
  cases hds with
  | none => exact .nil
  | some ha hts =>
    refine .cons ha nofun fun t ht hz => ?_
    have hends := hts t ht
    rw [hz] at hends
    cases hends

theorem LabelText.unended (h : LabelText ts) : Unended ts := by
  cases h with
  | none => exact .nil
  | some hn hc => exact .cons hn nofun (.cons hc nofun .nil)

theorem NameText.unended (h : NameText ts) : Unended ts := by
  cases h with
  | none => exact .nil
  | some hn => exact .cons hn nofun .nil

theorem WhenText.unended {alt : Alternative} (h : WhenText ts alt) : Unended ts := by
  cases h with
  | arm hcs _ => exact hcs.unended
  | others ho => exact .cons ho nofun .nil

theorem ValuesText.unended {target : Target} {branches : List Branch} {otherwise : Option (List Stmt)}
    (h : ValuesText target ts branches otherwise) : Unended ts := by
  induction h with
  | last hvs => exact hvs.unended
  | only hvs hw hcs => exact hvs.unended.append (.cons hw nofun hcs.unended)
  | more hvs hw hcs he _ ih =>
    exact hvs.unended.append (.cons hw nofun (hcs.unended.append (.cons he nofun ih)))

theorem SelectedText.unended {target : Target} {alts : List Alternative}
    (h : SelectedText target ts alts) : Unended ts := by
  induction h with
  | last hvs hw hhs _ => exact hvs.unended.append (.cons hw nofun hhs.unended)
  | more hvs hw hhs _ hc _ ih =>
    exact hvs.unended.append (.cons hw nofun (hhs.unended.append (.cons hc nofun ih)))

theorem StmtText.span_eq {st : Stmt} (h : StmtText ts st) : st.span = spanOf ts := by
  cases h <;> rfl

theorem StmtText.ne_nil {st : Stmt} (h : StmtText ts st) : ts ≠ [] := by
  cases h <;> simp [*]

end

/-- Each `case` inside of the block has at most one alternative `others` between its words. -/
def OneOthers (tokens : List Token) (b : List Stmt) : Prop :=
  ∀ subject arms others span, InBlock (.case subject arms others span) b →
    (alternatives (tokensIn tokens span)).count true ≤ 1

/-- A statement inside of the block ends with the token. -/
def EndsIn (b : List Stmt) (t : Token) : Prop := ∃ st, InBlock st b ∧ st.span.stop = t.span.stop

section
variable {file : Nat} {text : String} {ts : List Token} {st : Stmt} {c : List Stmt}

theorem OneOthers.under {tokens : List Token} (h : OneOthers tokens [st]) (hc : c ∈ st.blocks) :
    OneOthers tokens c :=
  fun subject arms others span hst => h subject arms others span (hst.of_mem_blocks hc)

theorem OneOthers.mono {tokens : List Token} {b b' : List Stmt} (h : OneOthers tokens b')
    (hsub : ∀ x ∈ b, x ∈ b') : OneOthers tokens b :=
  fun subject arms others span hst => h subject arms others span (hst.mono hsub)

theorem EndsIn.mono {t : Token} {b b' : List Stmt} (h : EndsIn b t) (hsub : ∀ x ∈ b, x ∈ b') : EndsIn b' t :=
  h.imp fun _ hst => ⟨hst.1.mono hsub, hst.2⟩

theorem EndsIn.under {t : Token} (h : EndsIn c t) (hc : c ∈ st.blocks) : EndsIn [st] t :=
  h.imp fun _ hst => ⟨hst.1.of_mem_blocks hc, hst.2⟩

/-- The tokens between the ends of what tokens span are these tokens. -/
theorem PartOf.tokensIn (h : PartOf (Lexer.lex file text).1 ts) (hne : ts ≠ []) :
    tokensIn (Lexer.lex file text).1 (spanOf ts) = ts := by
  obtain ⟨t, us, rfl⟩ := List.exists_cons_of_ne_nil hne
  have hlast : (t :: us).getLast? = some ((t :: us).getLast hne) := List.getLast?_eq_some_getLast hne
  have hlaid := h.laid
  have hstarts := lex_starts file text
  have hascending := Lexer.lex_ascending file text
  obtain ⟨front, back, hparts⟩ := h.1
  rw [← hparts] at hstarts hascending ⊢
  rw [hlaid.spanOf_eq hlast]
  have hfront : Syntax.tokensIn front ⟨file, t.span.start, ((t :: us).getLast hne).span.stop⟩ = [] := by
    refine List.filter_eq_nil_iff.2 fun u hu => ?_
    rw [List.append_assoc, List.pairwise_append] at hstarts
    have hlt := hstarts.2.2 u hu t (List.mem_append_left _ List.mem_cons_self)
    simp [Nat.not_le_of_lt hlt]
  have hself : Syntax.tokensIn (t :: us) ⟨file, t.span.start, ((t :: us).getLast hne).span.stop⟩ =
      t :: us := by
    refine List.filter_eq_self.2 fun u hu => ?_
    have hlt := Nat.lt_of_lt_of_le (hlaid.start_lt u hu) (hlaid.stop_le hlast hu)
    simp [hlaid.start_le hu, hlt]
  have hback : Syntax.tokensIn back ⟨file, t.span.start, ((t :: us).getLast hne).span.stop⟩ = [] := by
    refine List.filter_eq_nil_iff.2 fun u hu => ?_
    rw [List.pairwise_append] at hascending
    have hle := hascending.2.2 _ (List.mem_append_right _ (List.getLast_mem hne)) u hu
    simp [Nat.not_lt_of_le hle]
  rw [Syntax.tokensIn, List.filter_append, List.filter_append]
  exact (congrArg₂ (· ++ ·) (congrArg₂ (· ++ ·) hfront hself) hback).trans (List.append_nil _)

/-- A statement ends with its last token. -/
theorem PartOf.ends_last {front : List Token} {z : Token} (h : PartOf (Lexer.lex file text).1 ts)
    (hspan : st.span = spanOf ts) (heq : ts = front ++ [z]) : EndsIn [st] z := by
  refine ⟨st, .here (List.mem_singleton_self st), ?_⟩
  have hlast : ts.getLast? = some z := by rw [heq, List.getLast?_concat]
  obtain ⟨u, us, rfl⟩ := List.exists_cons_of_ne_nil fun hnil : ts = [] => by
    rw [hnil] at hlast
    cases hlast
  rw [hspan, h.laid.spanOf_eq hlast]

theorem PartOf.ends_unended {front : List Token} {z : Token} (h : PartOf (Lexer.lex file text).1 ts)
    (hspan : st.span = spanOf ts) (heq : ts = front ++ [z]) (hfront : Unended front)
    {t : Token} (ht : t ∈ ts) (hend : t.kind = .symbol .semicolon) : EndsIn [st] t := by
  have hmem : t ∈ front ++ [z] := heq ▸ ht
  rcases List.mem_append.1 hmem with ht | ht
  · exact absurd hend (hfront t ht)
  · exact List.mem_singleton.1 ht ▸ h.ends_last hspan heq

mutual

theorem StmtText.ends : ∀ {ts st}, StmtText ts st → PartOf (Lexer.lex file text).1 ts →
    OneOthers (Lexer.lex file text).1 [st] → ∀ t ∈ ts, t.kind = .symbol .semicolon → EndsIn [st] t
  | _, _, @StmtText.assign ts lab tgt vs a z _ _ hlab htgt ha hvs _ heq, hpart, _, t, ht, hend => by
    have hts : ts = (lab ++ (tgt ++ a :: vs)) ++ [z] := heq.trans (by simp)
    exact hpart.ends_unended rfl hts
      (hlab.unended.append (htgt.unended.append (.cons ha nofun hvs.unended))) ht hend
  | _, _, @StmtText.conditional ts lab tgt vs a z _ _ _ hlab htgt ha hvs _ heq, hpart, _, t, ht, hend => by
    have hts : ts = (lab ++ (tgt ++ a :: vs)) ++ [z] := heq.trans (by simp)
    exact hpart.ends_unended rfl hts
      (hlab.unended.append (htgt.unended.append (.cons ha nofun hvs.unended))) ht hend
  | _, _, @StmtText.selected ts lab es tgt us w s a z _ _ _ hlab hw hes hs htgt ha hus _ heq, hpart, _, t,
      ht, hend => by
    have hts : ts = (lab ++ w :: (es ++ s :: (tgt ++ a :: us))) ++ [z] := heq.trans (by simp)
    exact hpart.ends_unended rfl hts (hlab.unended.append (.cons hw nofun (hes.unended.append
      (.cons hs nofun (htgt.unended.append (.cons ha nofun hus.unended)))))) ht hend
  | _, _, @StmtText.ifs ts bs os name i e i' z branches otherwise hi hbs hos he hi' hname _ heq, hpart,
      hone, t, ht, hend => by
    have hts : ts = (i :: (bs ++ (os ++ e :: i' :: name))) ++ [z] := heq.trans (by simp)
    have hbranches : bs <:+: ts := ⟨[i], os ++ e :: i' :: (name ++ [z]), by rw [heq]; simp⟩
    have hotherwise : os <:+: ts := ⟨i :: bs, e :: i' :: (name ++ [z]), by rw [heq]; simp⟩
    have hclosing : Unended (e :: i' :: name) := .cons he nofun (.cons hi' nofun hname.unended)
    have hmem : t = i ∨ t ∈ bs ∨ t ∈ os ∨ t ∈ e :: i' :: name ∨ t = z := by
      simpa [heq, or_assoc] using ht
    rcases hmem with rfl | ht | ht | ht | rfl
    · rw [hi] at hend
      cases hend
    · obtain ⟨br, hbr, hends⟩ := BranchesText.ends hbs (hpart.of_isInfix hbranches)
        (fun br hbr => hone.under (List.mem_append_left _ (List.mem_map_of_mem hbr))) t ht hend
      exact hends.under (List.mem_append_left _ (List.mem_map_of_mem hbr))
    · obtain ⟨body, hbody, hends⟩ := ElseText.ends hos (hpart.of_isInfix hotherwise)
        (fun body hbody => hone.under (List.mem_append_right _ hbody)) t ht hend
      exact hends.under (List.mem_append_right _ hbody)
    · exact absurd hend (hclosing t ht)
    · exact hpart.ends_last rfl hts
  | _, _, @StmtText.case ts es us name c i e c' z _ alts hc hes hi hus he hc' hname hz heq, hpart, hone,
      t, ht, hend => by
    have hts : ts = (c :: (es ++ i :: (us ++ e :: c' :: name))) ++ [z] := heq.trans (by simp)
    have hcases : us <:+: ts := ⟨c :: (es ++ [i]), e :: c' :: (name ++ [z]), by rw [heq]; simp⟩
    have hopening : Unended (c :: (es ++ [i])) := .cons hc nofun (hes.unended.append (.cons hi nofun .nil))
    have hclosing : Unended (e :: c' :: name) := .cons he nofun (.cons hc' nofun hname.unended)
    have hmem : t ∈ c :: (es ++ [i]) ∨ t ∈ us ∨ t ∈ e :: c' :: name ∨ t = z := by
      simpa [heq, or_assoc] using ht
    -- all alternatives are in the tree, since at most one of them is `others`
    have hbodies : ∀ alt ∈ alts, alt.body ∈ (armsOf alts).map (·.body) ++ (othersOf alts).toList := by
      have hcount := hone _ _ _ _ (.here (List.mem_singleton_self _))
      rw [hpart.tokensIn (by simp [heq]), heq, hus.alternatives hc hes hi he hc' hname hz] at hcount
      exact fun alt halt => body_mem_blocks hcount halt
    rcases hmem with ht | ht | ht | rfl
    · exact absurd hend (hopening t ht)
    · obtain ⟨alt, halt, hends⟩ := CasesText.ends hus (hpart.of_isInfix hcases)
        (fun alt halt => hone.under (hbodies alt halt)) t ht hend
      exact hends.under (hbodies alt halt)
    · exact absurd hend (hclosing t ht)
    · exact hpart.ends_last rfl hts
  | _, _, .null hn _, hpart, _, t, ht, hend =>
    hpart.ends_unended rfl rfl (.cons hn nofun .nil) ht hend

theorem BlockText.ends : ∀ {ts b}, BlockText ts b → PartOf (Lexer.lex file text).1 ts →
    OneOthers (Lexer.lex file text).1 b → ∀ t ∈ ts, t.kind = .symbol .semicolon → EndsIn b t
  | _, _, @BlockText.cons lab ts us st b hlab hts hus, hpart, hone, t, ht, hend => by
    have hfirst : ∀ x ∈ [st], x ∈ st :: b := fun x hx => List.mem_singleton.1 hx ▸ List.mem_cons_self
    have hmore : ∀ x ∈ b, x ∈ st :: b := fun x hx => List.mem_cons_of_mem st hx
    rcases List.mem_append.1 ht with ht | ht
    · exact absurd hend (hlab.unended t ht)
    · rcases List.mem_append.1 ht with ht | ht
      · have hinfix : ts <:+: lab ++ (ts ++ us) := ⟨lab, us, by simp⟩
        exact (StmtText.ends hts (hpart.of_isInfix hinfix) (hone.mono hfirst) t ht hend).mono hfirst
      · have hinfix : us <:+: lab ++ (ts ++ us) := ⟨lab ++ ts, [], by simp⟩
        exact (BlockText.ends hus (hpart.of_isInfix hinfix) (hone.mono hmore) t ht hend).mono hmore

theorem BranchesText.ends : ∀ {ts branches}, BranchesText ts branches →
    PartOf (Lexer.lex file text).1 ts → (∀ br ∈ branches, OneOthers (Lexer.lex file text).1 br.body) →
      ∀ t ∈ ts, t.kind = .symbol .semicolon → ∃ br ∈ branches, EndsIn br.body t
  | _, _, @BranchesText.last cs bs w _ _ hcs hw hbs, hpart, hone, t, ht, hend => by
    have hopening : Unended (cs ++ [w]) := hcs.unended.append (.cons hw nofun .nil)
    have hbody : bs <:+: cs ++ w :: bs := ⟨cs ++ [w], [], by simp⟩
    have hmem : t ∈ cs ++ [w] ∨ t ∈ bs := by simpa [or_assoc] using ht
    rcases hmem with ht | ht
    · exact absurd hend (hopening t ht)
    · exact ⟨_, List.mem_cons_self, BlockText.ends hbs (hpart.of_isInfix hbody)
        (hone _ List.mem_cons_self) t ht hend⟩
  | _, _, @BranchesText.more cs bs us w e _ _ _ hcs hw hbs he hus, hpart, hone, t, ht, hend => by
    have hopening : Unended (cs ++ [w]) := hcs.unended.append (.cons hw nofun .nil)
    have hbody : bs <:+: cs ++ w :: (bs ++ e :: us) := ⟨cs ++ [w], e :: us, by simp⟩
    have hmore : us <:+: cs ++ w :: (bs ++ e :: us) := ⟨cs ++ w :: (bs ++ [e]), [], by simp⟩
    have hmem : t ∈ cs ++ [w] ∨ t ∈ bs ∨ t = e ∨ t ∈ us := by simpa [or_assoc] using ht
    rcases hmem with ht | ht | rfl | ht
    · exact absurd hend (hopening t ht)
    · exact ⟨_, List.mem_cons_self, BlockText.ends hbs (hpart.of_isInfix hbody)
        (hone _ List.mem_cons_self) t ht hend⟩
    · rw [he] at hend
      cases hend
    · obtain ⟨br, hbr, hends⟩ := BranchesText.ends hus (hpart.of_isInfix hmore)
        (fun br hbr => hone br (List.mem_cons_of_mem _ hbr)) t ht hend
      exact ⟨br, List.mem_cons_of_mem _ hbr, hends⟩

theorem ElseText.ends : ∀ {ts otherwise}, ElseText ts otherwise → PartOf (Lexer.lex file text).1 ts →
    (∀ body ∈ otherwise.toList, OneOthers (Lexer.lex file text).1 body) →
      ∀ t ∈ ts, t.kind = .symbol .semicolon → ∃ body ∈ otherwise.toList, EndsIn body t
  | _, _, @ElseText.some e bs body he hbs, hpart, hone, t, ht, hend => by
    rcases List.mem_cons.1 ht with rfl | ht
    · rw [he] at hend
      cases hend
    · exact ⟨body, List.mem_cons_self, BlockText.ends hbs (hpart.of_isInfix (List.suffix_cons e bs).isInfix)
        (hone body List.mem_cons_self) t ht hend⟩

theorem CasesText.ends : ∀ {ts alts}, CasesText ts alts → PartOf (Lexer.lex file text).1 ts →
    (∀ alt ∈ alts, OneOthers (Lexer.lex file text).1 alt.body) →
      ∀ t ∈ ts, t.kind = .symbol .semicolon → ∃ alt ∈ alts, EndsIn alt.body t
  | _, _, @CasesText.cons hs bs us w a alt alts hw hhs ha hbs hus, hpart, hone, t, ht, hend => by
    have hopening : Unended (w :: (hs ++ [a])) := .cons hw nofun (hhs.unended.append (.cons ha nofun .nil))
    have hbody : bs <:+: w :: (hs ++ a :: (bs ++ us)) := ⟨w :: (hs ++ [a]), us, by simp⟩
    have hmore : us <:+: w :: (hs ++ a :: (bs ++ us)) := ⟨w :: (hs ++ a :: bs), [], by simp⟩
    have hmem : t ∈ w :: (hs ++ [a]) ∨ t ∈ bs ∨ t ∈ us := by simpa [or_assoc] using ht
    rcases hmem with ht | ht | ht
    · exact absurd hend (hopening t ht)
    · exact ⟨alt, List.mem_cons_self, BlockText.ends hbs (hpart.of_isInfix hbody)
        (hone alt List.mem_cons_self) t ht hend⟩
    · obtain ⟨alt', halt, hends⟩ := CasesText.ends hus (hpart.of_isInfix hmore)
        (fun alt' halt => hone alt' (List.mem_cons_of_mem _ halt)) t ht hend
      exact ⟨alt', List.mem_cons_of_mem _ halt, hends⟩

end

end

/-! ### Texts without a fault -/

/-- A `case` has an arm for each alternative between its words, or else `others`. -/
def KeepsAlternatives (tokens : List Token) (arms : List Arm) (others : Option (List Stmt)) (span : Span) :
    Prop :=
  (alternatives (tokensIn tokens span)).length = arms.length + if others.isSome then 1 else 0

instance (tokens : List Token) (arms : List Arm) (others : Option (List Stmt)) (span : Span) :
    Decidable (KeepsAlternatives tokens arms others span) :=
  inferInstanceAs (Decidable (_ = _))

theorem length_alternatives (alts : List Alternative) : (alts.map Alternative.isOthers).length =
    (armsOf alts).length + (if (othersOf alts).isSome then 1 else 0) ↔
      (alts.map Alternative.isOthers).count true ≤ 1 := by
  have hcount := List.count_false_add_count_true (alts.map Alternative.isOthers)
  rw [← length_armsOf] at hcount
  by_cases hsome : (othersOf alts).isSome
  · have hpos := List.count_pos_iff.2 ((isSome_othersOf alts).1 hsome)
    rw [if_pos hsome]
    omega
  · have hzero := List.count_eq_zero.2 (mt (isSome_othersOf alts).2 hsome)
    rw [if_neg hsome]
    omega

/-- Where nothing is reported, a `case` or a selected assignment has an arm for each of its alternatives
that are not `others`, and `others` if it is written at all. So all of them are kept just if `others` is
written at most once. If it is so inside of the statement too, then no statement there is lost, since each
semicolon ends one that is kept. -/
theorem parse_keepsAlternatives {file : Nat} {text : String} (h : (parse file text).2 = [])
    {a : Architecture} (ha : a ∈ (parse file text).1.architectures) {x : List Nat × Process}
    (hx : x ∈ a.processes) {subject : Expr} {arms : List Arm} {others : Option (List Stmt)} {span : Span}
    (hst : InBlock (.case subject arms others span) x.2.body) :
    arms.length = (alternatives (tokensIn (Lexer.lex file text).1 span)).count false ∧
      (others.isSome ↔ true ∈ alternatives (tokensIn (Lexer.lex file text).1 span)) ∧
      (KeepsAlternatives (Lexer.lex file text).1 arms others span ↔
        (alternatives (tokensIn (Lexer.lex file text).1 span)).count true ≤ 1) ∧
      (OneOthers (Lexer.lex file text).1 [.case subject arms others span] →
        ∀ t ∈ tokensIn (Lexer.lex file text).1 span, t.kind = .symbol .semicolon →
          EndsIn [.case subject arms others span] t) := by
  obtain ⟨ts, hpart, hblock⟩ := parse_bodyText h a ha x hx
  obtain ⟨us, hus, hstmt⟩ := hblock.case hst
  have hpart' : PartOf (Lexer.lex file text).1 us := hpart.of_isInfix hus
  have hspan : span = spanOf us := hstmt.span_eq
  obtain ⟨alts, rfl, rfl, halts⟩ := hstmt.alternatives
  have hin : tokensIn (Lexer.lex file text).1 span = us := hspan ▸ hpart'.tokensIn hstmt.ne_nil
  rw [KeepsAlternatives, hin, halts]
  exact ⟨length_armsOf alts, isSome_othersOf alts, length_alternatives alts, hstmt.ends hpart'⟩

/-- The first statement of the first process, if it is a `case`. -/
def Library.firstCase? (l : Library) : Option (Expr × List Arm × Option (List Stmt) × Span) :=
  l.architectures.head?.bind fun a => a.processes.head?.bind fun x =>
    match x.2.body with
    | .case subject arms others span :: _ => some (subject, arms, others, span)
    | _ => none

theorem Library.exists_of_firstCase? {l : Library} {subject : Expr} {arms : List Arm}
    {others : Option (List Stmt)} {span : Span} (h : l.firstCase? = some (subject, arms, others, span)) :
    ∃ a ∈ l.architectures, ∃ x ∈ a.processes, InBlock (.case subject arms others span) x.2.body := by
  obtain ⟨a, ha, h⟩ := Option.bind_eq_some_iff.1 h
  obtain ⟨x, hx, h⟩ := Option.bind_eq_some_iff.1 h
  refine ⟨a, List.mem_of_head? ha, x, List.mem_of_head? hx, ?_⟩
  split at h
  · rename_i hbody
    obtain ⟨rfl, rfl, rfl, rfl⟩ : _ = subject ∧ _ = arms ∧ _ = others ∧ _ = span := by simpa using h
    exact hbody ▸ .here List.mem_cons_self
  · cases h

/-- A `case` in an alternative of another one, behind an assignment with a condition and a delay. -/
def nestedCases : String :=
  "architecture r of e is begin process begin case s is when a => y <= b'when after case when c; " ++
  "when others => case t is when others => end case; end case; end process; end;"

theorem parse_keepsAlternatives_nested : (parse 0 nestedCases).2 = [] ∧
    ∃ a ∈ (parse 0 nestedCases).1.architectures, ∃ x ∈ a.processes, ∃ subject arms others span,
      InBlock (.case subject arms others span) x.2.body ∧ arms.length = 1 ∧ others.isSome ∧
        KeepsAlternatives (Lexer.lex 0 nestedCases).1 arms others span := by
  have hrun : (parse 0 nestedCases).2 = [] ∧ (parse 0 nestedCases).1.firstCase?.map
      (fun c => alternatives (tokensIn (Lexer.lex 0 nestedCases).1 c.2.2.2)) = some [false, true] := by
    decide +kernel
  obtain ⟨⟨subject, arms, others, span⟩, hcase, halts⟩ := Option.map_eq_some_iff.1 hrun.2
  obtain ⟨a, ha, x, hx, hst⟩ := Library.exists_of_firstCase? hcase
  obtain ⟨harms, hothers, hkeeps, -⟩ := parse_keepsAlternatives hrun.1 ha hx hst
  rw [halts] at harms hothers hkeeps
  exact ⟨hrun.1, a, ha, x, hx, subject, arms, others, span, hst, harms, hothers.2 (by decide),
    hkeeps.2 (by decide)⟩

/-- The second `others` takes the place of the first. -/
def twiceOthers : String :=
  "architecture r of e is begin process begin case s is when others => y <= a; " ++
  "when others => y <= b; end case; end process; end;"

theorem parse_loses_alternative : (parse 0 twiceOthers).2 = [] ∧
    ∃ a ∈ (parse 0 twiceOthers).1.architectures, ∃ x ∈ a.processes, ∃ subject arms others span,
      InBlock (.case subject arms others span) x.2.body ∧
        ¬KeepsAlternatives (Lexer.lex 0 twiceOthers).1 arms others span := by
  have hrun : (parse 0 twiceOthers).2 = [] ∧ (parse 0 twiceOthers).1.firstCase?.map
      (fun c => decide (KeepsAlternatives (Lexer.lex 0 twiceOthers).1 c.2.1 c.2.2.1 c.2.2.2)) =
        some false := by
    decide +kernel
  obtain ⟨⟨subject, arms, others, span⟩, hcase, hlost⟩ := Option.map_eq_some_iff.1 hrun.2
  obtain ⟨a, ha, x, hx, hst⟩ := Library.exists_of_firstCase? hcase
  exact ⟨hrun.1, a, ha, x, hx, subject, arms, others, span, hst, of_decide_eq_false hlost⟩

end Syntax

end HdlLint
