import HdlLint.Proofs.DualDrivers
import HdlLint.Proofs.FirstAssignments
import HdlLint.Proofs.Latches
import HdlLint.Proofs.NameUses
import HdlLint.Proofs.Ordinals
import HdlLint.Proofs.ProcessTexts
import HdlLint.Proofs.Provenance

/-!
# First assignments and the text

The first assignment that is recorded for a signal is the first one in the tree of the process, in which
the alternative `others` of a `case` comes last, wherever it is written. All else comes in the order of the
text (`Follows`): assignments are resolved with their spans, and each span starts with a token of its
statement. So the recorded assignment is the earliest one of the text unless it stands in an arm of a
`case` and an earlier one stands under the `others` of that statement (`elaborate_firstWrites`).
-/

namespace HdlLint.Flow
open Design
open Syntax (spanOf armsOf othersOf)

/-! ### Assignments that follow a text -/

/-- The span starts with one of the tokens. -/
structure StartsIn (file : Nat) (ts : List Token) (s : Span) : Prop where
  file_eq : s.file = file
  exists_token : ∃ t ∈ ts, t.span.start = s.start

/-- One assignment stands in an arm and the other one under `others` of a `case` in `P`. -/
def Apart (P : Stmt → Prop) (e e' : SignalId × Span) : Prop :=
  ∃ subject text arms others span, P (.case subject text arms (some others) span) ∧
    e ∈ armAssignments arms ∧ e' ∈ assignments others

/-- Assignments start with tokens of the text, and they come in its order unless they stand apart. -/
structure Follows (P : Stmt → Prop) (file : Nat) (ts : List Token) (l : List (SignalId × Span)) :
    Prop where
  starts : ∀ e ∈ l, StartsIn file ts e.2
  ordered : l.Pairwise fun e e' => e.2.before e'.2 = true ∨ Apart P e e'

section
variable {P : Stmt → Prop} {file : Nat} {ts us : List Token} {l l' : List (SignalId × Span)}
  {id : SignalId} {s : Span}

theorem StartsIn.mono (h : StartsIn file ts s) (hsub : ts ⊆ us) : StartsIn file us s := by
  obtain ⟨hfile, t, ht, hstart⟩ := h
  exact ⟨hfile, t, hsub ht, hstart⟩

theorem startsIn_spanOf (h : Syntax.Laid file ts) (hne : ts ≠ []) : StartsIn file ts (spanOf ts) := by
  obtain ⟨t, us, rfl⟩ := List.exists_cons_of_ne_nil hne
  rw [h.spanOf_eq (List.getLast?_eq_some_getLast hne)]
  exact ⟨rfl, t, List.mem_cons_self, rfl⟩

namespace Follows

theorem nil : Follows P file ts [] := ⟨nofun, .nil⟩

theorem singleton (h : StartsIn file ts s) : Follows P file ts [(id, s)] :=
  ⟨List.forall_mem_singleton.2 h, List.pairwise_singleton _ _⟩

theorem mono (h : Follows P file ts l) (hsub : ts ⊆ us) : Follows P file us l :=
  ⟨fun e he => (h.starts e he).mono hsub, h.ordered⟩

/-- What follows a later part of the text comes behind what follows an earlier one. -/
theorem append (hlaid : Syntax.Laid file (ts ++ us)) (h : Follows P file ts l)
    (h' : Follows P file us l') : Follows P file (ts ++ us) (l ++ l') := by
  refine ⟨List.forall_mem_append.2 ⟨?_, ?_⟩, List.pairwise_append.2 ⟨h.ordered, h'.ordered, ?_⟩⟩
  · exact fun e he => (h.starts e he).mono (List.subset_append_left ts us)
  · exact fun e he => (h'.starts e he).mono (List.subset_append_right ts us)
  · intro e he e' he'
    obtain ⟨hfile, t, ht, hstart⟩ := h.starts e he
    obtain ⟨hfile', u, hu, hstart'⟩ := h'.starts e' he'
    have hstop := (List.pairwise_append.1 hlaid.ascending).2.2 t ht u hu
    have hlt := hlaid.start_lt t (List.mem_append_left us ht)
    refine .inl (Span.before_iff.2 (.inr ⟨hfile.trans hfile'.symm, .inl ?_⟩))
    omega

/-- The same for parts with other tokens around them. -/
theorem append_of_isInfix {vs : List Token} (hlaid : Syntax.Laid file vs) (hvs : ts ++ us <:+: vs)
    (h : Follows P file ts l) (h' : Follows P file us l') : Follows P file vs (l ++ l') :=
  (append (hlaid.of_isInfix hvs) h h').mono hvs.subset

end Follows

end

theorem stmtAssignments_ifs (branches : List Branch) (otherwise : Option (List Stmt)) (span : Span) :
    stmtAssignments (.ifs branches otherwise span) =
      branchAssignments branches ++ assignments (otherwise.getD []) := by
  cases otherwise with
  | none => exact (List.append_nil _).symm
  | some b => rfl

theorem stmtAssignments_case (subject : Expr) (text : String) (arms : List Arm)
    (others : Option (List Stmt)) (span : Span) : stmtAssignments (.case subject text arms others span) =
      armAssignments arms ++ assignments (others.getD []) := by
  cases others with
  | none => exact (List.append_nil _).symm
  | some b => rfl

/-! ### Resolved statements follow their texts -/

section
variable {P : Stmt → Prop} {scope : Scope} {file : Nat} {ts us : List Token}

/-- However the arms and `others` are resolved, their assignments follow the text, each for itself. -/
def FollowAll (P : Stmt → Prop) (scope : Scope) (file : Nat) (ts : List Token)
    (alts : List Syntax.Alternative) : Prop :=
  ∀ as last, List.Forall₂ scope.ResolvesArm (armsOf alts) as →
    Option.Rel (List.Forall₂ scope.ResolvesStmt) (othersOf alts) last →
    (∀ b ∈ as.map (·.body) ++ last.toList, ∀ r ∈ b, P r) →
      Follows P file ts (armAssignments as) ∧ Follows P file ts (assignments (last.getD []))

theorem FollowAll.nil : FollowAll P scope file ts [] := by
  rintro _ _ ⟨⟩ ⟨⟩ -
  exact ⟨.nil, .nil⟩

theorem FollowAll.mono {alts : List Syntax.Alternative} (h : FollowAll P scope file ts alts)
    (hsub : ts ⊆ us) : FollowAll P scope file us alts := fun as last has hlast hin =>
  ⟨(h as last has hlast hin).1.mono hsub, (h as last has hlast hin).2.mono hsub⟩

theorem FollowAll.cons {vs : List Token} {alt : Syntax.Alternative} {alts : List Syntax.Alternative}
    (hlaid : Syntax.Laid file vs) (hvs : ts ++ us <:+: vs)
    (hbody : ∀ rs, List.Forall₂ scope.ResolvesStmt alt.body rs → (∀ r ∈ rs, P r) →
      Follows P file ts (assignments rs)) (hrest : FollowAll P scope file us alts) :
    FollowAll P scope file vs (alt :: alts) := by
  have hts : ts ⊆ vs := List.Subset.trans (List.subset_append_left ts us) hvs.subset
  have hus : us ⊆ vs := List.Subset.trans (List.subset_append_right ts us) hvs.subset
  intro as last has hlast hin
  cases alt with
  | arm a =>
    have hothers : othersOf (.arm a :: alts) = othersOf alts := Option.or_none
    rw [hothers] at hlast
    cases has with
    | cons hr has =>
      cases hr with
      | mk _ hrs =>
        obtain ⟨hin, hmore⟩ := List.forall_mem_cons.1 hin
        obtain ⟨harms, hothers⟩ := hrest _ last has hlast hmore
        exact ⟨.append_of_isInfix hlaid hvs (hbody _ hrs hin) harms, hothers.mono hus⟩
  | others b =>
    cases hothers : othersOf alts with
    | some b' =>
      -- an `others` behind this one counts
      have hlater : othersOf (.others b :: alts) = othersOf alts := by
        rw [othersOf, hothers]
        rfl
      obtain ⟨harms, hothers⟩ := hrest as last has (hlater ▸ hlast) hin
      exact ⟨harms.mono hus, hothers.mono hus⟩
    | none =>
      have hthis : othersOf (.others b :: alts) = some b := by
        rw [othersOf, hothers]
        rfl
      rw [hthis] at hlast
      cases hlast with
      | some hrs =>
        obtain ⟨hin, hlastIn⟩ := List.forall_mem_append.1 hin
        have hin' : ∀ b ∈ as.map (·.body) ++ Option.toList none, ∀ r ∈ b, P r :=
          List.forall_mem_append.2 ⟨hin, nofun⟩
        obtain ⟨harms, -⟩ := hrest as none has (hothers ▸ .none) hin'
        exact ⟨harms.mono hus, (hbody _ hrs (hlastIn _ List.mem_cons_self)).mono hts⟩

/-- A value of an assignment assigns its target. -/
theorem assignments_value {target : Syntax.Target} {value : Syntax.Expr} {span : Span} {rs : List Stmt}
    (h : List.Forall₂ scope.ResolvesStmt [.assign target value span] rs) :
    ∃ id, assignments rs = [(id, span)] := by
  cases h with
  | cons hr hrs =>
    cases hr with
    | assign =>
      cases hrs with
      | nil => exact ⟨_, rfl⟩

theorem follows_value {target : Syntax.Target} {value : Syntax.Expr} {rs : List Stmt}
    (hts : Syntax.ValueText ts) (hlaid : Syntax.Laid file ts)
    (h : List.Forall₂ scope.ResolvesStmt [.assign target value (spanOf ts)] rs) :
    Follows P file ts (assignments rs) := by
  obtain ⟨id, hrs⟩ := assignments_value h
  rw [hrs]
  exact .singleton (startsIn_spanOf hlaid hts.ne_nil)

/-- The values of a conditional assignment come in their order, each of them before its condition. -/
theorem follows_values {target : Syntax.Target} {branches : List Syntax.Branch}
    {otherwise : Option (List Syntax.Stmt)} (h : Syntax.ValuesText target ts branches otherwise)
    (hlaid : Syntax.Laid file ts) {bs : List Branch} {last : Option (List Stmt)}
    (hbs : List.Forall₂ scope.ResolvesBranch branches bs)
    (hlast : Option.Rel (List.Forall₂ scope.ResolvesStmt) otherwise last) :
    Follows P file ts (branchAssignments bs ++ assignments (last.getD [])) := by
  induction h generalizing bs with
  | last hvs =>
    cases hbs
    cases hlast with
    | some hrs => exact follows_value hvs hlaid hrs
  | @only vs cs w _ _ hvs _ _ =>
    cases hbs with
    | cons hbr hbs =>
      cases hbr with
      | mk _ hrs =>
        cases hbs
        cases hlast
        have hvalue : Follows P file vs (assignments _) := follows_value hvs hlaid.left hrs
        simp only [branchAssignments, Option.getD_none, assignments, List.append_nil]
        exact hvalue.mono (List.subset_append_left vs (w :: cs))
  | @more vs cs us w e _ _ _ _ hvs _ _ _ _ ih =>
    cases hbs with
    | cons hbr hbs =>
      cases hbr with
      | mk _ hrs =>
        have hus : us <:+: w :: (cs ++ e :: us) := ⟨w :: (cs ++ [e]), [], by simp⟩
        have hvalue := follows_value (P := P) hvs hlaid.left hrs
        have hmore := (ih (hlaid.right.of_isInfix hus) hbs hlast).mono hus.subset
        rw [branchAssignments, List.append_assoc]
        exact .append hlaid hvalue hmore

theorem followAll_selected {target : Syntax.Target} {alts : List Syntax.Alternative}
    (h : Syntax.SelectedText target ts alts) (hlaid : Syntax.Laid file ts) :
    FollowAll P scope file ts alts := by
  induction h with
  | @last vs hs w _ alt hvs _ _ hbody =>
    have hvs' : vs ++ [] <:+: vs ++ w :: hs := ⟨[], w :: hs, by simp⟩
    refine .cons hlaid hvs' (fun rs hrs _ => ?_) .nil
    exact follows_value hvs hlaid.left (hbody ▸ hrs)
  | @more vs hs us w c _ alt alts hvs _ _ hbody _ _ ih =>
    have hus : us <:+: w :: (hs ++ c :: us) := ⟨w :: (hs ++ [c]), [], by simp⟩
    refine .cons hlaid (List.infix_refl _) (fun rs hrs _ => ?_)
      ((ih (hlaid.right.of_isInfix hus)).mono hus.subset)
    exact follows_value hvs hlaid.left (hbody ▸ hrs)

/-- What stands in the blocks under a statement in `P` is in `P` too. -/
def Closed (P : Stmt → Prop) : Prop := ∀ s, P s → ∀ b ∈ s.blocks, ∀ r ∈ b, P r

/-- In the tree the arms come before `others`, wherever it is written. -/
theorem FollowAll.case {alts : List Syntax.Alternative} {subject : Syntax.Expr} {span : Span} {r : Stmt}
    (h : FollowAll P scope file us alts) (hus : us ⊆ ts) (hP : Closed P) (hr : P r)
    (hres : scope.ResolvesStmt (.case subject (armsOf alts) (othersOf alts) span) r) :
    Follows P file ts (stmtAssignments r) := by
  cases hres with
  | @case _ _ _ as _ last _ _ has hlast =>
    obtain ⟨harms, hothers⟩ := h as last has hlast (hP _ hr)
    rw [stmtAssignments_case]
    refine Follows.mono ⟨List.forall_mem_append.2 ⟨harms.starts, hothers.starts⟩, ?_⟩ hus
    refine List.pairwise_append.2 ⟨harms.ordered, hothers.ordered, fun e he e' he' => .inr ?_⟩
    cases last with
    | none => cases he'
    | some b => exact ⟨_, _, as, b, _, hr, he, he'⟩

-- By induction on how the text is spelled; the resolved tree has the shape of the written one.
mutual

theorem follows_stmt (hP : Closed P) : ∀ {ts : List Token} {st : Syntax.Stmt} {r : Stmt},
    Syntax.StmtText ts st → Syntax.Laid file ts → scope.ResolvesStmt st r → P r →
      Follows P file ts (stmtAssignments r)
  | _, _, _, .assign _ _ _ _ _ hts, hlaid, .assign _ _ _, _ => by
    refine .singleton (startsIn_spanOf hlaid ?_)
    simp [hts]
  | _, _, _, @Syntax.StmtText.conditional _ lab tgt vs a z _ _ _ _ _ _ hvs _ rfl, hlaid,
      .ifs hbs hlast, _ => by
    have hinfix : vs <:+: lab ++ (tgt ++ a :: (vs ++ [z])) := ⟨lab ++ (tgt ++ [a]), [z], by simp⟩
    rw [stmtAssignments_ifs]
    exact (follows_values hvs (hlaid.of_isInfix hinfix) hbs hlast).mono hinfix.subset
  | _, _, _, @Syntax.StmtText.selected _ lab es tgt us w s a z _ _ _ _ _ _ _ _ _ hus _ rfl, hlaid,
      hres, hr => by
    have hinfix : us <:+: lab ++ w :: (es ++ s :: (tgt ++ a :: (us ++ [z]))) :=
      ⟨lab ++ w :: (es ++ s :: (tgt ++ [a])), [z], by simp⟩
    exact (followAll_selected hus (hlaid.of_isInfix hinfix)).case hinfix.subset hP hr hres
  | _, _, _, @Syntax.StmtText.ifs _ bs os name i e i' z _ _ _ hbs hos _ _ _ _ rfl, hlaid,
      .ifs hbranches hlast, hr => by
    have hinfix : bs ++ os <:+: i :: (bs ++ (os ++ e :: i' :: (name ++ [z]))) :=
      ⟨[i], e :: i' :: (name ++ [z]), by simp⟩
    obtain ⟨hin, hlastIn⟩ := List.forall_mem_append.1 (hP _ hr)
    have hlaid' := hlaid.of_isInfix hinfix
    rw [stmtAssignments_ifs]
    exact .append_of_isInfix hlaid hinfix (follows_branches hP hbs hlaid'.left hbranches hin)
      (follows_else hP hos hlaid'.right hlast hlastIn)
  | _, _, _, @Syntax.StmtText.case _ es us name c i e c' z _ _ _ _ _ hus _ _ _ _ rfl, hlaid,
      hres, hr => by
    have hinfix : us <:+: c :: (es ++ i :: (us ++ e :: c' :: (name ++ [z]))) :=
      ⟨c :: (es ++ [i]), e :: c' :: (name ++ [z]), by simp⟩
    exact (followAll_cases hP hus (hlaid.of_isInfix hinfix)).case hinfix.subset hP hr hres
  | _, _, _, .null _ _, _, .null, _ => .nil

theorem follows_block (hP : Closed P) : ∀ {ts : List Token} {b : List Syntax.Stmt} {rs : List Stmt},
    Syntax.BlockText ts b → Syntax.Laid file ts → List.Forall₂ scope.ResolvesStmt b rs →
      (∀ r ∈ rs, P r) → Follows P file ts (assignments rs)
  | _, _, _, .nil, _, .nil, _ => .nil
  | _, _, _, @Syntax.BlockText.cons lab ts us _ _ _ hts hus, hlaid, .cons hst hrs, hin => by
    have hinfix : ts ++ us <:+: lab ++ (ts ++ us) := (List.suffix_append _ _).isInfix
    obtain ⟨hr, hmore⟩ := List.forall_mem_cons.1 hin
    have hlaid' := hlaid.of_isInfix hinfix
    exact .append_of_isInfix hlaid hinfix (follows_stmt hP hts hlaid'.left hst hr)
      (follows_block hP hus hlaid'.right hrs hmore)

theorem follows_branches (hP : Closed P) : ∀ {ts : List Token} {branches : List Syntax.Branch}
    {bs : List Branch}, Syntax.BranchesText ts branches → Syntax.Laid file ts →
      List.Forall₂ scope.ResolvesBranch branches bs → (∀ b ∈ bs.map (·.body), ∀ r ∈ b, P r) →
        Follows P file ts (branchAssignments bs)
  | _, _, _, @Syntax.BranchesText.last cs bs t _ _ _ _ hbs, hlaid, .cons (.mk _ hrs) .nil, hin => by
    have hinfix : bs <:+: cs ++ t :: bs := ⟨cs ++ [t], [], by simp⟩
    have hbody := follows_block hP hbs (hlaid.of_isInfix hinfix) hrs (List.forall_mem_singleton.1 hin)
    rw [branchAssignments, branchAssignments, List.append_nil]
    exact hbody.mono hinfix.subset
  | _, _, _, @Syntax.BranchesText.more cs bs us t e _ _ _ _ _ hbs _ hus, hlaid,
      .cons (.mk _ hrs) hmore, hin => by
    have hinfix : bs ++ e :: us <:+: cs ++ t :: (bs ++ e :: us) := ⟨cs ++ [t], [], by simp⟩
    have hus' : us <:+: e :: us := (List.suffix_cons e us).isInfix
    obtain ⟨hin, hmoreIn⟩ := List.forall_mem_cons.1 hin
    have hlaid' := hlaid.of_isInfix hinfix
    have hbranches := follows_branches hP hus (hlaid'.right.of_isInfix hus') hmore hmoreIn
    exact .append_of_isInfix hlaid hinfix (follows_block hP hbs hlaid'.left hrs hin)
      (hbranches.mono hus'.subset)

theorem follows_else (hP : Closed P) : ∀ {ts : List Token} {otherwise : Option (List Syntax.Stmt)}
    {last : Option (List Stmt)}, Syntax.ElseText ts otherwise → Syntax.Laid file ts →
      Option.Rel (List.Forall₂ scope.ResolvesStmt) otherwise last →
        (∀ b ∈ last.toList, ∀ r ∈ b, P r) → Follows P file ts (assignments (last.getD []))
  | _, _, _, .none, _, .none, _ => .nil
  | _, _, _, @Syntax.ElseText.some e bs _ _ hbs, hlaid, .some hrs, hin => by
    have hinfix : bs <:+: e :: bs := (List.suffix_cons e bs).isInfix
    have hbody := follows_block hP hbs (hlaid.of_isInfix hinfix) hrs (List.forall_mem_singleton.1 hin)
    exact hbody.mono hinfix.subset

theorem followAll_cases (hP : Closed P) : ∀ {ts : List Token} {alts : List Syntax.Alternative},
    Syntax.CasesText ts alts → Syntax.Laid file ts → FollowAll P scope file ts alts
  | _, _, .nil, _ => .nil
  | _, _, @Syntax.CasesText.cons hs bs us w a _ _ _ _ _ hbs hus, hlaid => by
    have hinfix : bs ++ us <:+: w :: (hs ++ a :: (bs ++ us)) := ⟨w :: (hs ++ [a]), [], by simp⟩
    have hlaid' := hlaid.of_isInfix hinfix
    refine .cons hlaid hinfix (fun rs hrs hin => ?_) (followAll_cases hP hus hlaid'.right)
    exact follows_block hP hbs hlaid'.left hrs hin

end

end

/-! ### The first assignments of a body -/

/-- The statement stands in the body, at any depth. -/
def Within (body : List Stmt) (s : Stmt) : Prop := ∃ path, stmtAt? body path = some s

/-- The recorded assignment stands in an arm of a `case`, and one under the `others` of that statement is
written before it. -/
def Overtaken (body : List Stmt) (id : SignalId) (w : Span) : Prop :=
  ∃ s, s.before w = true ∧ Apart (Within body) (id, w) (id, s)

/-- Each signal that is assigned has a recorded assignment. It is the earliest one of the text, unless it
is overtaken. -/
structure RecordsFirst (body : List Stmt) (m : SignalMap Span) : Prop where
  keys : ∀ id, id ∈ m.keys ↔ ∃ s, (id, s) ∈ assignments body
  ascending : m.keys.Ascending
  earliest : ∀ id w, (id, w) ∈ m →
    (Span.Earliest (fun s => (id, s) ∈ assignments body) w ↔ ¬Overtaken body id w)

section
variable {body b : List Stmt} {path : StmtPath} {s : Stmt} {id : SignalId} {w : Span}

theorem stmtAt?_append {k : Nat} (hs : stmtAt? body path = some s) (hb : s.blocks[k]? = some b)
    (rest : StmtPath) : stmtAt? body (path ++ k :: rest) = stmtAt? b rest := by
  induction body, path using stmtAt?.induct with
  | case1 => cases hs
  | case2 body n =>
    have hn : body[n]? = some s := hs
    show (body[n]?).bind _ = _
    rw [hn, Option.bind_some, hb, Option.bind_some]
  | case3 body n j path ih =>
    obtain ⟨s', hs', hs⟩ := Option.bind_eq_some_iff.1 hs
    obtain ⟨b', hb', hs⟩ := Option.bind_eq_some_iff.1 hs
    show (body[n]?).bind _ = _
    rw [hs', Option.bind_some, hb', Option.bind_some]
    exact ih b' hs

theorem closed_within (body : List Stmt) : Closed (Within body) := by
  rintro s ⟨path, hs⟩ b hb r hr
  obtain ⟨k, hk⟩ := List.mem_iff_getElem?.1 hb
  obtain ⟨m, hm⟩ := List.mem_iff_getElem?.1 hr
  exact ⟨path ++ [k, m], (stmtAt?_append hs hk [m]).trans hm⟩

theorem within_of_mem (hs : s ∈ body) : Within body s := by
  obtain ⟨n, hn⟩ := List.mem_iff_getElem?.1 hs
  exact ⟨[n], hn⟩

theorem stmtAssignments_subset (hs : Within body s) : stmtAssignments s ⊆ assignments body := by
  obtain ⟨path, hs⟩ := hs
  induction body, path using stmtAt?.induct with
  | case1 => cases hs
  | case2 body n =>
    rw [assignments_eq]
    exact fun e he => List.mem_flatMap.2 ⟨s, List.mem_of_getElem? hs, he⟩
  | case3 body n k path ih =>
    obtain ⟨s', hs', hs⟩ := Option.bind_eq_some_iff.1 hs
    obtain ⟨b', hb', hs⟩ := Option.bind_eq_some_iff.1 hs
    have hblock : assignments b' ⊆ stmtAssignments s' := by
      rw [stmtAssignments_blocks]
      exact fun e he => List.mem_append_right _
        (List.mem_flatMap.2 ⟨b', List.mem_of_getElem? hb', he⟩)
    rw [assignments_eq]
    exact List.Subset.trans (ih b' hs) fun e he =>
      List.mem_flatMap.2 ⟨s', List.mem_of_getElem? hs', hblock he⟩

/-- What is looked up comes before all else with its key. -/
theorem first_of_lookup {R : SignalId × Span → SignalId × Span → Prop} {l : List (SignalId × Span)}
    (h : l.Pairwise R) (hw : l.lookup id = some w) :
    (id, w) ∈ l ∧ ∀ t, (id, t) ∈ l → t = w ∨ R (id, w) (id, t) := by
  obtain ⟨l₁, l₂, rfl, hnot⟩ := List.lookup_eq_some_iff.1 hw
  refine ⟨List.mem_append_right l₁ List.mem_cons_self, fun t ht => ?_⟩
  rcases List.mem_append.1 ht with ht | ht
  · exact absurd (hnot _ ht) (by simp)
  · rcases List.mem_cons.1 ht with heq | ht
    · exact .inl (Prod.mk.inj heq).2
    · exact .inr (List.rel_of_pairwise_cons (List.pairwise_append.1 h).2.1 ht)

theorem Follows.recordsFirst {file : Nat} {ts : List Token}
    (h : Follows (Within body) file ts (assignments body)) : RecordsFirst body (writes body) := by
  refine ⟨fun id => SignalMap.mem_keys_firsts, ascending_keys_writes body, fun id w hw => ?_⟩
  have hlookup : (assignments body).lookup id = some w := by
    rw [← SignalMap.lookup_firsts]
    exact mem_writes.1 hw
  obtain ⟨hmem, hfirst⟩ := first_of_lookup h.ordered hlookup
  constructor
  · rintro hearliest ⟨s, hbefore, subject, text, arms, others, span, hcase, -, hs⟩
    have hin : (id, s) ∈ stmtAssignments (.case subject text arms (some others) span) :=
      List.mem_append_right _ hs
    have hnot := hearliest.least s (stmtAssignments_subset hcase hin)
    exact absurd (hbefore.symm.trans hnot) nofun
  · refine fun hovertaken => ⟨hmem, fun s hs => ?_⟩
    refine Bool.eq_false_iff.2 fun hbefore => ?_
    rcases hfirst s hs with rfl | hlater | hapart
    · exact absurd hbefore (Bool.eq_false_iff.1 (Span.not_before_self s))
    · exact absurd hbefore (Bool.eq_false_iff.1 (Span.before_asymm hlater))
    · exact hovertaken ⟨s, hbefore, hapart⟩

end

end HdlLint.Flow

/-! ### The processes of a hierarchy -/

namespace HdlLint
open Design

/-- Each architecture is from a text in which nothing is reported. -/
def Syntax.Library.Faultless (l : Syntax.Library) : Prop :=
  ∀ a ∈ l.architectures, ∃ file text, (Syntax.parse file text).2 = [] ∧
    a ∈ (Syntax.parse file text).1.architectures

/-- A process of an instance is resolved from one of the text. -/
theorem Design.Pending.exists_resolved {l : Syntax.Library} {p : Pending} {i : Instance}
    {children : List Pending} (h : p.build l = .ok (i, children)) {r : Process} (hr : r ∈ i.processes) :
    ∃ x ∈ p.architecture.processes, ∃ scope : Scope,
      List.Forall₂ scope.ResolvesStmt x.2.body r.body := by
  obtain ⟨u, hu⟩ := Pending.build_unrolling h
  have hmade : r ∈ processesOf u.made := hu.processes ▸ Array.mem_toList_iff.2 hr
  obtain ⟨⟨site, item⟩, hm, hitem⟩ := List.mem_filterMap.1 hmade
  obtain ⟨q, part, -, -, hdescribes⟩ := hu.answers.sound _ hm
  cases hdescribes with
  | signal | child => cases hitem
  | @process src n r' hn hbuild =>
    obtain rfl : r' = r := Option.some.inj hitem
    obtain ⟨sensitivity, -, hbuild⟩ := Result.bind_eq_ok.1 hbuild
    obtain ⟨body, hbody, hbuild⟩ := Result.bind_eq_ok.1 hbuild
    obtain rfl := Except.ok.inj hbuild
    exact ⟨_, List.mem_of_getElem? hn, q.scope, Scope.resolvesBlock hbody⟩

theorem Attributed.exists_fits {κ : Type} {lt : κ → κ → Prop} {cause : κ → Prop}
    {fits : κ → Finding → Prop} {found : List Finding} (h : Attributed lt cause fits found) {f : Finding}
    (hf : f ∈ found) : ∃ k, fits k f := by
  obtain ⟨causes, -, -, hfits⟩ := h
  induction hfits with
  | nil => cases hf
  | cons hk _ ih =>
    rcases List.mem_cons.1 hf with rfl | hf
    · exact ⟨_, hk⟩
    · exact ih hf

namespace Flow

theorem recordsFirst_of_elaborate {l : Syntax.Library} {name : String} {overrides : Overrides}
    {d : Hierarchy} (hl : l.Faultless) (h : elaborate l name overrides = .ok d) {i : Instance}
    (hi : i ∈ d.instances) {p : Process} (hp : p ∈ i.processes) :
    RecordsFirst p.body (writes p.body) := by
  obtain ⟨pending, children, hbound, ⟨i₀, ns, hbuild, rfl⟩, -⟩ := elaborate_traced h i hi
  obtain ⟨x, hx, scope, hresolves⟩ := Pending.exists_resolved hbuild hp
  obtain ⟨-, -, -, hmem⟩ := hbound.spec
  obtain ⟨file, text, hclean, ha⟩ := hl _ hmem
  obtain ⟨ts, hpart, hblock⟩ := Syntax.parse_bodyText hclean _ ha x hx
  exact (follows_block (closed_within p.body) hblock hpart.laid hresolves
    fun r hr => within_of_mem hr).recordsFirst

/-- In designs from texts in which nothing is reported, the assignment that is recorded for a signal of a
process is the earliest of the text unless one under the `others` of a `case` is written before it and it
stands in an arm of that `case`. It is the place of the finding if the signal is a latch. -/
theorem elaborate_firstWrites {l : Syntax.Library} {name : String} {overrides : Overrides}
    {d : Hierarchy} (hl : l.Faultless) (h : elaborate l name overrides = .ok d) {i : Instance}
    (hi : i ∈ d.instances) (cap : Nat) :
    (∀ p ∈ i.processes, RecordsFirst p.body (summarize cap p).writes) ∧
      ∀ top, ∀ f ∈ (View.ofInstance top cap i).latchInferred, ∃ p ∈ i.processes, ∃ id,
        (View.ofInstance top cap i).SaysLatch cap p id f ∧
          (Span.Earliest (fun s => (id, s) ∈ assignments p.body) f.span ↔
            ¬Overtaken p.body id f.span) := by
  have hfirst : ∀ p ∈ i.processes, RecordsFirst p.body (writes p.body) :=
    fun p hp => recordsFirst_of_elaborate hl h hi hp
  refine ⟨hfirst, fun top f hf => ?_⟩
  obtain ⟨⟨n, id⟩, p, hn, hsays⟩ := (View.latchInferred_attributed top cap i).exists_fits hf
  have hp : p ∈ i.processes := Array.mem_toList_iff.1 (List.mem_of_getElem? hn)
  exact ⟨p, hp, id, hsays, (hfirst p hp).earliest id f.span hsays.place⟩

/-- What is assigned in the first process of the first instance. -/
def firstAssignments? (l : Syntax.Library) (top : String) : Option (List (SignalId × Span)) :=
  (elaborate l top []).toOption.bind fun d => d.instances.head?.bind fun i =>
    i.processes.toList.head?.map fun p => assignments p.body

theorem exists_of_firstAssignments? {l : Syntax.Library} {top : String} {es : List (SignalId × Span)}
    (h : firstAssignments? l top = some es) : ∃ d, elaborate l top [] = .ok d ∧
      ∃ i ∈ d.instances, ∃ p ∈ i.processes, assignments p.body = es := by
  obtain ⟨d, hd, h⟩ := Option.bind_eq_some_iff.1 h
  obtain ⟨i, hi, h⟩ := Option.bind_eq_some_iff.1 h
  obtain ⟨p, hp, rfl⟩ := Option.map_eq_some_iff.1 h
  have hp' : p ∈ i.processes := Array.mem_toList_iff.1 (List.mem_of_head? hp)
  refine ⟨d, ?_, i, List.mem_of_head? hi, p, hp', rfl⟩
  cases hrun : elaborate l top [] with
  | error e =>
    rw [hrun] at hd
    cases hd
  | ok d' =>
    rw [hrun] at hd
    exact congrArg _ (Option.some.inj hd)

/-- Two signals are assigned in an arm, and one of them under an `others` before it. -/
def othersBeforeArm : String :=
  "entity e is port (s, a, b : in bit; y, z : out bit); end; architecture r of e is begin " ++
  "process (all) begin case s is when others => y <= a; when '1' => y <= b; z <= a; end case; " ++
  "end process; end;"

theorem elaborate_firstWrites_othersBeforeArm : (Syntax.parse 0 othersBeforeArm).2 = [] ∧
    ∃ d, elaborate (Syntax.parse 0 othersBeforeArm).1 "e" [] = .ok d ∧
      ∃ i ∈ d.instances, ∃ p ∈ i.processes,
        (summarize 16 p).writes = [(3, ⟨0, 152, 159⟩), (4, ⟨0, 160, 167⟩)] ∧
          Overtaken p.body 3 ⟨0, 152, 159⟩ ∧ ¬Overtaken p.body 4 ⟨0, 160, 167⟩ := by
  have hrun : (Syntax.parse 0 othersBeforeArm).2 = [] ∧
      firstAssignments? (Syntax.parse 0 othersBeforeArm).1 "e" =
        some [(3, ⟨0, 152, 159⟩), (4, ⟨0, 160, 167⟩), (3, ⟨0, 132, 139⟩)] := by
    decide +kernel
  obtain ⟨d, hd, i, hi, p, hp, hbody⟩ := exists_of_firstAssignments? hrun.2
  have hwrites : (summarize 16 p).writes = [(3, ⟨0, 152, 159⟩), (4, ⟨0, 160, 167⟩)] :=
    congrArg SignalMap.firsts hbody
  have hfirst := (elaborate_firstWrites (fun a ha => ⟨0, _, hrun.1, ha⟩) hd hi 16).1 p hp
  rw [hwrites] at hfirst
  refine ⟨hrun.1, d, hd, i, hi, p, hp, hwrites, ?_, ?_⟩
  · by_contra hnot
    have hleast := ((hfirst.earliest 3 _ (by simp)).2 hnot).least ⟨0, 132, 139⟩ (by simp [hbody])
    cases hleast
  · refine (hfirst.earliest 4 _ (by simp)).1 ⟨by simp [hbody], fun s hs => ?_⟩
    obtain rfl : s = ⟨0, 160, 167⟩ := by simpa [hbody] using hs
    exact Span.not_before_self _

/-- The arm is recorded, and `others` is written before it. -/
def othersFirst : String :=
  "entity e is port (s, a, b : in bit; y : out bit); end; architecture r of e is begin " ++
  "p : process (all) begin case s is when others => y <= a; when '1' => y <= b; end case; " ++
  "end process; end;"

theorem elaborate_records_later : (Syntax.parse 0 othersFirst).2 = [] ∧
    ∃ d, elaborate (Syntax.parse 0 othersFirst).1 "e" [] = .ok d ∧
      ∃ i ∈ d.instances, ∃ p ∈ i.processes, ∃ w, (3, w) ∈ (summarize 16 p).writes ∧
        ¬Span.Earliest (fun s => (3, s) ∈ assignments p.body) w := by
  have hrun : (Syntax.parse 0 othersFirst).2 = [] ∧
      firstAssignments? (Syntax.parse 0 othersFirst).1 "e" =
        some [(3, ⟨0, 153, 160⟩), (3, ⟨0, 133, 140⟩)] := by
    decide +kernel
  obtain ⟨d, hd, i, hi, p, hp, hbody⟩ := exists_of_firstAssignments? hrun.2
  have hwrites : (summarize 16 p).writes = [(3, ⟨0, 153, 160⟩)] := congrArg SignalMap.firsts hbody
  refine ⟨hrun.1, d, hd, i, hi, p, hp, ⟨0, 153, 160⟩, by simp [hwrites], fun hearliest => ?_⟩
  have hleast := hearliest.least ⟨0, 133, 140⟩ (by simp [hbody])
  cases hleast

end Flow

end HdlLint
