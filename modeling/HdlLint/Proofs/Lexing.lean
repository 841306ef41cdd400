import Mathlib.Data.List.Infix
import Mathlib.Data.List.Pairwise
import Mathlib.Data.List.TakeWhile
import HdlLint.Proofs.ByteWalk

/-!
# Lexing loses nothing

The pieces that the reader of bytes finds (`lex_eq_pieces`) follow each other without a hole, each of at
least one character (`cut_cons`). So the tokens of a text stand in it one after the other, between whole
characters, and what lies between them is made of blanks and comments (`lex_lossless`). A comment is said
here by its text and by what follows it (`Filler`), without the functions that look for its end.
-/

namespace HdlLint.Lexer
open SourceFile (byteLength byteLength_nil byteLength_cons byteLength_append byteLength_pos
  append_inj_of_byteLength)

/-! ### Blanks and comments -/

/-- A comment that is opened by `/*` ends with the first of these. -/
def closing : List Char := ['*', '/']

/-- The stretch `f` of a text in front of `rest` is a blank or a comment. -/
inductive Filler : (f rest : List Char) → Prop
  | blank {c : Char} {rest : List Char} (h : Ascii.isBlank c) : Filler [c] rest
  /-- From `--` to the end of the line. -/
  | line {body rest : List Char} (hbody : '\n' ∉ body) (hrest : rest = [] ∨ rest.head? = some '\n') :
    Filler ('-' :: '-' :: body) rest
  | block {body rest : List Char} (h : ¬ closing <:+: body ++ ['*']) :
    Filler ('/' :: '*' :: (body ++ closing)) rest
  /-- A comment that is never closed runs to the end of the text. -/
  | unclosed {body : List Char} (h : ¬ closing <:+: body) : Filler ('/' :: '*' :: body) []

/-- The text `g` in front of `rest` is made of blanks and comments. -/
inductive Gap (rest : List Char) : List Char → Prop
  | nil : Gap rest []
  | cons {f g : List Char} (hf : Filler f (g ++ rest)) (hg : Gap rest g) : Gap rest (f ++ g)

theorem closing_infix_cons {c : Char} {cs : List Char} :
    closing <:+: c :: cs ↔ (c = '*' ∧ cs.head? = some '/') ∨ closing <:+: cs := by
  rw [List.infix_cons_iff, closing]
  refine or_congr_left ?_
  cases cs with
  | nil => simp
  | cons d ds => simp [List.cons_prefix_cons, eq_comm]

/-- A comment either ends behind its first closing, or there is none. -/
theorem blockComment_spec (cs : List Char) :
    ((blockComment cs).2 = true ∧ ∃ body, cs.take (blockComment cs).1 = body ++ closing ∧
        ¬ closing <:+: body ++ ['*']) ∨
      ((blockComment cs).2 = false ∧ (blockComment cs).1 = cs.length ∧ ¬ closing <:+: cs) := by
  fun_induction blockComment cs with
  | case1 => exact .inr ⟨rfl, rfl, by simp [closing]⟩
  | case2 rest => exact .inl ⟨rfl, [], rfl, by decide⟩
  | case3 c cs hopen n closed heq ih =>
    -- no closing starts with `c`
    have hc : c = '*' → cs.head? ≠ some '/' := by
      intro hstar hhead
      obtain ⟨rest, rfl⟩ := List.head?_eq_some_iff.1 hhead
      exact hopen rest hstar rfl
    rw [heq] at ih
    dsimp only at ih ⊢
    rcases ih with ⟨hclosed, body, hbody, hnone⟩ | ⟨hclosed, hlen, hnone⟩
    · refine .inl ⟨hclosed, c :: body, by simp [hbody], ?_⟩
      rw [List.cons_append, closing_infix_cons]
      rintro (⟨hstar, hhead⟩ | h)
      · have hcs : cs.head? = (body ++ ['*']).head? := by
          rw [← List.take_append_drop n cs, hbody]
          cases body <;> rfl
        exact hc hstar (hcs.trans hhead)
      · exact hnone h
    · refine .inr ⟨hclosed, by simp [hlen], ?_⟩
      rw [closing_infix_cons]
      rintro (⟨hstar, hhead⟩ | h)
      · exact hc hstar hhead
      · exact hnone h

/-- The end of a comment is found where its first closing stands. -/
theorem blockComment_closed {body : List Char} (h : ¬ closing <:+: body ++ ['*']) (rest : List Char) :
    blockComment (body ++ closing ++ rest) = (body.length + 2, true) := by
  induction body with
  | nil => rfl
  | cons c body ih =>
    rw [List.cons_append, closing_infix_cons, not_or] at h
    have hc : ∀ more, c = '*' → body ++ closing ++ rest ≠ '/' :: more := by
      intro more hstar heq
      refine h.1 ⟨hstar, ?_⟩
      have hhead := congrArg List.head? heq
      cases body with
      | nil => simp [closing] at hhead
      | cons d body => simpa using hhead
    rw [List.cons_append, List.cons_append, blockComment, ih h.2]
    · rfl
    · exact hc

theorem blockComment_unclosed {cs : List Char} (h : ¬ closing <:+: cs) :
    blockComment cs = (cs.length, false) := by
  rcases blockComment_spec cs with ⟨-, body, hbody, -⟩ | ⟨hclosed, hlen, -⟩
  · have hin : closing <:+: cs.take (blockComment cs).1 := hbody ▸ (List.suffix_append _ _).isInfix
    exact absurd (hin.trans (List.take_prefix _ _).isInfix) h
  · exact Prod.ext hlen hclosed

/-! ### What a piece is -/

/-- A token, and a fault of characters exactly if it is none. -/
def Shape.IsToken (s : Shape) : Prop :=
  ∃ k, s.kind = some k ∧ k ≠ .eof ∧
    ((k ≠ .invalid ∧ s.fault = none) ∨ (k = .invalid ∧ ∃ f, s.fault = some f ∧ f.code = .error 100))

theorem Shape.isToken_token {k : TokenKind} (heof : k ≠ .eof) (hinvalid : k ≠ .invalid) (n : Nat) :
    (Shape.token k n).IsToken :=
  ⟨k, rfl, heof, .inl ⟨hinvalid, rfl⟩⟩

theorem Shape.isToken_invalid {f : SyntaxError} (hf : f.code = .error 100) (n : Nat) :
    (Shape.invalid f n).IsToken :=
  ⟨.invalid, rfl, nofun, .inr ⟨rfl, f, rfl, hf⟩⟩

theorem stringShape_isToken {k : TokenKind} (heof : k ≠ .eof) (hinvalid : k ≠ .invalid) (n : Nat)
    (body : List Char) : (stringShape k n body).IsToken := by
  unfold stringShape
  dsimp only
  split
  · exact Shape.isToken_token heof hinvalid _
  · exact Shape.isToken_invalid rfl _

theorem wordShape_isToken (c : Char) (cs : List Char) : (wordShape c cs).IsToken := by
  have hword : ∀ (k : Option Keyword) n, (Shape.token (k.elim .identifier .keyword) n).IsToken := by
    intro k n
    cases k with
    | none => exact Shape.isToken_token (by nofun) (by nofun) n
    | some k => exact Shape.isToken_token (by nofun) (by nofun) n
  unfold wordShape
  dsimp only
  split
  · split
    · exact stringShape_isToken (by nofun) (by nofun) _ _
    · exact hword _ _
  · exact hword _ _

theorem numberShape_isToken (cs : List Char) : (numberShape cs).IsToken := by
  unfold numberShape
  dsimp only
  split
  · split
    · exact Shape.isToken_token (by nofun) (by nofun) _
    · exact Shape.isToken_invalid rfl _
  · split
    · exact Shape.isToken_token (by nofun) (by nofun) _
    · exact Shape.isToken_token (by nofun) (by nofun) _

theorem signShape_isToken (c : Char) (cs : List Char) : (signShape c cs).IsToken := by
  unfold signShape
  split
  · exact Shape.isToken_token (by nofun) (by nofun) _
  · split
    · exact Shape.isToken_token (by nofun) (by nofun) _
    · exact Shape.isToken_invalid rfl _

theorem tokenShape_isToken (prev : Option TokenKind) (c : Char) (cs : List Char) :
    (tokenShape prev c cs).IsToken := by
  unfold tokenShape
  split
  · exact Shape.isToken_token (by nofun) (by nofun) _
  · split
    · exact wordShape_isToken c cs
    · split
      · exact numberShape_isToken cs
      · split
        · exact stringShape_isToken (by nofun) (by nofun) _ _
        · exact signShape_isToken c cs

/-- What a piece in front of `rest` is: a token, or a blank or comment, which is faulty only if it is
never closed. -/
structure Piece.Fits (p : Piece) (rest : List Char) : Prop where
  ne_nil : p.text ≠ []
  ne_eof : p.kind ≠ some .eof
  filler : p.kind = none → Filler p.text rest
  fault : p.fault ≠ none ↔ p.kind = some .invalid ∨
    p.kind = none ∧ ∃ body, p.text = '/' :: '*' :: body ∧ ¬ closing <:+: body
  code : ∀ f, p.fault = some f → f.code = .error 100

theorem commentShape?_fits {c : Char} {cs : List Char} {s : Shape} (h : commentShape? c cs = some s)
    (pos : Nat) : Piece.Fits ⟨s.kind, c :: cs.take s.more, pos, s.fault⟩ (cs.drop s.more) := by
  have hnone : ∀ {α : Type} {a : α}, none ≠ some a := (Option.some_ne_none _).symm
  cases cs with
  | nil => cases h
  | cons d cs =>
    simp only [commentShape?] at h
    split at h
    · rename_i hline
      obtain ⟨rfl, rfl⟩ : c = '-' ∧ d = '-' := by simpa using hline
      obtain rfl := Option.some.inj h
      have hbody : '\n' ∉ cs.takeWhile (· ≠ '\n') := fun hmem => by
        simpa using List.mem_takeWhile_imp hmem
      have hrest : cs.dropWhile (· ≠ '\n') = [] ∨ (cs.dropWhile (· ≠ '\n')).head? = some '\n' := by
        rcases hdrop : cs.dropWhile (· ≠ '\n') with _ | ⟨d, ds⟩
        · exact .inl rfl
        · have hhead := List.head?_dropWhile_not (· ≠ '\n') cs
          rw [hdrop] at hhead
          exact .inr (by simpa using hhead)
      have htext : ('-' :: cs).take (1 + (cs.takeWhile (· ≠ '\n')).length) =
          '-' :: cs.takeWhile (· ≠ '\n') := by
        rw [Nat.add_comm, List.take_succ_cons, take_length_takeWhile]
      have hback : ('-' :: cs).drop (1 + (cs.takeWhile (· ≠ '\n')).length) = cs.dropWhile (· ≠ '\n') := by
        rw [Nat.add_comm, List.drop_succ_cons, drop_length_takeWhile]
      simp only [Shape.gap, htext, hback]
      refine ⟨List.cons_ne_nil _ _, hnone, fun _ => .line hbody hrest, ?_, fun _ hf => absurd hf hnone⟩
      simp
    · split at h
      · rename_i hblock
        obtain ⟨rfl, rfl⟩ : c = '/' ∧ d = '*' := by simpa using hblock
        obtain rfl := Option.some.inj h
        have htext : ∀ n, ('*' :: cs).take (1 + n) = '*' :: cs.take n := fun n => by
          rw [Nat.add_comm, List.take_succ_cons]
        have hback : ∀ n, ('*' :: cs).drop (1 + n) = cs.drop n := fun n => by
          rw [Nat.add_comm, List.drop_succ_cons]
        simp only [htext, hback]
        rcases blockComment_spec cs with ⟨hclosed, body, hbody, hopen⟩ | ⟨hclosed, hlen, hopen⟩
        · simp only [hclosed, hbody, if_true]
          refine ⟨List.cons_ne_nil _ _, hnone, fun _ => .block hopen, ?_, fun _ hf => absurd hf hnone⟩
          suffices h : ∀ body', body ++ closing = body' → closing <:+: body' by simpa using h
          rintro _ rfl
          exact (List.suffix_append _ _).isInfix
        · simp only [hclosed, hlen, List.take_length, List.drop_length]
          refine ⟨List.cons_ne_nil _ _, hnone, fun _ => .unclosed hopen, ?_, ?_⟩
          · simpa using hopen
          · rintro f ⟨⟩
            rfl
      · cases h

/-- Every piece is a token, or a blank or comment. -/
theorem shape_fits (prev : Option TokenKind) (c : Char) (cs : List Char) (pos : Nat) :
    Piece.Fits ⟨(shape prev c cs).kind, c :: cs.take (shape prev c cs).more, pos, (shape prev c cs).fault⟩
      (cs.drop (shape prev c cs).more) := by
  by_cases hblank : Ascii.isBlank c
  · simp only [shape, hblank, if_true]
    have hnone : ∀ {α : Type} {a : α}, none ≠ some a := (Option.some_ne_none _).symm
    refine ⟨List.cons_ne_nil _ _, hnone, fun _ => .blank hblank, ?_, fun _ hf => absurd hf hnone⟩
    have hc : c ≠ '/' := by rintro rfl; revert hblank; decide
    simp [Shape.gap, hc]
  cases hcomment : commentShape? c cs with
  | some s =>
    simp only [shape, hblank, hcomment]
    exact commentShape?_fits hcomment pos
  | none =>
    obtain ⟨k, hkind, heof, hfault⟩ := tokenShape_isToken prev c cs
    simp only [shape, hblank, hcomment]
    refine ⟨List.cons_ne_nil _ _, ?_, ?_, ?_, ?_⟩
    · simpa [hkind] using heof
    · simp [hkind]
    · rcases hfault with ⟨hvalid, hnone⟩ | ⟨rfl, f, hf, -⟩
      · simp [hkind, hvalid, hnone]
      · simp [hkind, hf]
    · rcases hfault with ⟨-, hnone⟩ | ⟨-, f, hf, hcode⟩
      · simp [hnone]
      · intro f' hf'
        obtain rfl : f = f' := by simpa [hf] using hf'
        exact hcode

/-! ### Where pieces stand -/

/-- Induction over the pieces of a text: one more piece stands in front of a text that is cut on. -/
theorem cut_induction {motive : Option TokenKind → Nat → List Char → Prop}
    (nil : ∀ prev pos, motive prev pos [])
    (cons : ∀ prev (p : Piece) back, p.Fits back →
      cut prev p.start 0 (p.text ++ back) =
        p :: cut (p.kind <|> prev) (p.start + byteLength p.text) 0 back →
      motive (p.kind <|> prev) (p.start + byteLength p.text) back → motive prev p.start (p.text ++ back))
    (prev : Option TokenKind) (pos : Nat) (cs : List Char) : motive prev pos cs := by
  induction hn : cs.length using Nat.strong_induction_on generalizing prev pos cs with
  | _ n ih =>
    cases cs with
    | nil => exact nil prev pos
    | cons c cs =>
      let p : Piece :=
        ⟨(shape prev c cs).kind, c :: cs.take (shape prev c cs).more, pos, (shape prev c cs).fault⟩
      have htext : p.text ++ cs.drop (shape prev c cs).more = c :: cs := by simp [p]
      have hcut := cut_cons prev pos c cs
      rw [← htext] at hcut ⊢
      refine cons prev p _ (shape_fits prev c cs pos) hcut (ih _ ?_ _ _ _ rfl)
      simp only [List.length_cons] at hn
      simp only [List.length_drop]
      omega

/-- What is so of every token by its shape is so of every token of a text. -/
theorem cut_forall {P : TokenKind → List Char → Prop}
    (h : ∀ prev c cs k, (shape prev c cs).kind = some k → P k (c :: cs.take (shape prev c cs).more))
    {prev : Option TokenKind} {pos skip : Nat} {cs : List Char} :
    ∀ p ∈ cut prev pos skip cs, ∀ k, p.kind = some k → P k p.text := by
  induction cs generalizing prev pos skip with
  | nil => exact List.forall_mem_nil _
  | cons c cs ih =>
    cases skip with
    | zero =>
      intro p hp
      rcases List.mem_cons.1 hp with rfl | hp
      · exact h prev c cs
      · exact ih p hp
    | succ skip => exact ih

/-- Every piece stands in the text, and behind it the text is cut on. -/
theorem cut_placed (prev : Option TokenKind) (pos : Nat) (cs : List Char) :
    ∀ p ∈ cut prev pos 0 cs, ∃ front back before prev', cs = front ++ p.text ++ back ∧
      p.start = pos + byteLength front ∧ p.Fits back ∧
        cut prev pos 0 cs = before ++ p :: cut prev' (p.start + byteLength p.text) 0 back := by
  induction prev, pos, cs using cut_induction with
  | nil prev pos => intro p hp; cases hp
  | cons prev q back hq hcut ih =>
    intro p hp
    rw [hcut] at hp ⊢
    rcases List.mem_cons.1 hp with rfl | hp
    · exact ⟨[], back, [], _, rfl, rfl, hq, rfl⟩
    · obtain ⟨front, back', before, prev', hback, hstart, hfits, hbefore⟩ := ih p hp
      refine ⟨q.text ++ front, back', q :: before, prev', ?_, ?_, hfits, ?_⟩
      · simp only [hback, List.append_assoc]
      · rw [hstart, byteLength_append, Nat.add_assoc]
      · rw [hbefore, List.cons_append]

/-- No two pieces overlap. -/
theorem cut_ascending (prev : Option TokenKind) (pos : Nat) (cs : List Char) :
    (cut prev pos 0 cs).Pairwise fun p q => p.start + byteLength p.text ≤ q.start := by
  induction prev, pos, cs using cut_induction with
  | nil prev pos => exact .nil
  | cons prev p back hp hcut ih =>
    rw [hcut, List.pairwise_cons]
    refine ⟨fun q hq => ?_, ih⟩
    obtain ⟨front, _, _, _, -, hstart, -, -⟩ := cut_placed _ _ _ q hq
    omega

/-- Every byte belongs to a piece. -/
theorem cut_covers (prev : Option TokenKind) (pos : Nat) (cs : List Char) :
    ∀ i, pos ≤ i → i < pos + byteLength cs →
      ∃ p ∈ cut prev pos 0 cs, p.start ≤ i ∧ i < p.start + byteLength p.text := by
  induction prev, pos, cs using cut_induction with
  | nil prev pos =>
    intro i hle hlt
    simp only [byteLength_nil] at hlt
    omega
  | cons prev p back hp hcut ih =>
    intro i hle hlt
    rw [hcut]
    by_cases hi : i < p.start + byteLength p.text
    · exact ⟨p, List.mem_cons_self, hle, hi⟩
    · rw [byteLength_append] at hlt
      obtain ⟨q, hq, hqi⟩ := ih i (by omega) (by omega)
      exact ⟨q, List.mem_cons_of_mem _ hq, hqi⟩

/-! ### Comments that are never closed -/

theorem shape_comment {c : Char} {cs : List Char} {s : Shape} (hc : Ascii.isBlank c = false)
    (h : commentShape? c cs = some s) (prev : Option TokenKind) : shape prev c cs = s := by
  simp [shape, hc, h]

/-- A blank or comment is cut off as one piece. -/
theorem cut_filler {f rest : List Char} (h : Filler f rest) (prev : Option TokenKind) (pos : Nat) :
    ∃ fault, cut prev pos 0 (f ++ rest) =
      ⟨none, f, pos, fault⟩ :: cut prev (pos + byteLength f) 0 rest := by
  suffices hshape : ∃ c cs fault, f = c :: cs ∧ shape prev c (cs ++ rest) = ⟨none, cs.length, fault⟩ by
    obtain ⟨c, cs, fault, rfl, hs⟩ := hshape
    refine ⟨fault, ?_⟩
    rw [List.cons_append, cut_cons, hs]
    simp
  cases h with
  | @blank c rest hc => exact ⟨c, [], none, rfl, by simp [shape, hc, Shape.gap]⟩
  | @line body rest hbody hrest =>
    have htake : (body ++ rest).takeWhile (· ≠ '\n') = body := by
      rw [List.takeWhile_append_of_pos (fun c hc => by simpa using ne_of_mem_of_not_mem hc hbody)]
      rcases hrest with rfl | hrest
      · simp
      · obtain ⟨more, rfl⟩ := List.head?_eq_some_iff.1 hrest
        simp
    refine ⟨'-', '-' :: body, none, rfl, shape_comment rfl ?_ prev⟩
    simp only [List.cons_append, commentShape?, htake, decide_true, Bool.and_self, if_true, Shape.gap,
      List.length_cons, Nat.add_comm]
  | @block body rest hbody =>
    refine ⟨'/', '*' :: (body ++ closing), none, rfl, shape_comment rfl ?_ prev⟩
    simp only [List.cons_append, commentShape?, blockComment_closed hbody]
    simp [closing, Nat.add_comm]
  | @unclosed body hbody =>
    refine ⟨'/', '*' :: body, some .unterminatedComment, rfl, shape_comment rfl ?_ prev⟩
    simp [commentShape?, blockComment_unclosed hbody, Nat.add_comm]

theorem cut_gap {g rest : List Char} (h : Gap rest g) (prev : Option TokenKind) (pos : Nat) :
    ∃ ps, cut prev pos 0 (g ++ rest) = ps ++ cut prev (pos + byteLength g) 0 rest := by
  induction h generalizing pos with
  | nil => exact ⟨[], by simp⟩
  | @cons f g hf _ ih =>
    obtain ⟨fault, hcut⟩ := cut_filler hf prev pos
    obtain ⟨ps, hps⟩ := ih (pos + byteLength f)
    refine ⟨⟨none, f, pos, fault⟩ :: ps, ?_⟩
    rw [List.append_assoc, hcut, hps, byteLength_append, Nat.add_assoc, List.cons_append]

theorem Filler.eq_nil_of_unclosed {body rest : List Char} (h : Filler ('/' :: '*' :: body) rest)
    (hbody : ¬ closing <:+: body) : rest = [] := by
  cases h with
  | block => exact absurd (List.suffix_append _ _).isInfix hbody
  | unclosed => rfl

/-- A comment that is never closed stands behind blanks and comments at the start of the text or
behind a token. -/
theorem exists_gap_of_fault (prev : Option TokenKind) (pos : Nat) (cs : List Char) :
    (∃ p ∈ cut prev pos 0 cs, p.kind = none ∧ p.fault ≠ none) →
      ∃ front g body, cs = front ++ g ++ '/' :: '*' :: body ∧
        (front = [] ∨ ∃ q ∈ cut prev pos 0 cs, q.kind ≠ none ∧
          q.start + byteLength q.text = pos + byteLength front) ∧
        Gap ('/' :: '*' :: body) g ∧ ¬ closing <:+: body := by
  induction prev, pos, cs using cut_induction with
  | nil prev pos => rintro ⟨p, hp, -⟩; cases hp
  | cons prev p back hp hcut ih =>
    rw [hcut]
    rintro ⟨q, hq, hkind, hfault⟩
    rcases List.mem_cons.1 hq with rfl | hq
    · obtain ⟨body, htext, hbody⟩ : ∃ body, q.text = '/' :: '*' :: body ∧ ¬ closing <:+: body := by
        simpa [hkind] using hp.fault.1 hfault
      obtain rfl : back = [] := (htext ▸ hp.filler hkind).eq_nil_of_unclosed hbody
      exact ⟨[], [], body, by simp [htext], .inl rfl, .nil, hbody⟩
    · obtain ⟨front, g, body, rfl, hfront, hg, hbody⟩ := ih ⟨q, hq, hkind, hfault⟩
      rcases hfront with rfl | ⟨r, hr, hrkind, hend⟩
      · -- the piece in front is one more filler, or the token behind which the gap starts
        by_cases hpkind : p.kind = none
        · have hfiller := hp.filler hpkind
          rw [List.nil_append] at hfiller
          exact ⟨[], p.text ++ g, body, by simp, .inl rfl, .cons hfiller hg, hbody⟩
        · exact ⟨p.text, g, body, by simp, .inr ⟨p, List.mem_cons_self, hpkind, rfl⟩, hg, hbody⟩
      · refine ⟨p.text ++ front, g, body, by simp, .inr ⟨r, List.mem_cons_of_mem _ hr, hrkind, ?_⟩,
          hg, hbody⟩
        rw [hend, byteLength_append, Nat.add_assoc]

/-- A comment that is never closed is found at the end of every gap that leads to it. -/
theorem exists_fault_of_gap {front g body : List Char} (hg : Gap ('/' :: '*' :: body) g)
    (hbody : ¬ closing <:+: body)
    (hfront : front = [] ∨ ∃ q ∈ cut none 0 0 (front ++ (g ++ '/' :: '*' :: body)),
      q.start + byteLength q.text = byteLength front) :
    ∃ p ∈ cut none 0 0 (front ++ (g ++ '/' :: '*' :: body)), p.fault ≠ none := by
  -- the text behind `front` is cut from its start
  obtain ⟨before, prev, hcut⟩ : ∃ before prev, cut none 0 0 (front ++ (g ++ '/' :: '*' :: body)) =
      before ++ cut prev (byteLength front) 0 (g ++ '/' :: '*' :: body) := by
    rcases hfront with rfl | ⟨q, hq, hend⟩
    · exact ⟨[], none, rfl⟩
    · obtain ⟨front', back, before, prev, htext, hstart, -, hcut⟩ := cut_placed _ _ _ q hq
      obtain ⟨-, rfl⟩ := append_inj_of_byteLength htext (by rw [byteLength_append]; omega)
      exact ⟨before ++ [q], prev, by rw [hcut, hend, List.append_assoc, List.singleton_append]⟩
  obtain ⟨ps, hps⟩ := cut_gap hg prev (byteLength front)
  obtain ⟨fault, hlast⟩ := cut_filler (.unclosed hbody) prev (byteLength front + byteLength g)
  have hmem : ⟨none, '/' :: '*' :: body, byteLength front + byteLength g, fault⟩ ∈
      cut none 0 0 (front ++ (g ++ '/' :: '*' :: body)) := by
    rw [List.append_nil] at hlast
    rw [hcut, hps, hlast]
    simp
  obtain ⟨_, _, _, _, -, -, hfits, -⟩ := cut_placed _ _ _ _ hmem
  exact ⟨_, hmem, hfits.fault.2 (.inr ⟨rfl, body, rfl, hbody⟩)⟩

/-! ### Tokens -/

/-- The text ends in a comment that is never closed, which stands behind blanks and comments at its
start or behind a token. -/
def EndsOpen (cs : List Char) (tokens : List Token) : Prop :=
  ∃ front g body, cs = front ++ g ++ '/' :: '*' :: body ∧
    (front = [] ∨ ∃ t ∈ tokens, t.span.stop = byteLength front) ∧
    Gap ('/' :: '*' :: body) g ∧ ¬ closing <:+: body

/-- What the tokens of the text `cs` are, and when a fault is told. -/
structure Lossless (file : Nat) (cs : List Char) (tokens : List Token) (faults : List Diagnostic) :
    Prop where
  /-- One token closes the text, and all others have at least one byte. -/
  closed : ∃ inner, tokens = inner ++ [⟨.eof, "", ⟨file, byteLength cs, byteLength cs⟩⟩] ∧
    ∀ t ∈ inner, t.kind ≠ .eof ∧ t.span.start < t.span.stop
  /-- A token stands in the text between whole characters. -/
  placed : ∀ t ∈ tokens, t.span.file = file ∧ ∃ front back, cs = front ++ t.text.toList ++ back ∧
    t.span.start = byteLength front ∧ t.span.stop = byteLength (front ++ t.text.toList)
  /-- In a text of fewer bytes than a word can count, a word holds every offset. -/
  counted : byteLength cs < SourceFile.wordCount → ∀ t ∈ tokens, t.span.stop < SourceFile.wordCount
  ascending : tokens.Pairwise fun t u => t.span.stop ≤ u.span.start
  /-- A byte that belongs to no token belongs to a blank or a comment between tokens. -/
  covered : ∀ i < byteLength cs, (∃ t ∈ tokens, t.span.start ≤ i ∧ i < t.span.stop) ∨
    ∃ front f back, cs = front ++ f ++ back ∧ Filler f back ∧
      byteLength front ≤ i ∧ i < byteLength (front ++ f) ∧
      ∀ t ∈ tokens, t.span.stop ≤ byteLength front ∨ byteLength (front ++ f) ≤ t.span.start
  faulty : (∃ d ∈ faults, d.code = .error 100) ↔
    (∃ t ∈ tokens, t.kind = .invalid) ∨ EndsOpen cs tokens

section
variable {file : Nat} {text : String} {t : Token}

theorem mem_inner : t ∈ (pieces text).filterMap (Piece.token? file) ↔
    ∃ p ∈ pieces text, ∃ k, p.kind = some k ∧ t = ⟨k, String.ofList p.text, p.span file⟩ := by
  simp only [List.mem_filterMap, Piece.token?, Option.map_eq_some_iff]
  constructor
  · rintro ⟨p, hp, k, hk, rfl⟩
    exact ⟨p, hp, k, hk, rfl⟩
  · rintro ⟨p, hp, k, hk, rfl⟩
    exact ⟨p, hp, k, hk, rfl⟩

theorem mem_lex : t ∈ (lex file text).1 ↔
    (∃ p ∈ pieces text, ∃ k, p.kind = some k ∧ t = ⟨k, String.ofList p.text, p.span file⟩) ∨
      t = eof file text := by
  rw [← mem_inner, lex_eq_pieces, List.mem_append, List.mem_singleton]

theorem stop_le_of_mem_pieces {p : Piece} (hp : p ∈ pieces text) :
    p.start + byteLength p.text ≤ byteLength text.toList := by
  obtain ⟨front, back, _, _, htext, hstart, -, -⟩ := cut_placed _ _ _ p hp
  rw [htext, byteLength_append, byteLength_append]
  omega

/-- Of two pieces one stands before the other. -/
theorem pieces_apart {p q : Piece} (hp : p ∈ pieces text) (hq : q ∈ pieces text) (hne : p ≠ q) :
    p.start + byteLength p.text ≤ q.start ∨ q.start + byteLength q.text ≤ p.start := by
  let Apart (p q : Piece) : Prop :=
    p.start + byteLength p.text ≤ q.start ∨ q.start + byteLength q.text ≤ p.start
  have hsymm : Std.Symm Apart := ⟨fun _ _ h => h.symm⟩
  have happart : (pieces text).Pairwise Apart := (cut_ascending none 0 text.toList).imp .inl
  exact happart.forall hp hq hne

variable (file text)

theorem lex_ascending : (lex file text).1.Pairwise fun t u => t.span.stop ≤ u.span.start := by
  rw [lex_eq_pieces, List.pairwise_append]
  refine ⟨?_, List.pairwise_singleton _ _, ?_⟩
  · rw [List.pairwise_filterMap]
    refine (cut_ascending none 0 text.toList).imp fun {p q} h t ht u hu => ?_
    obtain ⟨_, -, rfl⟩ := Option.map_eq_some_iff.1 ht
    obtain ⟨_, -, rfl⟩ := Option.map_eq_some_iff.1 hu
    exact h
  · intro t ht u hu
    obtain ⟨p, hp, k, -, rfl⟩ := mem_inner.1 ht
    obtain rfl := List.mem_singleton.1 hu
    exact stop_le_of_mem_pieces hp

theorem lex_covered (i : Nat) (hi : i < byteLength text.toList) :
    (∃ t ∈ (lex file text).1, t.span.start ≤ i ∧ i < t.span.stop) ∨
      ∃ front f back, text.toList = front ++ f ++ back ∧ Filler f back ∧
        byteLength front ≤ i ∧ i < byteLength (front ++ f) ∧
        ∀ t ∈ (lex file text).1, t.span.stop ≤ byteLength front ∨
          byteLength (front ++ f) ≤ t.span.start := by
  obtain ⟨p, hp, hle, hlt⟩ := cut_covers none 0 text.toList i (Nat.zero_le i) (by omega)
  cases hkind : p.kind with
  | some k => exact .inl ⟨_, mem_lex.2 (.inl ⟨p, hp, k, hkind, rfl⟩), hle, hlt⟩
  | none =>
    obtain ⟨front, back, _, _, htext, hstart, hfits, -⟩ := cut_placed _ _ _ p hp
    have hend : byteLength (front ++ p.text) = p.start + byteLength p.text := by
      rw [byteLength_append]; omega
    refine .inr ⟨front, p.text, back, htext, hfits.filler hkind, by omega, by omega, fun t ht => ?_⟩
    rcases mem_lex.1 ht with ⟨q, hq, k, hk, rfl⟩ | rfl
    · have hne : p ≠ q := by
        rintro rfl
        rw [hkind] at hk
        cases hk
      rcases pieces_apart hp hq hne with h | h
      · exact .inr (by rw [hend]; exact h)
      · exact .inl (by rw [show byteLength front = p.start by omega]; exact h)
    · exact .inr (by rw [hend]; exact stop_le_of_mem_pieces hp)

theorem lex_faulty : (∃ d ∈ (lex file text).2, d.code = .error 100) ↔
    (∃ t ∈ (lex file text).1, t.kind = .invalid) ∨ EndsOpen text.toList (lex file text).1 := by
  have hfault : (∃ d ∈ (lex file text).2, d.code = .error 100) ↔ ∃ p ∈ pieces text, p.fault ≠ none := by
    rw [lex_eq_pieces]
    constructor
    · rintro ⟨d, hd, -⟩
      obtain ⟨p, hp, hpd⟩ := List.mem_filterMap.1 hd
      obtain ⟨f, hf, -⟩ := Option.map_eq_some_iff.1 hpd
      exact ⟨p, hp, by simp [hf]⟩
    · rintro ⟨p, hp, hf⟩
      obtain ⟨f, hf⟩ := Option.ne_none_iff_exists'.1 hf
      obtain ⟨_, _, _, _, -, -, hfits, -⟩ := cut_placed _ _ _ p hp
      refine ⟨f.toDiagnostic (p.span file), List.mem_filterMap.2 ⟨p, hp, ?_⟩, hfits.code f hf⟩
      simp [Piece.diagnostic?, hf]
  rw [hfault]
  constructor
  · rintro ⟨p, hp, hf⟩
    obtain ⟨_, _, _, _, -, -, hfits, -⟩ := cut_placed _ _ _ p hp
    rcases hfits.fault.1 hf with hinvalid | ⟨hkind, -⟩
    · exact .inl ⟨_, mem_lex.2 (.inl ⟨p, hp, .invalid, hinvalid, rfl⟩), rfl⟩
    · obtain ⟨front, g, body, htext, hfront, hg, hbody⟩ :=
        exists_gap_of_fault none 0 text.toList ⟨p, hp, hkind, hf⟩
      refine .inr ⟨front, g, body, htext, hfront.imp_right ?_, hg, hbody⟩
      rintro ⟨q, hq, hqkind, hend⟩
      obtain ⟨k, hk⟩ := Option.ne_none_iff_exists'.1 hqkind
      exact ⟨_, mem_lex.2 (.inl ⟨q, hq, k, hk, rfl⟩), hend.trans (Nat.zero_add _)⟩
  · rintro (⟨t, ht, hinvalid⟩ | ⟨front, g, body, htext, hfront, hg, hbody⟩)
    · rcases mem_lex.1 ht with ⟨p, hp, k, hk, rfl⟩ | rfl
      · obtain ⟨_, _, _, _, -, -, hfits, -⟩ := cut_placed _ _ _ p hp
        exact ⟨p, hp, hfits.fault.2 (.inl (hk.trans (congrArg some hinvalid)))⟩
      · cases hinvalid
    · rw [List.append_assoc] at htext
      rw [pieces, htext]
      refine exists_fault_of_gap hg hbody (hfront.imp_right ?_)
      rintro ⟨t, ht, hend⟩
      rcases mem_lex.1 ht with ⟨q, hq, k, -, rfl⟩ | rfl
      · exact ⟨q, by rwa [pieces, htext] at hq, hend⟩
      · -- the closing token stands behind the comment
        have hlen : byteLength text.toList = byteLength front := hend
        rw [htext, byteLength_append, byteLength_append] at hlen
        have hpos := byteLength_pos (List.cons_ne_nil '/' ('*' :: body))
        omega

theorem lex_closed : ∃ inner, (lex file text).1 = inner ++ [eof file text] ∧
    ∀ t ∈ inner, t.kind ≠ .eof ∧ t.span.start < t.span.stop := by
  refine ⟨(pieces text).filterMap (Piece.token? file), by rw [lex_eq_pieces], fun t ht => ?_⟩
  obtain ⟨p, hp, k, hk, rfl⟩ := mem_inner.1 ht
  obtain ⟨_, _, _, _, -, -, hfits, -⟩ := cut_placed _ _ _ p hp
  have hpos := byteLength_pos hfits.ne_nil
  refine ⟨fun heof => hfits.ne_eof (hk.trans (congrArg some heof)), ?_⟩
  show p.start < p.start + byteLength p.text
  omega

/-- The tokens of a text and the blanks and comments between them are all of the text. -/
theorem lex_lossless : Lossless file text.toList (lex file text).1 (lex file text).2 where
  closed := lex_closed file text
  placed := by
    intro t ht
    rcases mem_lex.1 ht with ⟨p, hp, k, -, rfl⟩ | rfl
    · obtain ⟨front, back, _, _, htext, hstart, -, -⟩ := cut_placed _ _ _ p hp
      rw [Nat.zero_add] at hstart
      refine ⟨rfl, front, back, by simpa using htext, hstart, ?_⟩
      simp [Piece.span, hstart]
    · exact ⟨rfl, text.toList, [], by simp [eof], rfl, by simp [eof]⟩
  counted := by
    intro hshort t ht
    refine Nat.lt_of_le_of_lt ?_ hshort
    rcases mem_lex.1 ht with ⟨p, hp, k, -, rfl⟩ | rfl
    · exact stop_le_of_mem_pieces hp
    · exact Nat.le_refl _
  ascending := lex_ascending file text
  covered := lex_covered file text
  faulty := lex_faulty file text

end

end HdlLint.Lexer
