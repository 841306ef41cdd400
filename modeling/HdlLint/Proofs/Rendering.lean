import HdlLint.Proofs.FaultSpans
import HdlLint.Proofs.Lexing
import HdlLint.Proofs.Lists

/-!
# Every text is read to its end, and its faults can be shown

A list of rules is a loop whose rounds each pass a token (`Parse.ListsEnd`), so reading comes to the
end of every text, and never behind it. The spans of tokens lie in the text, from one character to
another, and so do the spans that cover them. Hence the faults of the text and of the units in it
stand where a line can be quoted from (`parse_renderable`).
-/

namespace HdlLint.SourceFile

/-! ### Cutting a text at a byte -/

theorem splitBytes_append (front back : List Char) :
    splitBytes (byteLength front) (front ++ back) = some (front, back) := by
  induction front with
  | nil => cases back <;> rfl
  | cons c cs ih =>
    obtain ⟨n, hn⟩ : ∃ n, c.utf8Size = n + 1 := ⟨c.utf8Size - 1, by have := c.utf8Size_pos; omega⟩
    have hlen : byteLength (c :: cs) = n + byteLength cs + 1 := by rw [byteLength_cons, hn]; omega
    have hrest : n + byteLength cs + 1 - c.utf8Size = byteLength cs := by omega
    rw [hlen, List.cons_append, splitBytes, if_pos (by omega), hrest, ih]
    rfl

theorem spanBytes_append (front back : List Char) :
    spanBytes (byteLength front) (front ++ back) = (front, back) := by
  induction front with
  | nil => cases back <;> rfl
  | cons c cs ih =>
    obtain ⟨n, hn⟩ : ∃ n, c.utf8Size = n + 1 := ⟨c.utf8Size - 1, by have := c.utf8Size_pos; omega⟩
    have hlen : byteLength (c :: cs) = n + byteLength cs + 1 := by rw [byteLength_cons, hn]; omega
    have hrest : n + byteLength cs + 1 - c.utf8Size = byteLength cs := by omega
    rw [hlen, List.cons_append, spanBytes, hrest, ih]

end HdlLint.SourceFile

namespace HdlLint
open SourceFile

/-! ### Spans of a text -/

/-- The span lies in the text `cs` of the file, and starts at a character. -/
structure InText (file : Nat) (cs : List Char) (x : Span) : Prop where
  file : x.file = file
  ordered : x.start ≤ x.stop
  inside : x.stop ≤ byteLength cs
  boundary : ∃ front back, cs = front ++ back ∧ x.start = byteLength front

namespace InText
variable {file : Nat} {cs : List Char} {x y : Span}

theorem cover (hx : InText file cs x) (hy : InText file cs y) : InText file cs (x.cover y) := by
  rw [Span.cover, if_pos (hx.file.trans hy.file.symm)]
  have hxo := hx.ordered
  have hyo := hy.ordered
  have hxi := hx.inside
  have hyi := hy.inside
  refine ⟨hx.file, ?_, ?_, ?_⟩
  · show min x.start y.start ≤ max x.stop y.stop
    omega
  · show max x.stop y.stop ≤ byteLength cs
    omega
  · rcases Nat.le_total x.start y.start with hle | hle
    · rw [Nat.min_eq_left hle]
      exact hx.boundary
    · rw [Nat.min_eq_right hle]
      exact hy.boundary

/-- The line at such a span is put together from what stands before the span and behind its start, both
in whole characters. -/
theorem splitBytes_eq (h : InText file cs x) :
    splitBytes x.start cs = some (spanBytes x.start cs) := by
  obtain ⟨front, back, rfl, hstart⟩ := h.boundary
  rw [hstart, splitBytes_append, spanBytes_append]

end InText

namespace Lexer

theorem piece_inText (file : Nat) {text : String} {p : Piece} (hp : p ∈ pieces text) :
    InText file text.toList (p.span file) := by
  obtain ⟨front, back, _, _, htext, hstart, -, -⟩ := cut_placed _ _ _ p hp
  refine ⟨rfl, Nat.le_add_right _ _, stop_le_of_mem_pieces hp, front, p.text ++ back, ?_, ?_⟩
  · rw [htext, List.append_assoc]
  · exact hstart.trans (Nat.zero_add _)

theorem token_inText {file : Nat} {text : String} {t : Token} (ht : t ∈ (lex file text).1) :
    InText file text.toList t.span := by
  rcases mem_lex.1 ht with ⟨p, hp, k, -, rfl⟩ | rfl
  · exact piece_inText file hp
  · exact ⟨rfl, Nat.le_refl _, Nat.le_refl _, text.toList, [], (List.append_nil _).symm, rfl⟩

theorem fault_inText {file : Nat} {text : String} {d : Diagnostic} (hd : d ∈ (lex file text).2) :
    InText file text.toList d.span := by
  rw [lex_eq_pieces] at hd
  obtain ⟨p, hp, hfault⟩ := List.mem_filterMap.1 hd
  obtain ⟨f, -, rfl⟩ := Option.map_eq_some_iff.1 hfault
  exact piece_inText file hp

end Lexer

namespace Syntax

theorem parse_within (file : Nat) (text : String) :
    (parse file text).1.Within (InText file text.toList) ∧
      ∀ d ∈ (parse file text).2, InText file text.toList d.span := by
  obtain ⟨hunits, hfaults⟩ := parseTokens_within (fun _ _ ha hb => InText.cover ha hb)
    (tokens_ne_nil file text) fun _ ht => Lexer.token_inText ht
  exact ⟨hunits, List.forall_mem_append.2 ⟨fun _ hd => Lexer.fault_inText hd, hfaults⟩⟩

/-! ### The end of the text -/

namespace Parse

/-- The state is at a place among `tokens`, and not behind them. -/
structure Among (tokens : List Token) (s : ParseState) : Prop where
  eq : s.passed.reverse ++ s.rest = tokens
  ne_nil : s.rest ≠ []

theorem reads_among {inner : List Token} {last : Token} (hlast : last.kind = .eof) :
    Reads (Among (inner ++ [last])) fun _ => True where
  pass s h := by
    unfold ParseState.advance
    split
    · exact h
    · rename_i t ts hrest
      split
      · exact h
      · rename_i hne
        have heq : s.passed.reverse ++ t :: ts = inner ++ [last] := hrest ▸ h.eq
        refine ⟨by simpa using heq, ?_⟩
        rintro rfl
        obtain ⟨-, hlast'⟩ := List.append_inj' heq rfl
        obtain rfl := List.singleton_inj.1 hlast'
        exact hne hlast
  report _ _ _ h _ := ⟨h.eq, h.ne_nil⟩
  here _ _ := trivial
  last _ _ := trivial
  cover _ _ _ _ := trivial

/-- The lists of the grammar are loops, each round of which passes a token. -/
structure ListsEnd : Prop where
  units : Loop (fun s => s.kind == .eof) unit Library.append {} units
  decls : Loop endsDecls (turn decl skipSentence) (fun ds more => ds.getD [] ++ more) [] decls
  concurrents : Loop endsConcurrents (concurrentTurn (concurrentOf concurrents))
    (fun c more => c.toList ++ more) [] concurrents
  block : Loop (fun s => endsBlock s.kind) (turn (stmtOf block) skipSentence)
    (fun s more => s.toList ++ more) [] block

/-- Reading units comes to the last token. -/
theorem units_ends {inner : List Token} {last : Token} (hinner : ∀ t ∈ inner, t.kind ≠ .eof)
    (hlast : last.kind = .eof) : ∃ l s, units (.init (inner ++ [last])) = (some l, s) ∧
      s.passed.reverse = inner ∧ s.rest = [last] := by
  obtain ⟨l, s, hrun, hend⟩ := units_loop.total unit_total (.init (inner ++ [last]))
  have hstart : Among (inner ++ [last]) (.init (inner ++ [last])) := ⟨rfl, by simp [ParseState.init]⟩
  have hamong : Among (inner ++ [last]) s := by
    have h := ((reads_among hlast).units _ hstart).1
    rwa [hrun] at h
  obtain ⟨t, ts, hrest⟩ := List.exists_cons_of_ne_nil hamong.ne_nil
  have ht : t.kind = .eof := by
    have h := beq_iff_eq.1 hend
    rwa [ParseState.kind, ParseState.kindAt, hrest] at h
  have heq : s.passed.reverse ++ t :: ts = inner ++ [last] := hrest ▸ hamong.eq
  rcases List.eq_nil_or_concat ts with rfl | ⟨ts, u, rfl⟩
  · obtain ⟨hpassed, hsingle⟩ := List.append_inj' heq rfl
    exact ⟨l, s, hrun, hpassed, hrest.trans hsingle⟩
  · -- a token before the last one has another kind
    rw [List.concat_eq_append, ← List.cons_append, ← List.append_assoc] at heq
    obtain ⟨hfront, -⟩ := List.append_inj' heq rfl
    exact absurd ht (hinner t (hfront ▸ List.mem_append_right _ List.mem_cons_self))

end Parse

/-- Reading a text ends at its last token, with rounds that each pass a token. Its faults, and those of
elaborating what was read, stand in the text or nowhere, so that a line can be quoted for them. -/
theorem parse_renderable (file : Nat) (text : String) :
    Parse.ListsEnd ∧
    (∃ s, Parse.units (.init (Lexer.lex file text).1) = (some (parse file text).1, s) ∧
      s.passed.reverse ++ [Lexer.eof file text] = (Lexer.lex file text).1 ∧
      s.rest = [Lexer.eof file text]) ∧
    (∀ d ∈ (parse file text).2, InText file text.toList d.span) ∧
    (∀ top overrides e, Design.elaborate (parse file text).1 top overrides = .error e →
      e.toDiagnostic.span = .nowhere ∨ InText file text.toList e.toDiagnostic.span) ∧
    ∀ x, InText file text.toList x →
      splitBytes x.start text.toList = some (spanBytes x.start text.toList) := by
  obtain ⟨hunits, hfaults⟩ := parse_within file text
  refine ⟨⟨Parse.units_loop, Parse.decls_loop, Parse.concurrents_loop, Parse.block_loop⟩, ?_, hfaults,
    fun top overrides e he => ?_, fun x hx => hx.splitBytes_eq⟩
  · obtain ⟨inner, hinner, hne⟩ := Lexer.lex_closed file text
    have hlast : (Lexer.eof file text).kind = .eof := rfl
    obtain ⟨l, s, hrun, hpassed, hrest⟩ := Parse.units_ends (fun t ht => (hne t ht).1) hlast
    rw [← hinner] at hrun
    have hl : (parse file text).1 = l := by
      show (parseTokens (Lexer.lex file text).1).1 = l
      rw [parseTokens, hrun]
      rfl
    exact ⟨s, hl ▸ hrun, by rw [hpassed, hinner], hrest⟩
  · exact ((Design.elaborate_fails hunits top overrides).2 e he).symm

end Syntax

end HdlLint
