import HdlLint.Workspace
import HdlLint.Proofs.Lexing
import HdlLint.Proofs.ReadUnits

/-!
# Where instances are asked for

The tokens of a text are all placed in the file they were read from, and so is what is read from them.
So every instance of a library that was read from files is asked for in one of these files
(`Workspace.ofFiles_placed`), and none nowhere.
-/

namespace HdlLint.Syntax

/-- All instances are asked for at a span with `P`. -/
def Placed (P : Span → Prop) (cs : List Concurrent) : Prop :=
  ∀ i ∈ instantiations cs, P i.span

def Library.Placed (P : Span → Prop) (l : Library) : Prop :=
  ∀ a ∈ l.architectures, Syntax.Placed P a.body

namespace Library
variable {P Q : Span → Prop} {a b l : Library}

theorem Within.placed (h : l.Within P) : l.Placed P :=
  fun a ha i hi => ((h.architectures a ha).body.instantiations i hi).span

theorem Placed.append (ha : a.Placed P) (hb : b.Placed P) : (a.append b).Placed P :=
  List.forall_mem_append.2 ⟨ha, hb⟩

theorem Placed.mono (h : l.Placed P) (hPQ : ∀ s, P s → Q s) : l.Placed Q :=
  fun a ha i hi => hPQ _ (h a ha i hi)

end Library

theorem file_of_mem_lex {f : Nat} {text : String} {t : Token} (h : t ∈ (Lexer.lex f text).1) :
    t.span.file = f := by
  rcases Lexer.mem_lex.1 h with ⟨p, -, k, -, rfl⟩ | rfl
  · rfl
  · rfl

theorem tokens_ne_nil (f : Nat) (text : String) : (Lexer.lex f text).1 ≠ [] := by
  obtain ⟨inner, htokens, -⟩ := Lexer.lex_closed f text
  rw [htokens]
  exact List.append_ne_nil_of_right_ne_nil _ (List.cons_ne_nil _ _)

theorem file_cover (a b : Span) : (a.cover b).file = a.file := by
  unfold Span.cover
  split <;> rfl

theorem parse_placed (f : Nat) (text : String) : (parse f text).1.Placed (·.file = f) := by
  have hcover : ∀ a b : Span, a.file = f → b.file = f → (a.cover b).file = f :=
    fun a b ha _ => (file_cover a b).trans ha
  exact (parseTokens_within hcover (tokens_ne_nil f text) fun _ => file_of_mem_lex).1.placed

end HdlLint.Syntax

namespace HdlLint.Workspace
open Syntax

/-- The instances of the library are asked for in files that have been read. -/
def Placed (w : Workspace) : Prop := w.library.Placed (·.file < w.sources.files.size)

theorem size_files_add (w : Workspace) (name text : String) :
    (w.add name text).sources.files.size = w.sources.files.size + 1 :=
  Array.size_push _

theorem Placed.add {w : Workspace} (h : w.Placed) (name text : String) : (w.add name text).Placed := by
  unfold Placed
  rw [size_files_add]
  refine Library.Placed.append (h.mono fun s hs => Nat.lt_succ_of_lt hs) ?_
  exact (parse_placed _ text).mono fun s hs => hs ▸ Nat.lt_succ_self _

theorem foldl_add_placed {w : Workspace} (h : w.Placed) (files : List (String × String)) :
    (files.foldl (fun w file => w.add file.1 file.2) w).Placed ∧
      (files.foldl (fun w file => w.add file.1 file.2) w).sources.files.size =
        w.sources.files.size + files.length := by
  induction files generalizing w with
  | nil => exact ⟨h, rfl⟩
  | cons file files ih =>
    obtain ⟨hplaced, hsize⟩ := ih (h.add file.1 file.2)
    refine ⟨hplaced, ?_⟩
    rw [List.foldl_cons, hsize, size_files_add, List.length_cons]
    omega

/-- Every instance of a library that was read from files is asked for in one of them. -/
theorem ofFiles_placed (files : List (String × String)) :
    (ofFiles files).library.Placed (·.file < files.length) := by
  have hstart : ({} : Workspace).Placed := nofun
  obtain ⟨hplaced, hsize⟩ := foldl_add_placed hstart files
  refine Library.Placed.mono hplaced fun s hs => ?_
  exact hsize.trans (Nat.zero_add _) ▸ hs

end HdlLint.Workspace
