import Mathlib.Data.String.Basic
import HdlLint.Text.Ascii
import HdlLint.Proofs.Comparison

/-!
# The texts of paths

A path is written with dots between its segments, and a segment as a label, behind which the index of a
round stands in parentheses. `Path.text_inj`: the text tells the path, if no label holds a dot or an
opening parenthesis and none is empty. Words of letters, digits and underscores are such labels.
-/

namespace HdlLint

theorem Ascii.isDigit_of_mem_repr {n : Nat} {c : Char} (h : c ∈ n.repr.toList) : c.isDigit = true := by
  rw [Nat.toList_repr] at h
  exact Nat.isDigit_of_mem_toDigits (by decide) (by decide) h

theorem Ascii.eq_of_repr {m n : Nat} (h : m.repr.toList = n.repr.toList) : m = n := by
  have hread : ∀ k : Nat, Nat.ofDigitChars 10 k.repr.toList 0 = k := fun k => by
    rw [Nat.toList_repr, Nat.ofDigitChars_toDigits (by decide) (by decide)]
  rw [← hread m, h, hread]

/-- The digits of a number and its sign tell it. -/
theorem Ascii.eq_of_toString {i j : Int} (h : (toString i).toList = (toString j).toList) : i = j := by
  -- a sign is no digit
  have hsign : ∀ m n : Nat, m.repr.toList ≠ ("-" ++ n.repr).toList := fun m n hmn => by
    have hminus : '-' ∈ m.repr.toList := by
      rw [hmn, String.toList_append]
      exact List.mem_append_left _ (by decide)
    exact absurd (Ascii.isDigit_of_mem_repr hminus) (by decide)
  rw [Int.toString_eq_repr, Int.toString_eq_repr, Int.repr_eq_if, Int.repr_eq_if] at h
  split_ifs at h with hi hj hj
  · have heq := Ascii.eq_of_repr h
    omega
  · exact absurd h (hsign _ _)
  · exact absurd h.symm (hsign _ _)
  · rw [String.toList_append, String.toList_append] at h
    have heq := Ascii.eq_of_repr (List.append_cancel_left h)
    omega

namespace Design

/-- A label that is not taken for anything else in the text of a path. -/
def PlainLabel (label : String) : Prop := label ≠ "" ∧ ∀ c ∈ label.toList, c ≠ '.' ∧ c ≠ '('

theorem plainLabel_of_word {label : String} (hne : label ≠ "")
    (h : ∀ c ∈ label.toList, Ascii.isWordRest c = true) : PlainLabel label := by
  refine ⟨hne, fun c hc => ⟨?_, ?_⟩⟩
  · rintro rfl
    exact absurd (h _ hc) (by decide)
  · rintro rfl
    exact absurd (h _ hc) (by decide)

/-- All labels of the path are plain. -/
def Path.Plain (p : Path) : Prop := ∀ s ∈ p, PlainLabel s.label

/-! ### Segments -/

namespace Segment
variable {s t : Segment}

/-- What stands behind the label. -/
def suffix : Segment → List Char
  | .inst _ => []
  | .generate _ index => '(' :: (toString index).toList ++ [')']

theorem toList_text (s : Segment) : s.text.toList = s.label.toList ++ s.suffix := by
  cases s with
  | inst label => exact (List.append_nil _).symm
  | generate label index => simp [text, Segment.label, suffix, String.toList_append]

theorem takeWhile_text (h : PlainLabel s.label) :
    s.text.toList.takeWhile (· != '(') = s.label.toList := by
  have hsuffix : s.suffix.takeWhile (· != '(') = [] := by cases s <;> rfl
  rw [toList_text, List.takeWhile_append_of_pos, hsuffix, List.append_nil]
  exact fun c hc => bne_iff_ne.2 (h.2 c hc).2

theorem suffix_inj (hlabel : s.label = t.label) (hsuffix : s.suffix = t.suffix) : s = t := by
  cases s with
  | inst a =>
    cases t with
    | inst b => exact congrArg _ hlabel
    | generate b j => cases hsuffix
  | generate a i =>
    cases t with
    | inst b => cases hsuffix
    | generate b j =>
      have hindex : (toString i).toList = (toString j).toList :=
        List.append_cancel_right (List.cons.inj hsuffix).2
      rw [Ascii.eq_of_toString hindex]
      exact congrArg (generate · j) hlabel

theorem text_inj (hs : PlainLabel s.label) (ht : PlainLabel t.label) (h : s.text = t.text) : s = t := by
  have hlabel : s.label.toList = t.label.toList := by rw [← takeWhile_text hs, h, takeWhile_text ht]
  have hsuffix := congrArg String.toList h
  rw [toList_text, toList_text, hlabel] at hsuffix
  exact suffix_inj (String.toList_inj.1 hlabel) (List.append_cancel_left hsuffix)

theorem dot_notMem_toString (i : Int) : '.' ∉ (toString i).toList := by
  have hdigits : ∀ n : Nat, '.' ∉ n.repr.toList := fun n hn =>
    absurd (Ascii.isDigit_of_mem_repr hn) (by decide)
  rw [Int.toString_eq_repr, Int.repr_eq_if]
  split_ifs
  · exact hdigits _
  · rw [String.toList_append, List.mem_append]
    rintro (h | h)
    · exact absurd h (by decide)
    · exact hdigits _ h

theorem dot_notMem_text (h : PlainLabel s.label) : '.' ∉ s.text.toList := by
  rw [toList_text, List.mem_append]
  rintro (hdot | hdot)
  · exact (h.2 _ hdot).1 rfl
  · cases s with
    | inst label => cases hdot
    | generate label index =>
      simp only [suffix, List.mem_append, List.mem_cons] at hdot
      rcases hdot with (hdot | hdot) | hdot
      · exact absurd hdot (by decide)
      · exact dot_notMem_toString index hdot
      · exact absurd hdot (by decide)

theorem text_ne_nil (h : PlainLabel s.label) : s.text.toList ≠ [] := by
  intro hnil
  rw [toList_text, List.append_eq_nil_iff] at hnil
  exact h.1 (String.toList_eq_nil_iff.1 hnil.1)

end Segment

/-! ### Paths -/

namespace Path
variable {p q : Path}

theorem toList_text (p : Path) : p.text.toList = ['.'].intercalate (p.map (·.text.toList)) := by
  rw [text, String.toList_intercalate, List.map_map]
  rfl

theorem splitOn_text (hp : p.Plain) (hne : p ≠ []) :
    p.text.toList.splitOn '.' = p.map (·.text.toList) := by
  rw [toList_text]
  refine List.splitOn_intercalate '.' (fun t ht => ?_) (by simpa using hne)
  obtain ⟨s, hs, rfl⟩ := List.mem_map.1 ht
  exact Segment.dot_notMem_text (hp s hs)

theorem eq_of_map_text (hp : p.Plain) (hq : q.Plain)
    (h : p.map (·.text.toList) = q.map (·.text.toList)) : p = q := by
  induction p generalizing q with
  | nil => exact (List.map_eq_nil_iff.1 h.symm).symm
  | cons s p ih =>
    cases q with
    | nil => cases h
    | cons t q =>
      obtain ⟨hhead, htail⟩ := List.cons.inj h
      obtain ⟨hs, hp⟩ := List.forall_mem_cons.1 hp
      obtain ⟨ht, hq⟩ := List.forall_mem_cons.1 hq
      rw [Segment.text_inj hs ht (String.toList_inj.1 hhead), ih hp hq htail]

/-- Only the path of the top unit has no text. -/
theorem eq_nil_of_text (hp : p.Plain) (h : p.text.toList = []) : p = [] := by
  by_contra hne
  have hsplit := splitOn_text hp hne
  rw [h, List.splitOn_nil] at hsplit
  cases p with
  | nil => exact hne rfl
  | cons s p => exact Segment.text_ne_nil (hp s List.mem_cons_self) (List.cons.inj hsplit).1.symm

theorem text_inj (hp : p.Plain) (hq : q.Plain) (h : p.text = q.text) : p = q := by
  by_cases hpnil : p = []
  · subst hpnil
    exact (eq_nil_of_text hq (by rw [← h]; rfl)).symm
  · by_cases hqnil : q = []
    · subst hqnil
      exact eq_nil_of_text hp (by rw [h]; rfl)
    · refine eq_of_map_text hp hq ?_
      rw [← splitOn_text hp hpnil, h, splitOn_text hq hqnil]

end Path

end Design

end HdlLint
