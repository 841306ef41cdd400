import HdlLint.Proofs.Grouping
import HdlLint.Proofs.PathTexts

/-!
# What a fingerprint tells

`Finding.fingerprint_exact`: the streams of findings, of which their fingerprints are digests, are equal
exactly if the findings agree in all that is written. How many notes there are is not written, but each
note takes some bytes, so the notes end where the stream does (`Fingerprint.flatMap_field_inj`). Lengths
and offsets are written as words of eight bytes, and `Finding.Fits` says no more than that they are words.

Of its origin a finding has only the text in its stream: words with colons between them. The text tells
the words if the names hold no colon (`FindingOrigin.splitOn_text`), and the words tell the origin.
-/

namespace HdlLint

/-! ### The texts of origins -/

namespace FindingOrigin
variable {o p : FindingOrigin}

def names : FindingOrigin → List String
  | .process e a _ | .architecture e a => [e, a]

/-- No name is taken for two words of the text. -/
def Plain (o : FindingOrigin) : Prop := ∀ name ∈ o.names, ':' ∉ name.toList

instance (o : FindingOrigin) : Decidable o.Plain :=
  inferInstanceAs (Decidable (∀ name ∈ o.names, ':' ∉ name.toList))

/-- What stands between the colons of the text. -/
def words : FindingOrigin → List String
  | .process e a n => ["process", e, a, toString n]
  | .architecture e a => ["architecture", e, a]

theorem toList_text (o : FindingOrigin) :
    o.text.toList = [':'].intercalate (o.words.map String.toList) := by
  cases o <;> simp [text, words, List.intercalate, String.toList_append]

theorem colon_notMem_words (h : o.Plain) : ∀ w ∈ o.words, ':' ∉ w.toList := by
  cases o with
  | process e a n =>
    obtain ⟨he, ha⟩ : ':' ∉ e.toList ∧ ':' ∉ a.toList := by simpa [Plain, names] using h
    have hdigits : ':' ∉ (toString n).toList := fun hmem =>
      absurd (Ascii.isDigit_of_mem_repr hmem) (by decide)
    exact List.forall_mem_cons.2 ⟨by decide, List.forall_mem_cons.2 ⟨he, List.forall_mem_cons.2 ⟨ha,
      List.forall_mem_singleton.2 hdigits⟩⟩⟩
  | architecture e a => exact List.forall_mem_cons.2 ⟨by decide, h⟩

theorem splitOn_text (h : o.Plain) : o.text.toList.splitOn ':' = o.words.map String.toList := by
  have hne : o.words ≠ [] := by cases o <;> exact List.cons_ne_nil _ _
  rw [toList_text]
  exact List.splitOn_intercalate ':' (by simpa using colon_notMem_words h) (by simpa using hne)

theorem words_inj (h : o.words = p.words) : o = p := by
  cases o with
  | process e a m =>
    cases p with
    | process e' a' n =>
      obtain ⟨rfl, rfl, hdigits⟩ : e = e' ∧ a = a' ∧ m.repr = n.repr := by simpa [words] using h
      rw [Ascii.eq_of_repr (congrArg String.toList hdigits)]
    | architecture e' a' => simp [words] at h
  | architecture e a =>
    cases p with
    | process e' a' n => simp [words] at h
    | architecture e' a' => simpa [words] using h

theorem text_inj (ho : o.Plain) (hp : p.Plain) (h : o.text = p.text) : o = p := by
  have hwords : o.words.map String.toList = p.words.map String.toList := by
    rw [← splitOn_text ho, h, splitOn_text hp]
  exact words_inj (List.map_injective_iff.2 (fun _ _ => String.toList_injective) hwords)

theorem text_process_ne (e a : String) (n : Nat) (e' a' : String) :
    (process e a n).text ≠ (architecture e' a').text := by
  intro h
  have hfirst := congrArg (·.toList.head?) h
  simp [text, String.toList_append] at hfirst

end FindingOrigin

/-! ### Streams -/

namespace Finding

/-- Findings have one stream exactly if they agree in all but the top unit and the path, and of their
origins in the texts. Where names hold no colon the text tells the origin; whether it is a process or an
architecture the text tells in any case. -/
theorem fingerprint_exact :
    (∀ f g : Finding, f.Fits → g.Fits → (f.stream = g.stream ↔
      f.rule = g.rule ∧ f.severity = g.severity ∧ f.origin.text = g.origin.text ∧
        f.subject = g.subject ∧ f.message = g.message ∧ f.span = g.span ∧ f.notes = g.notes)) ∧
    (∀ o p : FindingOrigin, o.Plain → p.Plain → (o.text = p.text ↔ o = p)) ∧
    ∀ (e a : String) (n : Nat) (e' a' : String),
      (FindingOrigin.process e a n).text ≠ (FindingOrigin.architecture e' a').text := by
  refine ⟨fun f g hf hg => stream_eq_iff hf hg, fun o p ho hp => ?_, FindingOrigin.text_process_ne⟩
  exact ⟨FindingOrigin.text_inj ho hp, congrArg FindingOrigin.text⟩

/-- A latch of a process, with notes. -/
def latchNoted (ordinal : Nat) (notes : List String) : Finding :=
  { rule := .latchInferred, severity := .error, top := "pair", path := [.inst "u0"],
    origin := .process "half" "rtl" ordinal, subject := "y",
    message := "signal `y` is not always assigned", span := ⟨0, 40, 52⟩, notes }

/-- Two empty notes and one note of eight zero bytes are written with as many bytes. -/
theorem fingerprint_exact_latchNoted :
    let f := latchNoted 0 ["", ""]
    let g := latchNoted 0 ["\x00\x00\x00\x00\x00\x00\x00\x00"]
    let h := latchNoted 1 ["", ""]
    (f.Fits ∧ g.Fits ∧ f.stream ≠ g.stream) ∧
    f.origin.Plain ∧ h.origin.Plain ∧ f.origin.text ≠ h.origin.text := by
  intro f g h
  have hf : f.Fits := by constructor <;> decide
  have hg : g.Fits := by constructor <;> decide
  have hplain : f.origin.Plain ∧ h.origin.Plain := by decide
  refine ⟨⟨hf, hg, fun heq => ?_⟩, hplain.1, hplain.2, fun heq => ?_⟩
  · obtain ⟨-, -, -, -, -, -, hnotes⟩ := (fingerprint_exact.1 f g hf hg).1 heq
    exact absurd hnotes (by decide)
  · have horigin := (fingerprint_exact.2.1 f.origin h.origin hplain.1 hplain.2).1 heq
    exact absurd horigin (by decide)

-- eight bytes do not tell greater numbers, and with colons two pairs of names have one text
example : Fingerprint.number (Nat.pow 256 8) = Fingerprint.number 0 := by decide
example : (FindingOrigin.architecture "a:b" "c").text = (FindingOrigin.architecture "a" "b:c").text := by
  decide

end Finding

end HdlLint
