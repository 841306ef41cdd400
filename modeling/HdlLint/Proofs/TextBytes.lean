import Mathlib.Data.String.Basic
import Mathlib.Tactic.SplitIfs
import HdlLint.Proofs.Merging

/-!
# The bytes of a text

A text is kept as bytes, and offsets count them. The byte of a line feed stands for nothing else
(`lineFeed_mem_encodeChar`), so lines can be told by the bytes. Characters are encoded in such a way that
texts in the order of their characters are in the order of their bytes (`lt_iff_bytes_lt`).
-/

namespace HdlLint.Utf8

def bytes (s : String) : List UInt8 := s.toUTF8.toList

theorem bytes_eq_flatMap (s : String) : bytes s = s.toList.flatMap String.utf8EncodeChar := by
  have harray : s.toUTF8 = s.toList.utf8Encode := String.utf8Encode_toList.symm
  rw [bytes, harray, Fingerprint.bytes_eq, List.utf8Encode, List.toList_data_toByteArray]

theorem bytes_inj {s t : String} : bytes s = bytes t ↔ s = t := by
  rw [bytes, bytes, Fingerprint.bytes_eq, Fingerprint.bytes_eq, Array.toList_inj]
  exact ⟨fun h => String.toByteArray_inj.1 (ByteArray.ext h), fun h => h ▸ rfl⟩

/-! ### Line feeds -/

def lineFeed : UInt8 := 10

/-- Other characters have no byte in common with the line feed. -/
theorem lineFeed_mem_encodeChar {c : Char} : lineFeed ∈ String.utf8EncodeChar c ↔ c = '\n' := by
  refine ⟨fun h => ?_, fun h => h ▸ List.mem_singleton_self _⟩
  have hval : c.val.toNat = 10 := by
    simp only [String.utf8EncodeChar, lineFeed] at h
    split_ifs at h <;> simp only [List.mem_cons, List.not_mem_nil, ← UInt8.toNat_inj, UInt8.toNat_ofNat',
      UInt8.reduceToNat, or_false] at h <;> omega
  exact Char.ext (UInt32.toNat_inj.1 hval)

/-! ### Order -/

/-- Of two characters the smaller one has the smaller byte where their bytes first differ. -/
theorem encodeChar_lt {c d : Char} (h : c < d) (r s : List UInt8) :
    String.utf8EncodeChar c ++ r < String.utf8EncodeChar d ++ s := by
  have hval : c.val.toNat < d.val.toNat := h
  have hd : d.val.toNat < 1114112 := by
    rcases d.valid with hlow | ⟨-, hhigh⟩
    · exact Nat.lt_trans hlow (by decide)
    · exact hhigh
  -- a byte holds one digit of the number of the character to the base 64
  have hdigit : ∀ n : Nat, n / 4096 = n / 64 / 64 ∧ n / 262144 = n / 64 / 64 / 64 := by omega
  simp only [String.utf8EncodeChar, (hdigit _).1, (hdigit _).2]
  split_ifs <;>
    simp only [List.cons_append, List.nil_append, List.cons_lt_cons_iff, UInt8.lt_iff_toNat_lt,
      ← UInt8.toNat_inj, UInt8.toNat_ofNat'] <;> omega

theorem flatMap_encodeChar_lt {cs ds : List Char} (h : cs < ds) :
    cs.flatMap String.utf8EncodeChar < ds.flatMap String.utf8EncodeChar := by
  induction cs generalizing ds with
  | nil =>
    cases ds with
    | nil => exact absurd h (List.not_lt_nil _)
    | cons d ds =>
      have hne : (d :: ds).flatMap String.utf8EncodeChar ≠ [] := by
        simp [String.utf8EncodeChar_ne_nil]
      obtain ⟨b, bs, hbs⟩ := List.exists_cons_of_ne_nil hne
      rw [hbs]
      exact List.nil_lt_cons b bs
  | cons c cs ih =>
    cases ds with
    | nil => exact absurd h (List.not_lt_nil _)
    | cons d ds =>
      rw [List.flatMap_cons, List.flatMap_cons]
      rcases List.cons_lt_cons_iff.1 h with hlt | ⟨rfl, hlt⟩
      · exact encodeChar_lt hlt _ _
      · exact List.append_left_lt (ih hlt)

theorem bytes_lt_of_lt {s t : String} (h : s < t) : bytes s < bytes t := by
  rw [bytes_eq_flatMap, bytes_eq_flatMap]
  exact flatMap_encodeChar_lt (String.lt_iff_toList_lt.1 h)

theorem lt_iff_bytes_lt {s t : String} : s < t ↔ bytes s < bytes t := by
  refine ⟨bytes_lt_of_lt, fun h => ?_⟩
  rcases lt_trichotomy s t with hlt | rfl | hgt
  · exact hlt
  · exact absurd h (List.lt_irrefl _)
  · exact absurd h (List.lt_asymm (bytes_lt_of_lt hgt))

end HdlLint.Utf8
