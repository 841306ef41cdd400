import HdlLint.Rule
import HdlLint.Design.Path

/-! # Findings -/

namespace HdlLint

open Design (Path)

/-- The part of the text that a finding is about, whatever instance it was found in. -/
inductive FindingOrigin where
  | process (entity architecture : String) (ordinal : Nat)
  | architecture (entity architecture : String)
  deriving DecidableEq, Repr, Inhabited

namespace FindingOrigin

def text : FindingOrigin → String
  | .process e a n => "process:" ++ e ++ ":" ++ a ++ ":" ++ toString n
  | .architecture e a => "architecture:" ++ e ++ ":" ++ a

end FindingOrigin

/-- A breach of a rule in an instance. -/
structure Finding where
  rule : Rule
  severity : Severity
  top : String
  path : Path
  origin : FindingOrigin
  /-- The process or the signal that is to blame. -/
  subject : String
  message : String
  span : Span
  notes : List String := []
  deriving DecidableEq, Repr, Inhabited

/-! ### Fingerprints -/

/-- A digest of bytes. It may be shorter than they are, and so may not tell all of them apart. -/
abbrev Digest := List UInt8 → List UInt8

namespace Fingerprint

/-- A number as eight bytes, the lowest first. -/
def number (n : Nat) : List UInt8 :=
  (List.range 8).map fun i => (n / Nat.pow 256 i).toUInt8

/-- A text as its length in bytes, followed by the bytes. -/
def field (s : String) : List UInt8 :=
  number s.utf8ByteSize ++ s.toUTF8.toList

end Fingerprint

namespace Finding

open Fingerprint in
/-- All of a finding but its place in the hierarchy, as bytes. -/
def stream (f : Finding) : List UInt8 :=
  field f.rule.id ++ field f.severity.word ++ field f.origin.text ++ field f.subject ++
    field f.message ++ number f.span.file ++ number f.span.start ++ number f.span.stop ++
    f.notes.flatMap field

/-- Findings of one top unit with the same fingerprint are taken for the same finding, made in several
instances. -/
def fingerprint (digest : Digest) (f : Finding) : List UInt8 := digest f.stream

end Finding

end HdlLint
