import HdlLint.Token.Lexer
import HdlLint.Syntax.Parse.Stmt

/-! # Reading design units -/

namespace HdlLint.Syntax

namespace Parse

/-- An entity: `entity e is [generic (…);] [port (…);] end [entity] [e];`. -/
def entity : Parse Entity := do
  let start ← expectWord .kwEntity
  let n ← name
  let _ ← expectWord .kwIs
  let gs ← if ← atWord .kwGeneric then generics else pure []
  let ps ← if ← atWord .kwPort then ports else pure []
  if ← atWord .kwBegin then
    unsupported "entity statement part"
  let _ ← expectWord .kwEnd
  finishEnd .kwEntity
  return ⟨n, gs, ps, start.cover (← lastSpan)⟩

/-- An architecture: `architecture a of e is … begin … end [architecture] [a];`. -/
def architecture : Parse Architecture := do
  let start ← expectWord .kwArchitecture
  let n ← name
  let _ ← expectWord .kwOf
  let e ← name
  let _ ← expectWord .kwIs
  let ds ← decls
  let _ ← expectWord .kwBegin
  let body ← concurrents
  let _ ← expectWord .kwEnd
  finishEnd .kwArchitecture
  return ⟨n, e, ds, body, start.cover (← lastSpan)⟩

/-- One unit, as a library of its own. A faulty unit is skipped and gives none, and so does a
clause between units. -/
def unit : Parse Library := do
  match ← kind with
  | .keyword .kwLibrary | .keyword .kwUse =>
    skipSentence
    return {}
  | .keyword .kwEntity =>
    match ← attempt entity with
    | some e => return { entities := [e] }
    | none =>
      skipToUnit
      return {}
  | .keyword .kwArchitecture =>
    match ← attempt architecture with
    | some a => return { architectures := [a] }
    | none =>
      skipToUnit
      return {}
  | .keyword .kwPackage =>
    let _ ← attempt (unsupported "package declaration" : Parse Unit)
    skipToUnit
    return {}
  | _ =>
    let _ ← attempt (expected "design unit" : Parse Unit)
    skipToUnit
    return {}

def unitsAt : Nat → Parse Library
  | 0 => return {}
  | n + 1 => do
    if (← kind) == .eof then
      return {}
    else
      let l ← unit
      return l.append (← unitsAt n)

/-- All units of a text. -/
def units : Parse Library := fueled unitsAt

end Parse

/-- The units that a list of tokens forms, and the faults found while reading them. -/
def parseTokens (tokens : List Token) : Library × List Diagnostic :=
  match Parse.units (.init tokens) with
  | (units, s) => (units.getD {}, s.reported.reverse)

/-- The units of a text, and all its faults, first those of its characters. -/
def parse (file : Nat) (text : String) : Library × List Diagnostic :=
  let (tokens, lexical) := Lexer.lex file text
  let (library, grammatical) := parseTokens tokens
  (library, lexical ++ grammatical)

end HdlLint.Syntax
