import HdlLint.Syntax.Unit
import HdlLint.Syntax.Parse.Expr

/-! # Reading interfaces and declarations -/

namespace HdlLint.Syntax.Parse

/-- A type with its range: `mark`, `mark(range)` or `mark range range`. -/
def subtype : Parse Subtype := do
  let start ← span
  let mark ← name
  let bounds ←
    if ← eatSign .leftParen then
      let r ← range
      let _ ← expectSign .rightParen
      pure (some r)
    else do
      -- the word is only looked for where no parenthesis stands
      if ← eatWord .kwRange then pure (some (← range)) else pure none
  return ⟨mark, bounds, start.cover (← lastSpan)⟩

/-- An expression after `:=`, if one stands here. -/
def initial : Parse (Option Expr) := do
  if ← eatSign .varAssign then
    return some (← expr)
  else
    return none

/-- The type of a generic. -/
def genericType : Parse GenericType := do
  let s ← get
  match Ascii.lower s.text with
  | "integer" => advance; return .integer
  | "natural" => advance; return .natural
  | "positive" => advance; return .positive
  | "boolean" => advance; return .boolean
  | _ =>
    if s.kind == .identifier then
      unsupported ("generic type `" ++ s.text ++ "`")
    else
      expected "generic type"

/-- Generics declared together: `a, b : natural := 4`. A range after the type is not kept. -/
def genericGroup : Parse (List Generic) := do
  let _ ← eatWord .kwConstant
  let start ← span
  let ns ← names
  let _ ← expectSign .colon
  let type ← genericType
  if ← eatWord .kwRange then
    let _ ← range
  let default ← initial
  let whole := start.cover (← lastSpan)
  return ns.map fun n => ⟨n, type, default, whole⟩

/-- The direction of a port; a port without one is an input. -/
def mode : Parse Mode := do
  match ← kind with
  | .keyword .kwIn => advance; return .input
  | .keyword .kwOut => advance; return .output
  | .keyword .kwInout => advance; return .inout
  | .keyword .kwBuffer => advance; return .buffer
  | _ => return .input

/-- Ports declared together: `a, b : in std_logic`. A default is not kept. -/
def portGroup : Parse (List Port) := do
  let _ ← eatWord .kwSignal
  let start ← span
  let ns ← names
  let _ ← expectSign .colon
  let m ← mode
  let type ← subtype
  let _ ← initial
  let whole := start.cover (← lastSpan)
  return ns.map fun n => ⟨n, m, type, whole⟩

/-- An interface: a word, and groups in parentheses divided by `;`. -/
def interface {α : Type} (word : Keyword) (group : Parse (List α)) : Parse (List α) := do
  let _ ← expectWord word
  let _ ← expectSign .leftParen
  let groups ← separated .semicolon group
  let _ ← expectSign .rightParen
  let _ ← expectSign .semicolon
  return groups.flatten

def generics : Parse (List Generic) := interface .kwGeneric genericGroup

def ports : Parse (List Port) := interface .kwPort portGroup

/-- Signals declared together, after the word `signal`. -/
def signalDecl (start : Span) : Parse (List Decl) := do
  let ns ← names
  let _ ← expectSign .colon
  let type ← subtype
  let init ← initial
  let _ ← expectSign .semicolon
  let whole := start.cover (← lastSpan)
  return ns.map fun n => .signal n type init whole

/-- Constants declared together, after the word `constant`. -/
def constantDecl (start : Span) : Parse (List Decl) := do
  let ns ← names
  let _ ← expectSign .colon
  let type ← subtype
  let _ ← expectSign .varAssign
  let value ← expr
  let _ ← expectSign .semicolon
  let whole := start.cover (← lastSpan)
  return ns.map fun n => .constant n type value whole

/-- An enumeration, after the word `type`. -/
def enumerationDecl (start : Span) : Parse (List Decl) := do
  let n ← name
  let _ ← expectWord .kwIs
  if ← eatSign .leftParen then
    let literals ← names
    let _ ← expectSign .rightParen
    let _ ← expectSign .semicolon
    return [.enumeration n literals (start.cover (← lastSpan))]
  else
    unsupported "non-enumeration type declaration"

/-- One declaration. That of a component only repeats an entity and is passed over. -/
def decl : Parse (List Decl) := do
  let s ← get
  match s.kind with
  | .keyword .kwSignal => advance; signalDecl s.span
  | .keyword .kwConstant => advance; constantDecl s.span
  | .keyword .kwType => advance; enumerationDecl s.span
  | .keyword .kwComponent => skipPastEnd .kwComponent; return []
  | .keyword .kwVariable => unsupported "variable declaration"
  | _ => expected "declaration or `begin`"

def declsAt : Nat → Parse (List Decl)
  | 0 => return []
  | n + 1 => do
    let s ← get
    if s.kind == .keyword .kwBegin || s.kind == .eof then
      return []
    else
      match ← attempt decl with
      | some ds => return ds ++ (← declsAt n)
      | none =>
        skipSentence
        declsAt n

/-- The declarations up to `begin`. A faulty one is skipped. -/
def decls : Parse (List Decl) := fueled declsAt

end HdlLint.Syntax.Parse
