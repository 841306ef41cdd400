import HdlLint.Diagnostic
import HdlLint.Syntax.Expr

/-! # Faults of a design

A fault ends the elaboration of the top unit in which it is found, and of that unit only. -/

namespace HdlLint.Design

/-- Why a constant has no value. -/
inductive EvalFault where
  | overflow
  | divisionByZero
  | exponent
  | unaryKind (op : Syntax.UnaryOp) (kind : String)
  | binaryKind (op : Syntax.BinaryOp) (left right : String)
  | boundKind (kind : String)
  | tooWide (elements : Int)
  deriving DecidableEq, Repr, Inhabited

namespace EvalFault

def message : EvalFault → String
  | .overflow => "integer overflow"
  | .divisionByZero => "division by zero"
  | .exponent => "negative or huge exponent"
  | .unaryKind op kind => "operator `" ++ op.spelling ++ "` cannot be applied to " ++ kind
  | .binaryKind op left right =>
    "operator `" ++ op.spelling ++ "` cannot be applied to " ++ left ++ " and " ++ right
  | .boundKind kind => "range bound is " ++ kind ++ ", expected an integer"
  | .tooWide n => "range of " ++ toString n ++ " elements is too wide"

end EvalFault

/-- What an instance can have too many of. -/
inductive Formals where
  | generic | port
  deriving DecidableEq, Repr, Inhabited

namespace Formals

def word : Formals → String
  | .generic => "generic"
  | .port => "port"

end Formals

/-- Why a design cannot be elaborated. -/
inductive DesignError where
  | unknownUnit (name : String) (span : Span)
  | noArchitecture (entity : String) (span : Span)
  | unknownArchitecture (entity architecture : String) (span : Span)
  | unresolved (name : String) (span : Span)
  | notSignal (name : String) (span : Span)
  | unresolvedGeneric (name : String) (span : Span)
  | unknownGeneric (entity name : String) (span : Span)
  | missingGeneric (entity name : String) (span : Span)
  | genericType (name expected found : String) (span : Span)
  | generateBound (label found : String) (span : Span)
  | topNotFound (name : String)
  | cycle (units : List String) (span : Span)
  | unknownPort (entity name : String) (span : Span)
  | tooManyAssociations (entity : String) (what : Formals) (span : Span)
  | notConstant (name : String) (span : Span)
  | constant (fault : EvalFault) (span : Span)
  deriving DecidableEq, Repr, Inhabited

namespace DesignError

def code : DesignError → Code
  | .unknownUnit .. => .error 200
  | .noArchitecture .. | .unknownArchitecture .. => .error 201
  | .unresolved .. | .notSignal .. => .error 202
  | .unresolvedGeneric .. | .unknownGeneric .. | .missingGeneric .. => .error 203
  | .genericType .. => .error 204
  | .generateBound .. => .error 205
  | .topNotFound .. => .error 206
  | .cycle .. => .error 207
  | .unknownPort .. | .tooManyAssociations .. => .error 208
  | .notConstant .. => .error 209
  | .constant .. => .error 210

def span : DesignError → Span
  | .unknownUnit _ s | .noArchitecture _ s | .unknownArchitecture _ _ s | .unresolved _ s
  | .notSignal _ s | .unresolvedGeneric _ s | .unknownGeneric _ _ s | .missingGeneric _ _ s
  | .genericType _ _ _ s | .generateBound _ _ s | .cycle _ s | .unknownPort _ _ s
  | .tooManyAssociations _ _ s | .notConstant _ s | .constant _ s => s
  | .topNotFound _ => .nowhere

def message : DesignError → String
  | .unknownUnit name _ => s!"unknown design unit `{name}`"
  | .noArchitecture entity _ => s!"entity `{entity}` has no architecture"
  | .unknownArchitecture entity architecture _ =>
    s!"entity `{entity}` has no architecture `{architecture}`"
  | .unresolved name _ => s!"unresolved reference `{name}`"
  | .notSignal name _ => s!"`{name}` is not a signal"
  | .unresolvedGeneric name _ => s!"unresolved generic reference `{name}`"
  | .unknownGeneric entity name _ => s!"entity `{entity}` has no generic `{name}`"
  | .missingGeneric entity name _ => s!"generic `{name}` of `{entity}` has no value"
  | .genericType name expected found _ =>
    s!"generic `{name}` of type {expected} cannot take the value {found}"
  | .generateBound label found _ => s!"bound of generate `{label}` is not an integer ({found})"
  | .topNotFound name => s!"top unit `{name}` not found"
  | .cycle units _ => "instantiation cycle: " ++ " -> ".intercalate units
  | .unknownPort entity name _ => s!"entity `{entity}` has no port `{name}`"
  | .tooManyAssociations entity what _ =>
    "too many " ++ what.word ++ " associations for `" ++ entity ++ "`"
  | .notConstant name _ => s!"`{name}` is not a constant"
  | .constant fault _ => "cannot evaluate constant: " ++ fault.message

def notes : DesignError → List String
  | .cycle .. => ["a unit may not instantiate itself, directly or indirectly"]
  | _ => []

def help : DesignError → List String
  | .topNotFound _ => ["set `project.top` in rtlint.toml or pass `--top`"]
  | .missingGeneric .. => ["add a default, a generic map entry, or a [generics.<top>] override"]
  | _ => []

def toDiagnostic (e : DesignError) : Diagnostic :=
  { severity := .error, code := e.code, message := e.message, span := e.span,
    notes := e.notes, help := e.help }

end DesignError

/-- A step of elaboration. -/
abbrev Result := Except DesignError

end HdlLint.Design
