import HdlLint.Source

/-! # Tokens

The words and signs a design text is made of. -/

namespace HdlLint

/-- The reserved words. -/
inductive Keyword where
  | kwAbs | kwAfter | kwAll | kwAnd | kwArchitecture | kwBegin | kwBuffer | kwCase | kwComponent
  | kwConstant | kwDownto | kwElse | kwElsif | kwEnd | kwEntity | kwFor | kwGenerate | kwGeneric
  | kwIf | kwIn | kwInout | kwIs | kwLibrary | kwMap | kwMod | kwNand | kwNor | kwNot | kwNull
  | kwOf | kwOpen | kwOr | kwOthers | kwOut | kwPackage | kwPort | kwProcess | kwRange | kwRem
  | kwSelect | kwSignal | kwSll | kwSrl | kwThen | kwTo | kwType | kwUse | kwVariable | kwWait
  | kwWhen | kwWith | kwXnor | kwXor
  deriving DecidableEq, Repr, Inhabited

namespace Keyword

/-- Every reserved word, in alphabetical order. -/
def all : List Keyword :=
  [.kwAbs, .kwAfter, .kwAll, .kwAnd, .kwArchitecture, .kwBegin, .kwBuffer, .kwCase, .kwComponent,
    .kwConstant, .kwDownto, .kwElse, .kwElsif, .kwEnd, .kwEntity, .kwFor, .kwGenerate, .kwGeneric,
    .kwIf, .kwIn, .kwInout, .kwIs, .kwLibrary, .kwMap, .kwMod, .kwNand, .kwNor, .kwNot, .kwNull,
    .kwOf, .kwOpen, .kwOr, .kwOthers, .kwOut, .kwPackage, .kwPort, .kwProcess, .kwRange, .kwRem,
    .kwSelect, .kwSignal, .kwSll, .kwSrl, .kwThen, .kwTo, .kwType, .kwUse, .kwVariable, .kwWait,
    .kwWhen, .kwWith, .kwXnor, .kwXor]

def spelling : Keyword → String
  | .kwAbs => "abs" | .kwAfter => "after" | .kwAll => "all" | .kwAnd => "and"
  | .kwArchitecture => "architecture" | .kwBegin => "begin" | .kwBuffer => "buffer"
  | .kwCase => "case" | .kwComponent => "component" | .kwConstant => "constant"
  | .kwDownto => "downto" | .kwElse => "else" | .kwElsif => "elsif" | .kwEnd => "end"
  | .kwEntity => "entity" | .kwFor => "for" | .kwGenerate => "generate" | .kwGeneric => "generic"
  | .kwIf => "if" | .kwIn => "in" | .kwInout => "inout" | .kwIs => "is" | .kwLibrary => "library"
  | .kwMap => "map" | .kwMod => "mod" | .kwNand => "nand" | .kwNor => "nor" | .kwNot => "not"
  | .kwNull => "null" | .kwOf => "of" | .kwOpen => "open" | .kwOr => "or" | .kwOthers => "others"
  | .kwOut => "out" | .kwPackage => "package" | .kwPort => "port" | .kwProcess => "process"
  | .kwRange => "range" | .kwRem => "rem" | .kwSelect => "select" | .kwSignal => "signal"
  | .kwSll => "sll" | .kwSrl => "srl" | .kwThen => "then" | .kwTo => "to" | .kwType => "type"
  | .kwUse => "use" | .kwVariable => "variable" | .kwWait => "wait" | .kwWhen => "when"
  | .kwWith => "with" | .kwXnor => "xnor" | .kwXor => "xor"

/-- The reserved word with the given spelling in small letters. -/
def ofSpelling? (word : String) : Option Keyword :=
  all.find? fun k => k.spelling == word

end Keyword

/-- Signs made of punctuation. -/
inductive Symbol where
  | leftParen | rightParen | comma | semicolon | colon | dot | tick | bar
  | varAssign | lessEquals | arrow | equals | slashEquals | lessThan | greaterThan | greaterEquals
  | plus | minus | ampersand | star | doubleStar | slash
  deriving DecidableEq, Repr, Inhabited

/-- What a token is. -/
inductive TokenKind where
  | keyword (word : Keyword)
  | identifier
  | intLiteral
  | realLiteral
  | charLiteral
  | stringLiteral
  | bitStringLiteral
  | symbol (sign : Symbol)
  | invalid
  | eof
  deriving DecidableEq, Repr, Inhabited

namespace TokenKind

/-- How a message names a token of this kind. -/
def describe : TokenKind → String
  | .keyword _ => "keyword"
  | .identifier => "identifier"
  | .intLiteral => "integer literal"
  | .realLiteral => "real literal"
  | .charLiteral => "character literal"
  | .stringLiteral => "string literal"
  | .bitStringLiteral => "bit-string literal"
  | .symbol .leftParen => "`(`"
  | .symbol .rightParen => "`)`"
  | .symbol .comma => "`,`"
  | .symbol .semicolon => "`;`"
  | .symbol .colon => "`:`"
  | .symbol .dot => "`.`"
  | .symbol .tick => "`'`"
  | .symbol .bar => "`|`"
  | .symbol .varAssign => "`:=`"
  | .symbol .lessEquals => "`<=`"
  | .symbol .arrow => "`=>`"
  | .symbol _ => "operator"
  | .invalid => "invalid character"
  | .eof => "end of file"

/-- Names and reserved words are quoted in messages as they were written. -/
def isWord : TokenKind → Bool
  | .keyword _ => true
  | .identifier => true
  | _ => false

def isKeyword : TokenKind → Bool
  | .keyword _ => true
  | _ => false

end TokenKind

/-- A token as it was written, with its place. -/
structure Token where
  kind : TokenKind
  text : String
  span : Span
  deriving DecidableEq, Repr, Inhabited

end HdlLint
