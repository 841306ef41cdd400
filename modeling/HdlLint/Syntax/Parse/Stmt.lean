import HdlLint.Syntax.Parse.Decl

/-! # Reading statements

An assignment outside of processes stands for a process that is sensitive to all signals, and an
assignment with conditions or choices for an `if` or a `case` of plain assignments. -/

namespace HdlLint.Syntax.Parse

/-- The left side of an assignment: `name`, `name(index)` or `name(range)`. -/
def target : Parse Target := do
  let i ← ident
  if ← eatSign .leftParen then
    let first ← expr
    let selector ←
      if ← atDirection then
        pure (Selector.slice (← rangeAfter expr first))
      else
        pure (Selector.index first)
    let _ ← expectSign .rightParen
    return ⟨i, some selector⟩
  else
    return ⟨i, none⟩

/-- A delay does not change what is read or written, and is passed over. -/
def skipDelay : Parse Unit := do
  if ← eatWord .kwAfter then
    skipUntil fun s => s.kind == .symbol .semicolon || s.kind == .keyword .kwWhen ||
      s.kind == .keyword .kwElse || s.kind == .symbol .comma

/-- A value with the span of all that belongs to it. -/
def delayedValue : Parse (Expr × Span) := do
  let start ← span
  let value ← expr
  skipDelay
  return (value, start.cover (← lastSpan))

/-- Values with conditions: `a when c else b when d else e`, where `a` was read. The last value may
stand without a condition. -/
def alternativesAt (target : Target) : Nat → Expr × Span → Parse (List Branch × Option (List Stmt))
  | 0, _ => return ([], none)
  | n + 1, (value, whole) => do
    if ← eatWord .kwWhen then
      let condition ← expr
      let branch : Branch := ⟨condition, [.assign target value whole]⟩
      if ← eatWord .kwElse then
        let (branches, otherwise) ← alternativesAt target n (← delayedValue)
        return (branch :: branches, otherwise)
      else
        return ([branch], none)
    else
      return ([], some [.assign target value whole])

/-- What follows the `<=` of an assignment. -/
def assignAfter (target : Target) (start : Span) : Parse Stmt := do
  let (value, whole) ← delayedValue
  if ← atWord .kwWhen then
    let (branches, otherwise) ← fueled fun n => alternativesAt target n (value, whole)
    let _ ← expectSign .semicolon
    return .ifs branches otherwise (start.cover (← lastSpan))
  else
    let _ ← expectSign .semicolon
    return .assign target value (start.cover (← lastSpan))

/-- A choice of a case, which is neither a range nor mixed with `others`. -/
def choice : Parse Expr := do
  let e ← expr
  if ← atDirection then
    unsupported "range choice"
  else if ← atWord .kwOthers then
    unsupported "`others` mixed with other choices"
  else
    return e

/-- Choices divided by bars. -/
def choices : Parse (List Expr) := separated .bar choice

/-! ### Statements of a process -/

/-- A process body ends where one of these tokens stands. -/
def endsBlock : TokenKind → Bool
  | .keyword .kwEnd | .keyword .kwElsif | .keyword .kwElse | .keyword .kwWhen | .eof => true
  | _ => false

/-- Statements up to the end of the block. A faulty one is skipped. -/
def blockAt (stmt : Parse Stmt) : Nat → Parse (List Stmt)
  | 0 => return []
  | n + 1 => do
    if endsBlock (← kind) then
      return []
    else
      match ← attempt stmt with
      | some s => return s :: (← blockAt stmt n)
      | none =>
        skipSentence
        blockAt stmt n

/-- The conditions of an `if` after its first word, each with its statements. -/
def branchesAt (block : Parse (List Stmt)) : Nat → Parse (List Branch)
  | 0 => return []
  | n + 1 => do
    let condition ← expr
    let _ ← expectWord .kwThen
    let body ← block
    if ← eatWord .kwElsif then
      return ⟨condition, body⟩ :: (← branchesAt block n)
    else
      return [⟨condition, body⟩]

/-- An `if` statement. -/
def ifStmt (block : Parse (List Stmt)) : Parse Stmt := do
  let start ← expectWord .kwIf
  let branches ← fueled (branchesAt block)
  let otherwise ← if ← eatWord .kwElse then pure (some (← block)) else pure none
  let _ ← expectWord .kwEnd
  let _ ← expectWord .kwIf
  eatName
  let _ ← expectSign .semicolon
  return .ifs branches otherwise (start.cover (← lastSpan))

/-- The alternatives of a `case`: its arms, and the statements under `others`. Of several `others`
the last one counts. -/
def armsAt (block : Parse (List Stmt)) : Nat → Option (List Stmt) → Parse (List Arm × Option (List Stmt))
  | 0, others => return ([], others)
  | n + 1, others => do
    let start ← span
    if ← eatWord .kwWhen then
      if ← eatWord .kwOthers then
        let _ ← expectSign .arrow
        armsAt block n (some (← block))
      else
        let cs ← choices
        let _ ← expectSign .arrow
        let body ← block
        let whole := start.cover (← lastSpan)
        let (arms, others) ← armsAt block n others
        return (⟨cs, body, whole⟩ :: arms, others)
    else
      return ([], others)

/-- A `case` statement. -/
def caseStmt (block : Parse (List Stmt)) : Parse Stmt := do
  let start ← expectWord .kwCase
  let subject ← expr
  let _ ← expectWord .kwIs
  let (arms, others) ← fueled fun n => armsAt block n none
  let _ ← expectWord .kwEnd
  let _ ← expectWord .kwCase
  eatName
  let _ ← expectSign .semicolon
  return .case subject arms others (start.cover (← lastSpan))

/-- An assignment inside a process. -/
def assignStmt : Parse Stmt := do
  let start ← span
  let t ← target
  match ← kind with
  | .symbol .lessEquals =>
    advance
    assignAfter t start
  | .symbol .varAssign => unsupported "variable assignment"
  | _ => expected "`<=`"

/-- The statement `null`. -/
def nullStmt : Parse Stmt := do
  let start ← expectWord .kwNull
  let _ ← expectSign .semicolon
  return .null (start.cover (← lastSpan))

/-- Passes a label, if one stands here. -/
def skipLabel : Parse Unit := do
  if ← atLabel then
    advance
    advance

/-- A statement of a process, where `block` reads the statements inside it. A label is not kept. -/
def stmtOf (block : Parse (List Stmt)) : Parse Stmt := do
  skipLabel
  match ← kind with
  | .keyword .kwIf => ifStmt block
  | .keyword .kwCase => caseStmt block
  | .keyword .kwNull => nullStmt
  | .identifier => assignStmt
  | .keyword .kwWait => unsupported "wait statement"
  | .keyword .kwFor => unsupported "loop statement"
  | _ => expected "sequential statement"

/-- A block whose statements are nested at most as deep as the fuel allows. -/
def nestedBlockAt : Nat → Parse (List Stmt)
  | 0 => return []
  | n + 1 => fueled (blockAt (stmtOf (nestedBlockAt n)))

/-- The statements up to the end of a block. -/
def block : Parse (List Stmt) := fueled nestedBlockAt

/-! ### Statements of an architecture -/

/-- The signals in the parentheses after the word `process`. -/
def sensitivity : Parse Sensitivity := do
  if ← eatSign .leftParen then
    let s ←
      if ← eatWord .kwAll then
        pure Sensitivity.all
      else
        pure (Sensitivity.list (← separated .comma ident))
    let _ ← expectSign .rightParen
    return s
  else
    return .list []

/-- A process has no declarations of its own. -/
def beginProcess : Parse Unit := do
  match ← kind with
  | .keyword .kwBegin => advance
  | .keyword .kwVariable => unsupported "process variable"
  | .keyword .kwConstant | .keyword .kwSignal | .keyword .kwType => unsupported "process declaration"
  | _ => expected "`begin`"

/-- A process. -/
def process (label : Option String) (start : Span) : Parse Process := do
  let _ ← expectWord .kwProcess
  let s ← sensitivity
  let _ ← eatWord .kwIs
  beginProcess
  let body ← block
  let _ ← expectWord .kwEnd
  let _ ← expectWord .kwProcess
  eatName
  let _ ← expectSign .semicolon
  return ⟨label, s, body, start.cover (← lastSpan)⟩

/-- What is put in for one generic or port. -/
def association : Parse Association := do
  let s ← get
  let formal ←
    if s.kind == .identifier && s.kindAt 1 == .symbol .arrow then do
      let f ← ident
      advance
      pure (some f)
    else
      pure none
  let actual ← if ← eatWord .kwOpen then pure Actual.leftOpen else pure (Actual.expr (← expr))
  return ⟨formal, actual, s.span.cover (← lastSpan)⟩

/-- A map of an instance, led by `word`; empty if the word does not stand here. -/
def mapClause (word : Keyword) : Parse (List Association) := do
  if ← eatWord word then
    let _ ← expectWord .kwMap
    let _ ← expectSign .leftParen
    let assocs ← separated .comma association
    let _ ← expectSign .rightParen
    return assocs
  else
    return []

/-- What follows the unit of an instance. -/
def instanceAfter (label entity : String) (architecture : Option String) (start : Span) :
    Parse Concurrent := do
  let genericMap ← mapClause .kwGeneric
  let portMap ← mapClause .kwPort
  let _ ← expectSign .semicolon
  return .instantiation ⟨label, entity, architecture, genericMap, portMap, start.cover (← lastSpan)⟩

/-- The label of a statement that must have one. -/
def requireLabel (label : Option String) (start : Span) : Parse String :=
  match label with
  | some l => return l
  | none => fail .missingLabel start

/-- An instance of an entity: `entity lib.name(arch)`. The library is not kept. -/
def entityInstance (label : Option String) (start : Span) : Parse Concurrent := do
  let l ← requireLabel label start
  let _ ← expectWord .kwEntity
  let first ← name
  let entity ← if ← eatSign .dot then name else pure first
  let architecture ←
    if ← eatSign .leftParen then do
      let a ← name
      let _ ← expectSign .rightParen
      pure (some a)
    else
      pure none
  instanceAfter l entity architecture start

/-- An instance of a component, with or without the word. -/
def componentInstance (label : Option String) (start : Span) : Parse Concurrent := do
  let l ← requireLabel label start
  let _ ← eatWord .kwComponent
  let entity ← name
  instanceAfter l entity none start

/-- The alternatives of a selected assignment: `a when c1 | c2, b when others`. -/
def selectedAt (target : Target) : Nat → Option (List Stmt) → Parse (List Arm × Option (List Stmt))
  | 0, others => return ([], others)
  | n + 1, others => do
    let start ← span
    let (value, whole) ← delayedValue
    let _ ← expectWord .kwWhen
    if ← eatWord .kwOthers then
      let others := some [Stmt.assign target value whole]
      if ← eatSign .comma then
        selectedAt target n others
      else
        return ([], others)
    else
      let cs ← choices
      let arm : Arm := ⟨cs, [.assign target value whole], start.cover (← lastSpan)⟩
      if ← eatSign .comma then
        let (arms, others) ← selectedAt target n others
        return (arm :: arms, others)
      else
        return ([arm], others)

/-- A selected assignment: `with s select q <= …;`. -/
def selectedAssign (label : Option String) (start : Span) : Parse Process := do
  let _ ← expectWord .kwWith
  let subject ← expr
  let _ ← expectWord .kwSelect
  let t ← target
  let _ ← expectSign .lessEquals
  let (arms, others) ← fueled fun n => selectedAt t n none
  let _ ← expectSign .semicolon
  let whole := start.cover (← lastSpan)
  return ⟨label, .all, [.case subject arms others whole], whole⟩

/-- An assignment outside of processes. -/
def concurrentAssign (label : Option String) (start : Span) : Parse Process := do
  let t ← target
  let _ ← expectSign .lessEquals
  let s ← assignAfter t start
  return ⟨label, .all, [s], start.cover (← lastSpan)⟩

/-- A generate loop, where `body` reads the statements inside it. -/
def generate (body : Parse (List Concurrent)) (label : Option String) (start : Span) :
    Parse Concurrent := do
  let l ← requireLabel label start
  let _ ← expectWord .kwFor
  let var ← name
  let _ ← expectWord .kwIn
  let bounds ← range
  let _ ← expectWord .kwGenerate
  let ds ←
    match ← kind with
    | .keyword .kwSignal | .keyword .kwConstant | .keyword .kwType | .keyword .kwComponent => do
      let ds ← decls
      let _ ← expectWord .kwBegin
      pure ds
    | _ => do
      let _ ← eatWord .kwBegin
      pure []
  let stmts ← body
  let _ ← expectWord .kwEnd
  let _ ← expectWord .kwGenerate
  eatName
  let _ ← expectSign .semicolon
  return .generate ⟨l, var, bounds, ds, stmts, start.cover (← lastSpan)⟩

/-- Passes a label, if one stands here, and gives its name. -/
def label? : Parse (Option String) := do
  if ← atLabel then
    let l ← name
    advance
    return some l
  else
    return none

/-- A statement of an architecture, where `body` reads the statements inside it. -/
def concurrentOf (body : Parse (List Concurrent)) : Parse Concurrent := do
  let start ← span
  let label ← label?
  let s ← get
  match s.kind with
  | .keyword .kwProcess => return .process (← process label start)
  | .keyword .kwEntity => entityInstance label start
  | .keyword .kwComponent => componentInstance label start
  | .keyword .kwFor => generate body label start
  | .keyword .kwIf => unsupported "if-generate"
  | .keyword .kwWith => return .process (← selectedAssign label start)
  | .identifier =>
    let next := s.kindAt 1
    if label.isSome && (next == .keyword .kwGeneric || next == .keyword .kwPort ||
        next == .symbol .semicolon) then
      componentInstance label start
    else
      return .process (← concurrentAssign label start)
  | _ => expected "concurrent statement"

/-- The word by which a statement is known: the one after its label. -/
def headKind : Parse TokenKind := do
  if ← atLabel then kindAt 2 else kind

/-- Skips a faulty statement: past its closing words if it has them, else past the next `;`. -/
def skipConcurrent (head : TokenKind) : Parse Unit :=
  match head with
  | .keyword .kwProcess => skipPastEnd .kwProcess
  | .keyword .kwFor => skipPastEnd .kwGenerate
  | _ => skipSentence

/-- Statements up to `end`. A faulty one is skipped. -/
def concurrentsAt (stmt : Parse Concurrent) : Nat → Parse (List Concurrent)
  | 0 => return []
  | n + 1 => do
    let s ← get
    if s.kind == .keyword .kwEnd || s.kind == .eof then
      return []
    else
      let head ← headKind
      match ← attempt stmt with
      | some c => return c :: (← concurrentsAt stmt n)
      | none =>
        skipConcurrent head
        concurrentsAt stmt n

/-- Statements nested at most as deep as the fuel allows. -/
def nestedConcurrentsAt : Nat → Parse (List Concurrent)
  | 0 => return []
  | n + 1 => fueled (concurrentsAt (concurrentOf (nestedConcurrentsAt n)))

/-- The statements up to the `end` of an architecture. -/
def concurrents : Parse (List Concurrent) := fueled nestedConcurrentsAt

end HdlLint.Syntax.Parse
