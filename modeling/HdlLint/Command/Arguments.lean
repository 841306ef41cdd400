import HdlLint.Settings
import HdlLint.Rule.Levels

/-! # The command line

Options that stand before the subcommand and those that stand after it are read apart, each level
with options of its own. An option with a long name is written `--name value` or `--name=value`;
short names can be run together, and a value can follow the last of them directly. -/

namespace HdlLint.Command

/-- When to write in colour. -/
inductive ColorChoice where
  | auto
  | always
  | never
  deriving DecidableEq, Repr, Inhabited

namespace ColorChoice

def ofWord? (w : String) : Option ColorChoice :=
  if w = "auto" then some .auto
  else if w = "always" then some .always
  else if w = "never" then some .never
  else none

end ColorChoice

/-- What is asked for a help text. -/
inductive Topic where
  | program
  | check
  | rules
  | help
  deriving DecidableEq, Repr, Inhabited

/-- Why there is nothing to run. -/
inductive Stop where
  /-- The arguments make no sense. -/
  | usage
  | help (topic : Topic) (long : Bool)
  | version
  deriving DecidableEq, Repr, Inhabited

/-! ### Options -/

inductive Key where
  | quiet | verbose | color | config
  | top | allow | deny | warn | format | jobs | noDedup
  | help | version
  deriving DecidableEq, Repr, Inhabited

/-- How many values an option takes. -/
inductive Arity where
  | flag
  | one
  /-- One or more, up to the next option. -/
  | many
  deriving DecidableEq, Repr, Inhabited

structure OptionSpec where
  key : Key
  long : String
  short : Option Char
  arity : Arity
  deriving DecidableEq, Repr, Inhabited

/-- Options that can stand before and after the subcommand. -/
def globalOptions : List OptionSpec :=
  [⟨.quiet, "quiet", some 'q', .flag⟩, ⟨.verbose, "verbose", some 'v', .flag⟩,
    ⟨.color, "color", none, .one⟩, ⟨.config, "config", none, .one⟩, ⟨.help, "help", some 'h', .flag⟩]

def programOptions : List OptionSpec :=
  globalOptions ++ [⟨.version, "version", some 'V', .flag⟩]

def checkOptions : List OptionSpec :=
  globalOptions ++
    [⟨.top, "top", none, .many⟩, ⟨.allow, "allow", none, .many⟩, ⟨.deny, "deny", none, .many⟩,
      ⟨.warn, "warn", none, .many⟩, ⟨.format, "format", some 'f', .one⟩,
      ⟨.jobs, "jobs", some 'j', .one⟩, ⟨.noDedup, "no-dedup", none, .flag⟩]

/-- What can stand on one level of the command line. -/
structure Level where
  topic : Topic
  options : List OptionSpec
  /-- Whether there are arguments besides options. -/
  takesOperands : Bool
  subcommands : List String
  deriving Inhabited

def programLevel : Level := ⟨.program, programOptions, false, ["check", "rules", "help"]⟩

def checkLevel : Level := ⟨.check, checkOptions, true, []⟩

def rulesLevel : Level := ⟨.rules, globalOptions, false, []⟩

/-- A count in decimal digits, perhaps with a plus sign, that fits into sixty-four bits. -/
def count? (text : String) : Option Nat :=
  let digits := match text.toList with
    | '+' :: cs => cs
    | cs => cs
  if digits.all Char.isDigit then (Ascii.number? 10 digits).filter (· < Nat.pow 2 64) else none

/-- Whether an option can have a value. -/
def accepts (key : Key) (value : String) : Bool :=
  match key with
  | .color => (ColorChoice.ofWord? value).isSome
  | .format => (ReportFormat.ofWord? value).isSome
  | .jobs => (count? value).isSome
  | _ => true

/-! ### Reading one level -/

/-- What has been read of a level. -/
structure Reading where
  /-- Options with their values. -/
  given : List (Key × List String) := []
  /-- An option whose values are not all read or not yet looked at. -/
  pending : Option (OptionSpec × List String) := none
  /-- Whether the next word is a value of that option. -/
  awaits : Bool := false
  operands : List String := []
  deriving Inhabited

namespace Reading

def values (r : Reading) (k : Key) : List String := (r.given.lookup k).getD []

def has (r : Reading) (k : Key) : Bool := (r.given.lookup k).isSome

/-- Enters an option. Only those that take many values can be repeated. -/
def record (r : Reading) (topic : Topic) (o : OptionSpec) (vs : List String) (long : Bool) :
    Except Stop Reading :=
  match o.key, o.arity with
  | .help, _ => .error (.help topic long)
  | .version, _ => .error .version
  | k, .flag => if r.has k then .error .usage else .ok { r with given := (k, []) :: r.given }
  | k, .one =>
    if r.has k || vs.length != 1 || !vs.all (accepts k) then .error .usage
    else .ok { r with given := (k, vs) :: r.given }
  | k, .many =>
    if vs.isEmpty then .error .usage
    else .ok { r with given := (k, r.values k ++ vs) :: r.given }

/-- Looks at the values of the pending option. -/
def resolve (r : Reading) (topic : Topic) : Except Stop Reading :=
  match r.pending with
  | none => .ok { r with awaits := false }
  | some (o, vs) => { r with pending := none, awaits := false }.record topic o vs true

/-- Takes an option with the value attached to it, if any. -/
def option (r : Reading) (topic : Topic) (o : OptionSpec) (attached : Option String) (long : Bool) :
    Except Stop Reading := do
  let r ← r.resolve topic
  match o.arity, attached with
  | .flag, none => r.record topic o [] long
  | .flag, some _ => throw .usage
  | _, some v => r.record topic o [v] long
  | _, none => return { r with pending := some (o, []), awaits := true }

/-- Takes `name` or `name=value`. -/
def long (r : Reading) (level : Level) (body : List Char) : Except Stop Reading :=
  let name := String.ofList (body.takeWhile (· != '='))
  let attached := match body.dropWhile (· != '=') with
    | _ :: v => some (String.ofList v)
    | [] => none
  match level.options.find? (·.long == name) with
  | none => .error .usage
  | some o => r.option level.topic o attached true

/-- Takes short names that are run together. What follows the name of an option that takes values is
its value. -/
def short (level : Level) : List Char → Reading → Except Stop Reading
  | [], r => .ok r
  | c :: cs, r =>
    match level.options.find? (·.short == some c) with
    | none => .error .usage
    | some o =>
      match o.arity with
      | .flag => do short level cs (← r.option level.topic o none false)
      | _ =>
        let attached := match cs with
          | [] => none
          | '=' :: v => some (String.ofList v)
          | v => some (String.ofList v)
        r.option level.topic o attached false

/-- Takes a word that is no option: a value of the pending option, or an operand. -/
def word (r : Reading) (level : Level) (w : String) : Except Stop Reading :=
  match r.awaits, r.pending with
  | true, some (o, vs) =>
    .ok { r with pending := some (o, vs ++ [w]), awaits := o.arity == .many }
  | _, _ => do
    let r ← r.resolve level.topic
    if level.takesOperands then return { r with operands := r.operands ++ [w] } else throw .usage

end Reading

/-- Takes operands to the end. -/
def readOperands (level : Level) : List String → Reading → Except Stop Reading
  | [], r => .ok r
  | w :: ws, r => do readOperands level ws (← { r with awaits := false }.word level w)

/-- Reads a level up to its subcommand, which is given with the arguments after it. -/
def readLevel (level : Level) :
    List String → Reading → Except Stop (Reading × Option (String × List String))
  | [], r => .ok (r, none)
  | w :: ws, r =>
    if !r.awaits && level.subcommands.contains w then .ok (r, some (w, ws))
    else
      match w.toList with
      | ['-', '-'] => do return (← readOperands level ws r, none)
      | '-' :: '-' :: body => do readLevel level ws (← r.long level body)
      | '-' :: c :: cs => do readLevel level ws (← Reading.short level (c :: cs) r)
      | _ => do readLevel level ws (← r.word level w)

/-! ### What to run -/

structure CheckArguments where
  files : List String
  top : List String
  rules : RuleLevels
  format : Option ReportFormat
  noDedup : Bool
  deriving DecidableEq, Repr, Inhabited

inductive Subcommand where
  | check (a : CheckArguments)
  | rules
  deriving DecidableEq, Repr, Inhabited

/-- A command line that makes sense. -/
structure Invocation where
  quiet : Bool
  verbose : Bool
  color : ColorChoice
  config : Option String
  subcommand : Subcommand
  deriving DecidableEq, Repr, Inhabited

/-- The value of an option on the inner level, or else on the outer one. -/
def setting? (outer inner : Reading) (k : Key) : Option String :=
  (inner.values k).head?.orElse fun _ => (outer.values k).head?

def invocation (outer inner : Reading) (s : Subcommand) : Invocation where
  quiet := outer.has .quiet || inner.has .quiet
  verbose := outer.has .verbose || inner.has .verbose
  color := ((setting? outer inner .color).bind ColorChoice.ofWord?).getD .auto
  config := setting? outer inner .config
  subcommand := s

def checkArguments (r : Reading) : CheckArguments where
  files := r.operands
  top := r.values .top
  rules := ⟨r.values .deny, r.values .allow, r.values .warn⟩
  format := (r.values .format).head?.bind ReportFormat.ofWord?
  noDedup := r.has .noDedup

/-- Reads all options of a level that has no subcommands. -/
def readLast (level : Level) (ws : List String) : Except Stop Reading := do
  let (r, _) ← readLevel level ws {}
  r.resolve level.topic

/-- What is asked after the word `help`. -/
def helpTopic : List String → Except Stop Topic
  | [] => .ok .program
  | ["check"] => .ok .check
  | ["rules"] => .ok .rules
  | ["help"] => .ok .help
  | _ => .error .usage

/-- Reads a command line. -/
def parse (ws : List String) : Except Stop Invocation := do
  match ← readLevel programLevel ws {} with
  | (outer, some ("check", ws)) =>
    let inner ← readLast checkLevel ws
    let outer ← outer.resolve .program
    return invocation outer inner (.check (checkArguments inner))
  | (outer, some ("rules", ws)) =>
    let inner ← readLast rulesLevel ws
    let outer ← outer.resolve .program
    return invocation outer inner .rules
  | (_, some (_, ws)) => throw (.help (← helpTopic ws) true)
  | (_, none) => throw .usage

end HdlLint.Command
