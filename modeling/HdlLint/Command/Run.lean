import HdlLint.Files.Tree
import HdlLint.Command.Help
import HdlLint.Rule.Override
import HdlLint.Report.Text
import HdlLint.Report.Data
import HdlLint.Analysis.Events

/-! # Running a command

A run reads files and says what it has to say on two channels: the report on one, messages on the
other. It is the same whether the files are those of the computer or are held in memory. -/

namespace HdlLint.Command

open Files (FileSystem)

/-- What has been said on the two channels. -/
structure Transcript where
  output : String := ""
  messages : String := ""
  deriving DecidableEq, Repr, Inhabited

/-- How a run ended. -/
structure Outcome where
  exitCode : Nat
  output : String
  messages : String
  deriving DecidableEq, Repr, Inhabited

/-- A run in progress. It can break off with a message. -/
abbrev Session (m : Type → Type) := ExceptT String (StateT Transcript m)

namespace Session

variable {m : Type → Type} [Monad m]

/-- Asks about files. -/
def ask {α : Type} (question : m α) : Session m α := ExceptT.lift (StateT.lift question)

def write (text : String) : Session m Unit :=
  modify fun t => { t with output := t.output ++ text }

def complain (text : String) : Session m Unit :=
  modify fun t => { t with messages := t.messages ++ text }

/-- Tells of an event that matters enough. -/
def log (least : LogLevel) (e : LogEvent) : Session m Unit :=
  if e.isShown least then complain e.text else pure ()

end Session

open Session

variable {m : Type → Type} [Monad m]

/-- The name of settings files. -/
def settingsFileName : String := "rtlint.toml"

/-- Settings, and the directory from which the files they name are found. -/
structure Project where
  root : String
  settings : Settings
  deriving Inhabited

namespace Invocation

/-- The least level of the messages that are shown. Asking for more outweighs asking for less. -/
def logLevel (i : Invocation) : LogLevel :=
  if i.verbose then .debug else if i.quiet then .warn else .info

def tell (i : Invocation) (e : LogEvent) : Session m Unit := log i.logLevel e

def isColored (i : Invocation) (terminal : Bool) : Bool :=
  match i.color with
  | .auto => terminal
  | .always => true
  | .never => false

end Invocation

/-! ### Settings -/

/-- Reads a settings file. -/
def readSettings (fs : FileSystem m) (file : String) : Session m Settings := do
  match ← ask (fs.read file) with
  | .error e => throw (file ++ ": failed to read configuration: " ++ e.message)
  | .ok text =>
    match Settings.parse text with
    | .error e => throw (file ++ ": " ++ e.message)
    | .ok s => return s

/-- The nearest directory with a settings file, from the current one upwards. -/
def findProject? (fs : FileSystem m) (start : String) : m (Option String) :=
  (Files.ancestors start.length start).findM? fun d => fs.isFile (Files.join d settingsFileName)

/-- Reads the settings that were asked for or else are found. -/
def loadProject (fs : FileSystem m) (i : Invocation) : Session m Project := do
  match i.config with
  | some name =>
    let file := if ← ask (fs.isDirectory name) then Files.join name settingsFileName else name
    let settings ← readSettings fs file
    i.tell (.debug ("using configuration " ++ file))
    return ⟨(Files.parent? file).getD ".", settings⟩
  | none =>
    let here ← ask fs.currentDirectory
    match ← ask (findProject? fs here) with
    | some root =>
      let file := Files.join root settingsFileName
      let settings ← readSettings fs file
      i.tell (.debug ("using configuration " ++ file))
      return ⟨root, settings⟩
    | none =>
      i.tell (.debug ("no " ++ settingsFileName ++ " found, using defaults"))
      return ⟨here, {}⟩

/-! ### Design files -/

/-- Whether a file found in a directory is a design file. -/
def isDesignFile (name : String) : Bool :=
  Files.extension? name == some "vhd" || Files.extension? name == some "vhdl"

/-- The design files of a directory and of those below it, in order. -/
def designFilesBelow (fs : FileSystem m) (dir : String) : Session m (List String) := do
  match ← ask (fs.filesBelow dir) with
  | .error e => throw e.message
  | .ok files =>
    return (files.filter isDesignFile).mergeSort fun a b => (Files.compare a b).isLE

/-- The design files that names stand for: files by themselves, and those of directories. A name that
stands for nothing is an error if `strict`, and else is passed over with a warning. -/
def collect (fs : FileSystem m) (i : Invocation) (strict : Bool) :
    List String → Session m (List String)
  | [] => return []
  | name :: names => do
    let found ←
      if ← ask (fs.isDirectory name) then designFilesBelow fs name
      else if ← ask (fs.isFile name) then pure [name]
      else if strict then throw ("no such file or directory: " ++ name)
      else do
        i.tell (.warn ("source path " ++ name ++ " does not exist"))
        pure []
    return found ++ (← collect fs i strict names)

/-- Reads files into a workspace. -/
def readFiles (fs : FileSystem m) : List String → Workspace → Session m Workspace
  | [], w => return w
  | name :: names, w => do
    match ← ask (fs.read name) with
    | .error e => throw (name ++ ": " ++ e.message)
    | .ok text => readFiles fs names (w.add name text)

/-! ### The subcommands -/

namespace CheckArguments

/-- The options of the settings, changed by those of the command line. -/
def options (a : CheckArguments) (s : Settings) : Except UnknownRule Options := do
  let rules ← s.rules.override a.rules
  let o := s.options
  return { o with
    tops := if a.top.isEmpty then o.tops else a.top
    dedup := o.dedup && !a.noDedup
    rules }

end CheckArguments

/-- Analyses a workspace and writes the report. -/
def reportCheck (i : Invocation) (color : Bool) (a : CheckArguments) (s : Settings) (w : Workspace) :
    Session m Nat := do
  match a.options s with
  | .error e => throw e.message
  | .ok o =>
    let runs := checkTops w.library o
    let report := reportOn o w.sources runs
    (analysisEvents w.library o runs report).forM i.tell
    match a.format.getD s.report.format with
    | .text => write (report.text color)
    | .json => write (report.jsonText ++ "\n")
    return report.exitCode

/-- Reads and analyses design files. -/
def check (fs : FileSystem m) (i : Invocation) (color : Bool) (a : CheckArguments) :
    Session m Nat := do
  let project ← loadProject fs i
  let found ←
    if a.files.isEmpty then
      collect fs i false (project.settings.project.sources.map (Files.join project.root))
    else collect fs i true a.files
  let files := Files.distinct found
  if files.isEmpty then
    i.tell (.warn "no VHDL source files found")
    return 0
  let count := toString files.length ++ " file(s)"
  i.tell (.info ("checking " ++
    (project.settings.project.name.elim count fun n => n ++ " (" ++ count ++ ")")))
  let w ← readFiles fs files {}
  i.tell (.debug ("parsed " ++ count ++ ": " ++ toString w.library.entities.length ++ " entities, " ++
    toString w.library.architectures.length ++ " architectures"))
  w.collector.held.forM fun d => complain (d.render w.sources color ++ "\n")
  if w.collector.hasErrors then
    i.tell (.info ("aborting: " ++ toString w.collector.errors ++
      " syntax error(s), no analysis performed"))
    return 1
  reportCheck i color a project.settings w

/-- A line on a rule, with a mark if the settings change its severity. -/
def ruleLine (levels : RuleLevels) (r : Rule) : String :=
  Ascii.padRight 24 r.id ++ " " ++ Ascii.padRight 24 r.name ++ " " ++
    Ascii.padRight 8 r.defaultSeverity.word ++ " " ++ r.description ++
    (match levels.severity? r with
      | none => " [allowed]"
      | some s => if s = r.defaultSeverity then "" else " [configured: " ++ s.word ++ "]") ++ "\n"

/-- Lists the rules. -/
def listRules (fs : FileSystem m) (i : Invocation) : Session m Nat := do
  let project ← loadProject fs i
  write (String.join (Rule.all.map (ruleLine project.settings.rules)))
  return 0

/-- Runs what the arguments ask for. -/
def run (fs : FileSystem m) (terminal : Bool) (arguments : List String) : m Outcome :=
  match parse arguments with
  | .error .usage => pure ⟨2, "", usageText⟩
  | .error (.help topic long) => pure ⟨0, helpText topic long, ""⟩
  | .error .version => pure ⟨0, versionText, ""⟩
  | .ok i => do
    let session : Session m Nat :=
      match i.subcommand with
      | .check a => check fs i (i.isColored terminal) a
      | .rules => listRules fs i
    match ← session.run.run {} with
    | (.ok code, t) => return ⟨code, t.output, t.messages⟩
    | (.error e, t) => return ⟨1, t.output, t.messages ++ "error: " ++ e ++ "\n"⟩

end HdlLint.Command
