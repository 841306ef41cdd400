import HdlLint.Command.Arguments

/-! # Help texts -/

namespace HdlLint.Command

/-- An option in a help text. -/
structure HelpOption where
  names : String
  about : String
  default : Option String := none
  /-- The words that the option takes, each with its meaning. -/
  choices : List (String × String) := []
  deriving Inhabited

namespace HelpOption

/-- All about an option on one line, with its names filled up to a width. -/
def brief (width : Nat) (o : HelpOption) : String :=
  "  " ++ Ascii.padRight width o.names ++ "  " ++ o.about ++
    o.default.elim "" (fun d => " [default: " ++ d ++ "]") ++
    (match o.choices with
      | [] => ""
      | cs => " [possible values: " ++ ", ".intercalate (cs.map (·.1)) ++ "]") ++ "\n"

/-- The choices of an option, one a line. -/
def choiceLines (choices : List (String × String)) : String :=
  let width := choices.foldl (fun w (c, _) => max w c.length) 0
  "\n          Possible values:\n" ++ String.join (choices.map fun (c, meaning) =>
    "          - " ++ c ++ ": " ++ Ascii.times (width - c.length) ' ' ++ meaning ++ "\n")

/-- All about an option on lines of their own. The default stands after the choices. -/
def full (o : HelpOption) : String :=
  "  " ++ o.names ++ "\n          " ++ o.about ++ "\n" ++
    (if o.choices.isEmpty then "" else choiceLines o.choices) ++
    o.default.elim "" (fun d => "          \n          [default: " ++ d ++ "]\n")

end HelpOption

/-- The lines on options, briefly or at length. -/
def optionLines (long : Bool) (os : List HelpOption) : String :=
  if long then "\n".intercalate (os.map HelpOption.full)
  else
    let width := os.foldl (fun w o => max w o.names.length) 0
    String.join (os.map (HelpOption.brief width))

def quietHelp : HelpOption :=
  { names := "-q, --quiet", about := "Suppress all output except warnings and errors" }

def verboseHelp : HelpOption :=
  { names := "-v, --verbose", about := "Enable verbose (debug-level) output" }

def colorHelp : HelpOption :=
  { names := "    --color <COLOR>", about := "Control colored output", default := some "auto"
    choices := [("auto", "Detect from terminal capabilities"),
      ("always", "Always produce colored output"), ("never", "Never produce colored output")] }

def configHelp : HelpOption :=
  { names := "    --config <CONFIG>"
    about := "Path to an `rtlint.toml` file or the directory containing it" }

def helpHelp (long : Bool) : HelpOption :=
  { names := "-h, --help"
    about := if long then "Print help (see a summary with '-h')"
      else "Print help (see more with '--help')" }

def versionHelp : HelpOption := { names := "-V, --version", about := "Print version" }

def checkHelp : List HelpOption :=
  [quietHelp,
    { names := "    --top <TOP>..."
      about := "Top units to analyze (default: configured tops, else every root entity)" },
    { names := "    --allow <ALLOW>...", about := "Rules to suppress (e.g., `--allow latch-inferred`)" },
    verboseHelp, colorHelp,
    { names := "    --deny <DENY>..."
      about := "Rules to report as errors (e.g., `--deny CLOCKED_PROCESS_IMPURE`)" },
    configHelp,
    { names := "    --warn <WARN>...", about := "Rules to report as warnings" },
    { names := "-f, --format <FORMAT>"
      about := "Output format for the report. Defaults to `[report].format`"
      choices := [("text", "One line per finding"), ("json", "A single JSON document")] },
    { names := "-j, --jobs <JOBS>", about := "Worker threads for top units (0 uses every core)" },
    { names := "    --no-dedup"
      about := "Report every elaboration path separately instead of merging repeats" }]

/-- The line on what can be written. -/
def usageLine : Topic → String
  | .program => "Usage: rtlint [OPTIONS] <COMMAND>\n"
  | .check => "Usage: rtlint check [OPTIONS] [FILES]...\n"
  | .rules => "Usage: rtlint rules [OPTIONS]\n"
  | .help => "Usage: rtlint help [COMMAND]...\n"

def helpText (topic : Topic) (long : Bool) : String :=
  match topic with
  | .program =>
    "Static analyzer for process-based RTL\n\n" ++ usageLine .program ++
      "\nCommands:\n  check  Analyze design files and report rule violations\n" ++
      "  rules  List the rules and their default severities\n" ++
      "  help   Print this message or the help of the given subcommand(s)\n\nOptions:\n" ++
      optionLines long [quietHelp, verboseHelp, colorHelp, configHelp, helpHelp long, versionHelp]
  | .check =>
    let files := "Design files or directories. Defaults to the sources in `rtlint.toml`\n"
    "Analyze design files and report rule violations\n\n" ++ usageLine .check ++
      "\nArguments:\n  [FILES]..." ++ (if long then "\n          " else "  ") ++ files ++
      "\nOptions:\n" ++ optionLines long (checkHelp ++ [helpHelp long])
  | .rules =>
    "List the rules and their default severities\n\n" ++ usageLine .rules ++ "\nOptions:\n" ++
      optionLines long [quietHelp, verboseHelp, colorHelp, configHelp, helpHelp long]
  | .help =>
    "Print this message or the help of the given subcommand(s)\n\n" ++ usageLine .help ++
      "\nArguments:\n  [COMMAND]...  Print help for the subcommand(s)\n"

/-- What is said to arguments that make no sense. -/
def usageText : String :=
  "error: invalid arguments\n\n" ++ usageLine .program ++ "\nFor more information, try '--help'.\n"

def versionText : String := "rtlint 0.1.0\n"

end HdlLint.Command
