import HdlLint.Report

/-! # Reports for reading -/

namespace HdlLint

/-- A number and what it counts: one thing, or several. -/
def counted (n : Nat) (thing : String) : String :=
  toString n ++ " " ++ thing ++ (if n = 1 then "" else "s")

/-- A footnote line. -/
def footnote (kind text : String) : String := "  = " ++ kind ++ ": " ++ text ++ "\n"

/-- The first line on a failure or an entry. -/
def headline (severity code top path subject message : String) (l : Location) : String :=
  severity ++ ": " ++ code ++ ": " ++ top ++ "[" ++ path ++ "]: " ++ subject ++ ": " ++ message ++
    " (" ++ l.text ++ ")\n"

def Failure.text (color : Bool) (f : Failure) : String :=
  headline (f.diagnostic.severity.paint color) f.diagnostic.code.text f.top "" f.top
      f.diagnostic.message f.location ++
    String.join (f.diagnostic.notes.map (footnote "note")) ++
    String.join (f.diagnostic.help.map (footnote "help"))

def Entry.text (color : Bool) (e : Entry) : String :=
  let f := e.finding
  headline (f.severity.paint color) f.rule.id f.top f.path.text f.subject f.message e.location ++
    (match e.others with
      | [] => ""
      | ps => footnote "note" ("also at: " ++ ", ".intercalate (ps.map (·.text)))) ++
    String.join (f.notes.map (footnote "note"))

/-- The counts at the end of a report. -/
def Report.Summary.text (s : Summary) : String :=
  counted s.errors "error" ++ ", " ++ counted s.warnings "warning" ++
    (if s.failures = 0 then "" else ", " ++ counted s.failures "elaboration error")

/-- Failures, then entries, then the counts. -/
def Report.text (color : Bool) (r : Report) : String :=
  String.join (r.failures.map (Failure.text color)) ++ String.join (r.entries.map (Entry.text color)) ++
    r.summary.text ++ "\n"

end HdlLint
