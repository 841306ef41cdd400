import HdlLint.Text.Json
import HdlLint.Report

/-! # Reports for other programs -/

namespace HdlLint

open Design (Segment Path)

/-- A number that is not negative. -/
def Json.count (n : Nat) : Json := .num n

def Json.texts (ss : List String) : Json := .arr (ss.map .str)

def Span.json (s : Span) : Json :=
  .obj [("file", .count s.file), ("start", .count s.start), ("end", .count s.stop)]

def Location.json (l : Location) : Json :=
  .obj [("file", .str l.file), ("line", .count l.line), ("column", .count l.column)]

def Design.Segment.json : Segment → Json
  | .inst label => .obj [("Instance", .str label)]
  | .generate label index => .obj [("Generate", .obj [("label", .str label), ("index", .num index)])]

def Design.Path.json (p : Path) : Json := .arr (p.map (·.json))

def FindingOrigin.json : FindingOrigin → Json
  | .process e a n =>
    .obj [("kind", .str "process"), ("entity", .str e), ("architecture", .str a),
      ("ordinal", .count n)]
  | .architecture e a =>
    .obj [("kind", .str "architecture"), ("entity", .str e), ("architecture", .str a)]

def Entry.json (e : Entry) : Json :=
  let f := e.finding
  .obj [("rule", .str f.rule.id), ("severity", .str f.severity.word), ("top", .str f.top),
    ("path", Path.json f.path), ("origin", f.origin.json), ("subject", .str f.subject),
    ("message", .str f.message), ("span", f.span.json), ("notes", .texts f.notes),
    ("location", e.location.json), ("paths", .arr (e.paths.map Path.json))]

def Code.json (c : Code) : Json :=
  .obj [("category", .str c.category.word), ("number", .count c.number)]

def Diagnostic.json (d : Diagnostic) : Json :=
  .obj [("severity", .str d.severity.word), ("code", d.code.json), ("message", .str d.message),
    ("span", d.span.json), ("notes", .texts d.notes), ("help", .texts d.help)]

def Failure.json (f : Failure) : Json :=
  .obj [("top", .str f.top), ("diagnostic", f.diagnostic.json), ("location", f.location.json)]

namespace Report

def Summary.json (s : Summary) : Json :=
  .obj [("by_rule", .obj (s.byRule.map fun (rule, n) => (rule.id, .count n))),
    ("by_severity", .obj (s.bySeverity.map fun (severity, n) => (severity.word, .count n))),
    ("elaboration_errors", .count s.failures)]

def json (r : Report) : Json :=
  .obj [("entries", .arr (r.entries.map Entry.json)),
    ("elaboration_errors", .arr (r.failures.map Failure.json)), ("summary", r.summary.json)]

/-- The report as JSON text. -/
def jsonText (r : Report) : String := r.json.pretty

end Report

end HdlLint
