import HdlLint.Syntax.Parse.Unit

/-! # What has been read

A workspace grows file by file. Its library holds the units of all files, and its collector the
faults found in them. -/

namespace HdlLint

structure Workspace where
  sources : Sources := {}
  library : Syntax.Library := {}
  collector : Collector := {}
  deriving Inhabited

namespace Workspace

/-- Reads one more file. -/
def add (w : Workspace) (name text : String) : Workspace :=
  let (units, faults) := Syntax.parse w.sources.files.size text
  ⟨w.sources.add name text, w.library.append units, w.collector.extend faults⟩

/-- Reads files in their order. -/
def ofFiles (files : List (String × String)) : Workspace :=
  files.foldl (fun w (name, text) => w.add name text) {}

end Workspace

end HdlLint
