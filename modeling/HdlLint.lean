import HdlLint.Analysis
import HdlLint.Analysis.Events
import HdlLint.Check
import HdlLint.Command.Arguments
import HdlLint.Command.Help
import HdlLint.Command.Run
import HdlLint.Design.Build
import HdlLint.Design.Cycle
import HdlLint.Design.Elaborate
import HdlLint.Design.Error
import HdlLint.Design.Eval
import HdlLint.Design.GraphSearch
import HdlLint.Design.Instance
import HdlLint.Design.Path
import HdlLint.Design.Resolve
import HdlLint.Design.Scope
import HdlLint.Design.Stmt
import HdlLint.Design.Unit
import HdlLint.Design.UnitGraph
import HdlLint.Design.Value
import HdlLint.Diagnostic
import HdlLint.Dict
import HdlLint.Files.Path
import HdlLint.Files.Tree
import HdlLint.Finding
import HdlLint.Flow.Clock
import HdlLint.Flow.Path
import HdlLint.Flow.Read
import HdlLint.Flow.SignalMap
import HdlLint.Flow.Summary
import HdlLint.Flow.Write
import HdlLint.Log
import HdlLint.Main
import HdlLint.NameTable
import HdlLint.Report
import HdlLint.Report.Data
import HdlLint.Report.Text
import HdlLint.Rule
import HdlLint.Rule.Levels
import HdlLint.Rule.Override
import HdlLint.Settings
import HdlLint.Source
import HdlLint.Syntax.Error
import HdlLint.Syntax.Expr
import HdlLint.Syntax.Literal
import HdlLint.Syntax.Parse.Basic
import HdlLint.Syntax.Parse.Decl
import HdlLint.Syntax.Parse.Expr
import HdlLint.Syntax.Parse.Stmt
import HdlLint.Syntax.Parse.Unit
import HdlLint.Syntax.Printer
import HdlLint.Syntax.Unit
import HdlLint.Text.Ascii
import HdlLint.Text.Blank
import HdlLint.Text.Json
import HdlLint.Token
import HdlLint.Token.Lexer
import HdlLint.Toml.Date
import HdlLint.Toml.Document
import HdlLint.Toml.Number
import HdlLint.Toml.Reader
import HdlLint.Toml.Table
import HdlLint.Toml.Text
import HdlLint.Toml.Value
import HdlLint.Workspace
import HdlLint.Proofs.Occurrence
import HdlLint.Proofs.Enumeration
import HdlLint.Proofs.Coverage
import HdlLint.Proofs.Discipline
import HdlLint.Proofs.Merging
import HdlLint.Proofs.Verdict
import HdlLint.Proofs.Resolution
import HdlLint.Proofs.Scoping
import HdlLint.Proofs.Hierarchy
import HdlLint.Proofs.Binding
import HdlLint.Proofs.Discovery
import HdlLint.Proofs.Reachability
import HdlLint.Proofs.Reading
import HdlLint.Proofs.Placement
import HdlLint.Proofs.Cycles
import HdlLint.Proofs.Faults
import HdlLint.Proofs.Worklist
import HdlLint.Proofs.Comparison
import HdlLint.Proofs.Grouping
import HdlLint.Proofs.Relocation
import HdlLint.Proofs.Provenance
import HdlLint.Proofs.Twins
import HdlLint.Proofs.Agreement
import HdlLint.Proofs.Lexing
import HdlLint.Proofs.Precedence
import HdlLint.Proofs.FaultSpans
import HdlLint.Proofs.Lists
import HdlLint.Proofs.Rendering
import HdlLint.Proofs.Words
import HdlLint.Proofs.Cutting
import HdlLint.Proofs.Printing
import HdlLint.Proofs.Taking
import HdlLint.Proofs.RoundTrip
import HdlLint.Proofs.StableOrder
import HdlLint.Proofs.Composition
import HdlLint.Proofs.LetterCase
import HdlLint.Proofs.Relabelling
import HdlLint.Proofs.CaseBlind
import HdlLint.Proofs.Clauses
import HdlLint.Proofs.CleanReading
import HdlLint.Proofs.UnitHeads
import HdlLint.Proofs.NameUses
import HdlLint.Proofs.Renumbering
import HdlLint.Proofs.Unrolling
import HdlLint.Proofs.Ordinals
import HdlLint.Proofs.LoopBounds
import HdlLint.Proofs.BreadthFirst
import HdlLint.Proofs.Preorder
import HdlLint.Proofs.FirstAssignments
import HdlLint.Proofs.Attribution
import HdlLint.Proofs.FirstUses
import HdlLint.Proofs.GuardedWrites
import HdlLint.Proofs.Latches
import HdlLint.Proofs.DualDrivers
import HdlLint.Proofs.Arithmetic
import HdlLint.Proofs.Evaluation
import HdlLint.Proofs.ExactValues
import HdlLint.Proofs.Overflow
import HdlLint.Proofs.ConstantNames
import HdlLint.Proofs.ClockEdges
import HdlLint.Proofs.LiteralValues
import HdlLint.Proofs.Resuming
import HdlLint.Proofs.Spelling
import HdlLint.Proofs.StatementTexts
import HdlLint.Proofs.ProcessTexts
import HdlLint.Proofs.Alternatives
import HdlLint.Proofs.SourceOrder
import HdlLint.Proofs.DefaultTops
import HdlLint.Proofs.Ranges
import HdlLint.Proofs.PathTexts
import HdlLint.Proofs.UniquePaths
import HdlLint.Proofs.GenericValues
import HdlLint.Proofs.TextBytes
import HdlLint.Proofs.LineColumns
import HdlLint.Proofs.RuleFlags
import HdlLint.Proofs.GenericSettings
import HdlLint.Proofs.SpanNesting
import HdlLint.Proofs.Fingerprints
