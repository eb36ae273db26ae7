import Preproc.Text.Bytes
import Preproc.Text.Rune
import Preproc.Text.Printable
import Preproc.Text.Quoted
import Preproc.Text.Blank
import Preproc.Text.Number
import Preproc.Text.Base64
import Preproc.Position
import Preproc.Token.Basic
import Preproc.Token.Lexer
import Preproc.Token.Cursor
import Preproc.Condition.Expr
import Preproc.Condition.Lexer
import Preproc.Condition.Parser
import Preproc.Condition.Value
import Preproc.Condition.Eval
import Preproc.Keyword
import Preproc.Diagnostic.Warning
import Preproc.Diagnostic.Basic
import Preproc.Diagnostic.Reporter
import Preproc.Diagnostic.Render
import Preproc.Branch
import Preproc.Source.Comment
import Preproc.Source.LogicalLine
import Preproc.Macro.Definition
import Preproc.Macro.Table
import Preproc.Macro.Parser
import Preproc.Yaml.Input
import Preproc.Yaml.Token
import Preproc.Yaml.Quoted
import Preproc.Yaml.Plain
import Preproc.Yaml.Block
import Preproc.Yaml.Property
import Preproc.Yaml.Layout
import Preproc.Yaml.Node
import Preproc.Yaml.Scalar
import Preproc.Yaml.Reader
import Preproc.Yaml.Writer
import Preproc.Settings.Basic
import Preproc.Settings.Yaml
import Preproc.Engine.Message
import Preproc.Engine.State
import Preproc.Engine.Resolve
import Preproc.Engine.Directive
import Preproc.Engine.Process
import Preproc.Engine.Start
import Preproc.Files.Path
import Preproc.Files.Tree
import Preproc.Files.IncludePath
import Preproc.CommandLine.Flag
import Preproc.CommandLine.Options
import Preproc.CommandLine.Help
import Preproc.CommandLine.Program
import Preproc.Main
import Preproc.Proofs.Macro.Buckets
import Preproc.Proofs.Macro.FiniteMap
import Preproc.Proofs.Branch.Ownership
import Preproc.Proofs.Engine.Effect
import Preproc.Proofs.Engine.FileScope
import Preproc.Proofs.Token.Lexemes
import Preproc.Proofs.Source.SimpleLines
import Preproc.Proofs.Token.DirectiveLine
import Preproc.Proofs.Engine.Structured
import Preproc.Proofs.Engine.Simulation
import Preproc.Proofs.Token.Cut
import Preproc.Proofs.Token.Locality
import Preproc.Proofs.Macro.Tidy
import Preproc.Proofs.Macro.Recut
import Preproc.Proofs.Macro.Parameters
import Preproc.Proofs.Macro.RoundTrip
import Preproc.Proofs.Branch.Selection
import Preproc.Proofs.Condition.Grammar
import Preproc.Proofs.Condition.Acceptance
import Preproc.Proofs.Condition.Arithmetic
import Preproc.Proofs.Condition.Constant
import Preproc.Proofs.Condition.Meaning
import Preproc.Proofs.Source.Reading
import Preproc.Proofs.Engine.SingleFile
import Preproc.Proofs.Engine.LineMarkers
import Preproc.Proofs.Source.Partition
import Preproc.Proofs.Engine.LineNumbers
import Preproc.Proofs.Engine.Idempotence
import Preproc.Proofs.Engine.Accounting
import Preproc.Proofs.Condition.Spans
import Preproc.Proofs.Token.Kinds
import Preproc.Proofs.Engine.Agreement
import Preproc.Proofs.Engine.Seams
import Preproc.Proofs.Engine.TableEdits
import Preproc.Proofs.Engine.LockedMacros
import Preproc.Proofs.Branch.Relabelling
import Preproc.Proofs.Engine.Independence
import Preproc.Proofs.Engine.IncludeStack
import Preproc.Proofs.Source.Joined
import Preproc.Proofs.Token.Unclosed
import Preproc.Proofs.Macro.Printed
import Preproc.Proofs.Engine.Origins
import Preproc.Proofs.Engine.MacroDump
import Preproc.Proofs.Text.Runes
import Preproc.Proofs.Token.Positions
import Preproc.Proofs.Macro.Redefinition
import Preproc.Proofs.CommandLine.WorkerPool
import Preproc.Proofs.Text.Escapes
import Preproc.Proofs.Engine.MarkerReadBack
import Preproc.Proofs.Engine.ReplacementStack
import Preproc.Proofs.Engine.SkippedReports
import Preproc.Proofs.Macro.WellFormed
import Preproc.Proofs.Engine.SkippedText
import Preproc.Proofs.Source.Placement
import Preproc.Proofs.Source.Recognition
import Preproc.Proofs.Token.CommentTracking
import Preproc.Proofs.Macro.ParameterLimit
import Preproc.Proofs.Condition.ChoiceType
import Preproc.Proofs.Engine.LateErrors
import Preproc.Proofs.Engine.LineStarts
import Preproc.Proofs.Token.LinePlaces
import Preproc.Proofs.Engine.ReportPlaces
import Preproc.Proofs.Engine.PresentedReports
import Preproc.Proofs.Engine.Placeholders
import Preproc.Proofs.Macro.CeilingNotice
import Preproc.Proofs.Engine.BracketNames
import Preproc.Proofs.Engine.NestingWarning
