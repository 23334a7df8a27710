import TableDelta.Change.Basic
import TableDelta.Change.Kind
import TableDelta.Change.Set
import TableDelta.Config.Basic
import TableDelta.Config.File
import TableDelta.Definition.Basic
import TableDelta.Definition.Grammar
import TableDelta.Definition.Token
import TableDelta.Diff
import TableDelta.Json.Basic
import TableDelta.Json.Lexeme
import TableDelta.Json.Magnitude
import TableDelta.Json.Members
import TableDelta.Json.NumberLiteral
import TableDelta.Json.Reader
import TableDelta.Json.StringLiteral
import TableDelta.Json.Writer
import TableDelta.Proofs.Change.Append
import TableDelta.Proofs.Change.Buckets
import TableDelta.Proofs.Change.ByKind
import TableDelta.Proofs.Config.Reload
import TableDelta.Proofs.Definition.Canonical
import TableDelta.Proofs.Definition.Clauses
import TableDelta.Proofs.Definition.DefaultReference
import TableDelta.Proofs.Definition.Image
import TableDelta.Proofs.Definition.Multiset
import TableDelta.Proofs.Definition.Scan
import TableDelta.Proofs.Definition.Words
import TableDelta.Proofs.Diff.Compared
import TableDelta.Proofs.Diff.Destructive
import TableDelta.Proofs.Diff.Distinct
import TableDelta.Proofs.Diff.Growth
import TableDelta.Proofs.Diff.History
import TableDelta.Proofs.Diff.KeyChanges
import TableDelta.Proofs.Diff.NameChanges
import TableDelta.Proofs.Diff.Outline
import TableDelta.Proofs.Diff.Passes
import TableDelta.Proofs.Diff.Redefined
import TableDelta.Proofs.Diff.Reordered
import TableDelta.Proofs.Diff.Replay
import TableDelta.Proofs.Diff.ReportedNames
import TableDelta.Proofs.Diff.Reversal
import TableDelta.Proofs.Diff.Unchanged
import TableDelta.Proofs.Json.Lexeme
import TableDelta.Proofs.Json.Members
import TableDelta.Proofs.Json.NumberLiteral
import TableDelta.Proofs.Json.Reader
import TableDelta.Proofs.Json.Writer
import TableDelta.Proofs.Report.HandOff
import TableDelta.Proofs.Snapshot.Declarations
import TableDelta.Proofs.Snapshot.Edits
import TableDelta.Proofs.Snapshot.Lookup
import TableDelta.Proofs.Text.Blank
import TableDelta.Proofs.Toml.Lines
import TableDelta.Proofs.Toml.Strings
import TableDelta.Proofs.Toml.Table
import TableDelta.Proofs.Wire.Config
import TableDelta.Proofs.Wire.Model
import TableDelta.Proofs.Wire.Snapshot
import TableDelta.Report
import TableDelta.Snapshot
import TableDelta.Text.Blank
import TableDelta.Text.Double
import TableDelta.Text.Numeral
import TableDelta.Toml.DateTime
import TableDelta.Toml.Layout
import TableDelta.Toml.Numeral
import TableDelta.Toml.Reader
import TableDelta.Toml.Strings
import TableDelta.Toml.Table
import TableDelta.Toml.Value
import TableDelta.Wire.Change
import TableDelta.Wire.Config
import TableDelta.Wire.Definition
import TableDelta.Wire.Model
import TableDelta.Wire.Report
import TableDelta.Wire.Snapshot
import TableDelta.Proofs.Definition.Blanks
import TableDelta.Proofs.Definition.Layout
import TableDelta.Proofs.Definition.Chained
import TableDelta.Proofs.Definition.Grouping
import TableDelta.Proofs.Definition.Respelling
import TableDelta.Proofs.Diff.Agreement
import TableDelta.Proofs.Diff.GrowthReport
import TableDelta.Proofs.Report.Counts
import TableDelta.Proofs.Wire.Forms
import TableDelta.Proofs.Snapshot.Merge
