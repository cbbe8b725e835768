import RouterShift.CommandLine.Arguments
import RouterShift.CommandLine.Config
import RouterShift.CommandLine.Run
import RouterShift.Console.Notice
import RouterShift.Console.Progress
import RouterShift.Console.Style
import RouterShift.Decimal.Double
import RouterShift.Decimal.Shortest
import RouterShift.Disk.Copy
import RouterShift.Disk.Entry
import RouterShift.Disk.Ignore
import RouterShift.Disk.Placement
import RouterShift.Disk.Search
import RouterShift.Disk.Walk
import RouterShift.Edit
import RouterShift.Grammar.Peg
import RouterShift.Grammar.Tree
import RouterShift.Json.Number
import RouterShift.Json.Printer
import RouterShift.Json.Reader
import RouterShift.Json.Record
import RouterShift.Json.Value
import RouterShift.Main
import RouterShift.Markup.Migration
import RouterShift.Markup.Node
import RouterShift.Markup.Reader
import RouterShift.Package.Manifest
import RouterShift.Package.Metadata
import RouterShift.Package.Name
import RouterShift.Package.Registry
import RouterShift.Patch.Compaction
import RouterShift.Patch.Script
import RouterShift.Patch.Unified
import RouterShift.Path
import RouterShift.Report
import RouterShift.Report.Document
import RouterShift.Shell.Expansion
import RouterShift.Shell.Printing
import RouterShift.Shell.Process
import RouterShift.Shell.Reader
import RouterShift.Shell.Run
import RouterShift.Shell.Script
import RouterShift.Shell.Token
import RouterShift.Shell.Tools
import RouterShift.Span
import RouterShift.Text.Blank
import RouterShift.Text.Cursor
import RouterShift.Text.Cut
import RouterShift.Text.Number
import RouterShift.Text.Pattern
import RouterShift.Text.Percent
import RouterShift.Text.Utf8
import RouterShift.Toml.Document
import RouterShift.Toml.Reader
import RouterShift.Toml.Scalar
import RouterShift.Toml.Token
import RouterShift.TypeScript.Component
import RouterShift.TypeScript.ExpressionForm
import RouterShift.TypeScript.Grammar
import RouterShift.TypeScript.Lexeme
import RouterShift.TypeScript.Literal
import RouterShift.TypeScript.ParamsHook
import RouterShift.TypeScript.Rule
import RouterShift.TypeScript.SourceFile
import RouterShift.TypeScript.StatementForm
import RouterShift.TypeScript.Tree
import RouterShift.TypeScript.TypeForm
import RouterShift.Upgrade.Checkout
import RouterShift.Upgrade.Command
import RouterShift.Upgrade.Diagnosis
import RouterShift.Upgrade.Majors
import RouterShift.Upgrade.Rehearsal
import RouterShift.Upgrade.Repair
import RouterShift.Upgrade.Session
import RouterShift.Upgrade.Settings
import RouterShift.Version.Basic
import RouterShift.Version.Range
import RouterShift.Version.Requirement
import RouterShift.Vocabulary
import RouterShift.Workspace.Failure
import RouterShift.Workspace.Plan
import RouterShift.Workspace.Rename
import RouterShift.Workspace.Roots
import RouterShift.Workspace.Tree
import RouterShift.Proofs.Chain
import RouterShift.Proofs.Edit.Selection
import RouterShift.Proofs.Edit.Simultaneous
import RouterShift.Proofs.Edit.Batch
import RouterShift.Proofs.Markup.Equations
import RouterShift.Proofs.Markup.Written
import RouterShift.Proofs.Text.Cursor
import RouterShift.Proofs.Edit.Pieces
import RouterShift.Proofs.Markup.Lossless
import RouterShift.Proofs.Markup.Migrated
import RouterShift.Proofs.Markup.Migration
import RouterShift.Proofs.Markup.Plain
import RouterShift.Proofs.Markup.Fixpoint
import RouterShift.Proofs.Markup.Collisions
import RouterShift.Proofs.Text.Utf8
import RouterShift.Proofs.Text.Pattern
import RouterShift.Proofs.Disk.Entry
import RouterShift.Proofs.Json.Reader
import RouterShift.Proofs.Json.Scalar
import RouterShift.Proofs.Json.Value
import RouterShift.Proofs.Json.RoundTrip
import RouterShift.Proofs.Json.Lasting
import RouterShift.Proofs.Package.Manifest
import RouterShift.Proofs.Upgrade.Work
import RouterShift.Proofs.Upgrade.Repair
import RouterShift.Proofs.Upgrade.Course
import RouterShift.Proofs.Upgrade.Climb
import RouterShift.Proofs.Upgrade.Frame
import RouterShift.Proofs.Edit.Moved
import RouterShift.Proofs.TypeScript.Literal
import RouterShift.Proofs.Grammar.Nesting
import RouterShift.Proofs.TypeScript.Sound
import RouterShift.Proofs.TypeScript.Declarations
import RouterShift.Proofs.TypeScript.Standing
import RouterShift.Proofs.TypeScript.Edited
import RouterShift.Proofs.TypeScript.Splice
import RouterShift.Proofs.Grammar.Peg
import RouterShift.Proofs.TypeScript.Forms
import RouterShift.Proofs.Workspace.Templates
import RouterShift.Proofs.Workspace.Plan
import RouterShift.Proofs.Package.Persistence
import RouterShift.Proofs.Path.Order
import RouterShift.Proofs.Workspace.Files
import RouterShift.Proofs.Workspace.Changes
import RouterShift.Proofs.Workspace.Effect
import RouterShift.Proofs.TypeScript.Swapped
import RouterShift.Proofs.TypeScript.ReadBack
import RouterShift.Proofs.Disk.Glance
import RouterShift.Proofs.Path.Components
import RouterShift.Proofs.Disk.Rewrite
import RouterShift.Proofs.Workspace.OnDisk
import RouterShift.Proofs.Upgrade.Trail
import RouterShift.Proofs.Upgrade.Passage
import RouterShift.Proofs.Upgrade.Checkout
import RouterShift.Proofs.Markup.Rendered
import RouterShift.Proofs.Text.Number
import RouterShift.Proofs.Patch.Script
import RouterShift.Proofs.Patch.Hunks
import RouterShift.Proofs.Patch.Reading
import RouterShift.Proofs.Text.Bytes
import RouterShift.Proofs.Markup.Scanner
import RouterShift.Proofs.Markup.Scanning
import RouterShift.Proofs.Markup.Scanned
import RouterShift.Proofs.Decimal.Double
import RouterShift.Proofs.Decimal.Shortest
import RouterShift.Proofs.Json.Layout
import RouterShift.Proofs.Json.Reread
import RouterShift.Proofs.Package.Maintenance
import RouterShift.Proofs.Package.Renamed
import RouterShift.Proofs.Markup.Attempts
import RouterShift.Proofs.Markup.Closing
import RouterShift.Proofs.Markup.RawText
import RouterShift.Proofs.Workspace.Renaming
import RouterShift.Proofs.Workspace.Unmentioned
import RouterShift.Proofs.Package.Compatible
import RouterShift.Proofs.Version.Order
import RouterShift.Proofs.Version.Reading
import RouterShift.Proofs.Version.Range
import RouterShift.Proofs.Version.Pin
import RouterShift.Proofs.Upgrade.Abort
import RouterShift.Proofs.Upgrade.Diagnosis
import RouterShift.Proofs.Markup.Untouched
import RouterShift.Proofs.Text.Split
import RouterShift.Proofs.Package.Sections
import RouterShift.Proofs.TypeScript.HookPlaces
import RouterShift.Proofs.TypeScript.Insertions
import RouterShift.Proofs.TypeScript.HookInsertions
import RouterShift.Proofs.TypeScript.Growth
import RouterShift.Proofs.TypeScript.HookOnce
import RouterShift.Proofs.TypeScript.RouteImport
import RouterShift.Proofs.Path.Evaluation
import RouterShift.Proofs.Workspace.TemplatePaths
import RouterShift.Proofs.Disk.Files
import RouterShift.Proofs.Disk.Walk
import RouterShift.Proofs.Workspace.Listing
import RouterShift.Proofs.Disk.Search
import RouterShift.Proofs.Workspace.RootLists
