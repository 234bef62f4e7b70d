import PackageManifest.Addition
import PackageManifest.CommandLine.Options
import PackageManifest.CommandLine.Paint
import PackageManifest.CommandLine.Report
import PackageManifest.CommandLine.Run
import PackageManifest.CommandLine.Watched
import PackageManifest.Dependency
import PackageManifest.Diagnostic
import PackageManifest.Diff.Compact
import PackageManifest.Diff.Lines
import PackageManifest.Diff.Script
import PackageManifest.Diff.Unified
import PackageManifest.Edit.Argument
import PackageManifest.Edit.Array
import PackageManifest.Edit.Basic
import PackageManifest.Edit.Elements
import PackageManifest.Failure
import PackageManifest.Files
import PackageManifest.Json.Basic
import PackageManifest.Json.Number
import PackageManifest.Json.Printer
import PackageManifest.Json.Reader
import PackageManifest.Layout
import PackageManifest.Main
import PackageManifest.Package.Dump
import PackageManifest.Package.Info
import PackageManifest.Proofs.Acceptance
import PackageManifest.Proofs.Addition.Alterations
import PackageManifest.Proofs.Addition.Declaring
import PackageManifest.Proofs.Addition.Dependencies
import PackageManifest.Proofs.Addition.Duplicates
import PackageManifest.Proofs.Addition.Failures
import PackageManifest.Proofs.Addition.LineEndings
import PackageManifest.Proofs.Addition.Meaning
import PackageManifest.Proofs.Addition.Order
import PackageManifest.Proofs.Addition.Preservation
import PackageManifest.Proofs.Addition.Reports
import PackageManifest.Proofs.Addition.Runs
import PackageManifest.Proofs.Addition.Specification
import PackageManifest.Proofs.Addition.Wiring
import PackageManifest.Proofs.Altering
import PackageManifest.Proofs.Bare
import PackageManifest.Proofs.Bindings
import PackageManifest.Proofs.CommandLine.Endings
import PackageManifest.Proofs.Edits.Arguments
import PackageManifest.Proofs.Edits.Arrays
import PackageManifest.Proofs.Edits.Fields
import PackageManifest.Proofs.Edits.Insertion
import PackageManifest.Proofs.Edits.Keeping
import PackageManifest.Proofs.Edits.Plain
import PackageManifest.Proofs.Edits.Shapes
import PackageManifest.Proofs.Faithful
import PackageManifest.Proofs.Files
import PackageManifest.Proofs.Grammar.Budgets
import PackageManifest.Proofs.Grammar.Completeness
import PackageManifest.Proofs.Grammar.Ends
import PackageManifest.Proofs.Grammar.Locality
import PackageManifest.Proofs.Grammar.Matching
import PackageManifest.Proofs.Grammar.Nodes
import PackageManifest.Proofs.Grammar.Reading
import PackageManifest.Proofs.Grammar.Rebinding
import PackageManifest.Proofs.Grammar.Refusals
import PackageManifest.Proofs.Grammar.Replacing
import PackageManifest.Proofs.Grammar.Rules
import PackageManifest.Proofs.Grammar.Shapes
import PackageManifest.Proofs.Grammar.Slots
import PackageManifest.Proofs.Grammar.Soundness
import PackageManifest.Proofs.Grammar.Statements
import PackageManifest.Proofs.Grammar.WellMatched
import PackageManifest.Proofs.Indentation
import PackageManifest.Proofs.Insertions.Arguments
import PackageManifest.Proofs.Insertions.Elements
import PackageManifest.Proofs.Insertions.Lines
import PackageManifest.Proofs.Insertions.Places
import PackageManifest.Proofs.Lexing.Cut
import PackageManifest.Proofs.Lexing.Decoding
import PackageManifest.Proofs.Lexing.Faults
import PackageManifest.Proofs.Lexing.Lexed
import PackageManifest.Proofs.Lexing.LineBreaks
import PackageManifest.Proofs.Lexing.Literals
import PackageManifest.Proofs.Lexing.Pieces
import PackageManifest.Proofs.Lexing.Placement
import PackageManifest.Proofs.Lexing.Scans
import PackageManifest.Proofs.Lexing.Seams
import PackageManifest.Proofs.Lexing.Splice
import PackageManifest.Proofs.Lexing.Strings
import PackageManifest.Proofs.Locations
import PackageManifest.Proofs.Naming
import PackageManifest.Proofs.Navigation
import PackageManifest.Proofs.Nesting
import PackageManifest.Proofs.Positions
import PackageManifest.Proofs.ReadingBack
import PackageManifest.Proofs.Rejection
import PackageManifest.Proofs.Replacement
import PackageManifest.Proofs.Rereading
import PackageManifest.Proofs.Revisions
import PackageManifest.Proofs.RoundTrip
import PackageManifest.Proofs.Selection
import PackageManifest.Proofs.Shapes
import PackageManifest.Proofs.Sites
import PackageManifest.Proofs.Snippets
import PackageManifest.Proofs.Splicing
import PackageManifest.Proofs.Surroundings
import PackageManifest.Proofs.Trees
import PackageManifest.Proofs.Types
import PackageManifest.Proofs.Versions.Listing
import PackageManifest.Proofs.Versions.Order
import PackageManifest.Repository
import PackageManifest.Settings.Basic
import PackageManifest.Settings.Lookup
import PackageManifest.Snippet
import PackageManifest.Source.Cursor
import PackageManifest.Source.Expression
import PackageManifest.Source.Kind
import PackageManifest.Source.Lexeme
import PackageManifest.Source.Literal
import PackageManifest.Source.ParseError
import PackageManifest.Source.Statement
import PackageManifest.Source.StringScan
import PackageManifest.Source.Token
import PackageManifest.Source.Tree
import PackageManifest.Source.Trivia
import PackageManifest.Source.View
import PackageManifest.Text.Basic
import PackageManifest.Text.Blank
import PackageManifest.Text.Letters
import PackageManifest.Text.LowerCase
import PackageManifest.Text.Ranges
import PackageManifest.Toml.Basic
import PackageManifest.Toml.Blank
import PackageManifest.Toml.Moment
import PackageManifest.Toml.Quoted
import PackageManifest.Toml.Reader
import PackageManifest.Toml.Scalar
import PackageManifest.Version
