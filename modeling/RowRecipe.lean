import RowRecipe.AggregateStats.Basic
import RowRecipe.AggregateStats.Totals
import RowRecipe.Arguments.Access
import RowRecipe.Arguments.Basic
import RowRecipe.Binary64.Basic
import RowRecipe.Binary64.Decimal
import RowRecipe.Binary64.Shortest
import RowRecipe.Binary64.Style
import RowRecipe.CommandLine.Basic
import RowRecipe.CommandLine.Execute
import RowRecipe.CommandLine.Input
import RowRecipe.CommandLine.Session
import RowRecipe.Context
import RowRecipe.Directive.Basic
import RowRecipe.Directive.Registry
import RowRecipe.Directive.Stage
import RowRecipe.Json.Basic
import RowRecipe.Json.Printer
import RowRecipe.Json.Reader
import RowRecipe.Lexeme.Basic
import RowRecipe.Lexeme.Block
import RowRecipe.Lexeme.Pattern
import RowRecipe.Lexeme.Scan
import RowRecipe.Main
import RowRecipe.Memory
import RowRecipe.OrderedMap
import RowRecipe.Pipeline.Basic
import RowRecipe.Pipeline.Batches
import RowRecipe.Pipeline.Error
import RowRecipe.Quantity.Basic
import RowRecipe.Quantity.ByteSize
import RowRecipe.Quantity.Literal
import RowRecipe.Quantity.TimeDuration
import RowRecipe.Row.Basic
import RowRecipe.Row.Cell
import RowRecipe.Settings.Basic
import RowRecipe.Settings.Document.Fields
import RowRecipe.Settings.Document.Layout
import RowRecipe.Settings.Document.Node
import RowRecipe.Settings.Document.Plain
import RowRecipe.Settings.Document.Quoted
import RowRecipe.Settings.Document.Space
import RowRecipe.Settings.Document.Token
import RowRecipe.Source.Position
import RowRecipe.Source.Span
import RowRecipe.SymbolTable.Basic
import RowRecipe.SymbolTable.Builder
import RowRecipe.SymbolTable.Error
import RowRecipe.SymbolTable.OfTree
import RowRecipe.Text.Character
import RowRecipe.Text.Utf8
import RowRecipe.Token.Basic
import RowRecipe.Token.Json
import RowRecipe.Token.Kind
import RowRecipe.Token.Numeral
import RowRecipe.Tree.Argument
import RowRecipe.Tree.Basic
import RowRecipe.Tree.Issue
import RowRecipe.Tree.Recipe
import RowRecipe.Usage
import RowRecipe.Proofs.Lexeme.Patterns
import RowRecipe.Proofs.Lexeme.Scanning
import RowRecipe.Proofs.Source.Frame
import RowRecipe.Proofs.Tree.Framing
import RowRecipe.Proofs.Tree.Readers
import RowRecipe.Proofs.AggregateStats.Amounts
import RowRecipe.Proofs.AggregateStats.Batching
import RowRecipe.Proofs.Pipeline.Isolation
import RowRecipe.Proofs.SymbolTable.Joining
import RowRecipe.Proofs.Directive.History
import RowRecipe.Proofs.Pipeline.Lifecycle
import RowRecipe.Proofs.Outcome
import RowRecipe.Proofs.Tree.Grammar
import RowRecipe.Proofs.Tree.Reading
import RowRecipe.Proofs.Lexeme.Order
import RowRecipe.Proofs.Tree.Extents
import RowRecipe.Proofs.Tree.Acceptance
import RowRecipe.Proofs.Lexeme.Shapes
import RowRecipe.Proofs.Quantity.Literals
import RowRecipe.Proofs.Tree.Literals
import RowRecipe.Proofs.SymbolTable.Outcomes
import RowRecipe.Proofs.Lexeme.Openings
import RowRecipe.Proofs.Written.Basic
import RowRecipe.Proofs.Written.Spelling
import RowRecipe.Proofs.Written.Reading
import RowRecipe.Proofs.Written.Compiling
import RowRecipe.Proofs.Text.Rows
import RowRecipe.Proofs.Source.Places
import RowRecipe.Proofs.Tree.Locations
import RowRecipe.Proofs.SymbolTable.Locations
import RowRecipe.Proofs.SymbolTable.Layout
import RowRecipe.Proofs.Row.RoundTrip
import RowRecipe.Proofs.Token.RoundTrip
import RowRecipe.Proofs.SymbolTable.Rebuilding
import RowRecipe.Proofs.Binary64.Decimal
import RowRecipe.Proofs.Binary64.Shortest
import RowRecipe.Proofs.Binary64.Writing
import RowRecipe.Proofs.Json.Numbers
import RowRecipe.Proofs.Directive.Builtin
import RowRecipe.Proofs.Pipeline.Reproducing
import RowRecipe.Proofs.Pipeline.Bookkeeping
import RowRecipe.Proofs.Pipeline.Batches
import RowRecipe.Proofs.Pipeline.Failing
import RowRecipe.Proofs.Json.Printing
import RowRecipe.Proofs.CommandLine.Sessions
import RowRecipe.Proofs.CommandLine.Lines
import RowRecipe.Proofs.CommandLine.Agreement
import RowRecipe.Proofs.CommandLine.Output
import RowRecipe.Proofs.Arguments.Binding
import RowRecipe.Proofs.Binary64.Equality
import RowRecipe.Proofs.Token.Contents
import RowRecipe.Proofs.Token.Equality
import RowRecipe.Proofs.Binary64.Range
import RowRecipe.Proofs.SymbolTable.Magnitudes
import RowRecipe.Proofs.Lexeme.Comments
import RowRecipe.Proofs.SymbolTable.Comments
import RowRecipe.Proofs.AggregateStats.Preparing
import RowRecipe.Proofs.Pipeline.Construction
import RowRecipe.Proofs.Quantity.Units
import RowRecipe.Proofs.Quantity.Shapes
import RowRecipe.Proofs.Quantity.Verdicts
import RowRecipe.Proofs.Lexeme.Blocks
import RowRecipe.Proofs.Lexeme.Kinds
import RowRecipe.Proofs.Lexeme.Tiling
import RowRecipe.Proofs.Tree.Faults
import RowRecipe.Proofs.Tree.Reports
import RowRecipe.Proofs.SymbolTable.Calls
import RowRecipe.Proofs.Lexeme.Depth
import RowRecipe.Proofs.SymbolTable.Arguments
import RowRecipe.Proofs.SymbolTable.Visits
import RowRecipe.Proofs.SymbolTable.AnyTree
import RowRecipe.Proofs.Quantity.Made
import RowRecipe.Proofs.Row.Decoding
import RowRecipe.Proofs.Pipeline.Watching
import RowRecipe.Proofs.Row.Changes
