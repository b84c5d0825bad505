import JsonnetTree.Codec.Basic
import JsonnetTree.Codec.Complaint
import JsonnetTree.Codec.Record
import JsonnetTree.Codec.Variant
import JsonnetTree.Command
import JsonnetTree.CommandLine.Arguments
import JsonnetTree.CommandLine.Outcome
import JsonnetTree.Depth
import JsonnetTree.Diagnostic.Margin
import JsonnetTree.Diagnostic.Snippet
import JsonnetTree.Diagnostic.Span
import JsonnetTree.Document.Load
import JsonnetTree.Document.Schema
import JsonnetTree.Expansion
import JsonnetTree.Expr.Basic
import JsonnetTree.Expr.Build
import JsonnetTree.Expr.Children
import JsonnetTree.Expr.Form
import JsonnetTree.Expr.FormLaws
import JsonnetTree.Expr.Parts
import JsonnetTree.Expr.Recursion
import JsonnetTree.Expr.RecursionLaws
import JsonnetTree.Expr.Search
import JsonnetTree.Failure
import JsonnetTree.Fodder
import JsonnetTree.Graph
import JsonnetTree.Import
import JsonnetTree.Json.Brackets
import JsonnetTree.Json.Number
import JsonnetTree.Json.Printer
import JsonnetTree.Json.Reader
import JsonnetTree.Json.Real
import JsonnetTree.Json.Token
import JsonnetTree.Json.Value
import JsonnetTree.Layout.Fill
import JsonnetTree.Layout.Literal
import JsonnetTree.Layout.Piece
import JsonnetTree.Layout.Printer
import JsonnetTree.Location
import JsonnetTree.Lowering
import JsonnetTree.Main
import JsonnetTree.Numbering
import JsonnetTree.Operator
import JsonnetTree.Proofs.Codec.Members
import JsonnetTree.Proofs.Codec.Provenance
import JsonnetTree.Proofs.Codec.RoundTrip
import JsonnetTree.Proofs.Command
import JsonnetTree.Proofs.Depth
import JsonnetTree.Proofs.Diagnostic.Offset
import JsonnetTree.Proofs.Diagnostic.Span
import JsonnetTree.Proofs.Document.Bounds
import JsonnetTree.Proofs.Document.DepthBound
import JsonnetTree.Proofs.Document.Height
import JsonnetTree.Proofs.Document.Levels
import JsonnetTree.Proofs.Document.Nesting
import JsonnetTree.Proofs.Document.Reload
import JsonnetTree.Proofs.Document.RoundTrip
import JsonnetTree.Proofs.Document.SchemaRelation
import JsonnetTree.Proofs.Document.Style
import JsonnetTree.Proofs.Expansion.Basic
import JsonnetTree.Proofs.Expansion.Commutation
import JsonnetTree.Proofs.Expansion.Cycles
import JsonnetTree.Proofs.Expansion.Fixpoint
import JsonnetTree.Proofs.Expansion.Limit
import JsonnetTree.Proofs.Expansion.LoweredBindings
import JsonnetTree.Proofs.Expansion.Substitution
import JsonnetTree.Proofs.Expr.Children
import JsonnetTree.Proofs.Expr.MapChildren
import JsonnetTree.Proofs.Expr.Occurrences
import JsonnetTree.Proofs.Expr.Outline
import JsonnetTree.Proofs.Expr.Reach
import JsonnetTree.Proofs.Expr.Search
import JsonnetTree.Proofs.Graph
import JsonnetTree.Proofs.Graph.Labels
import JsonnetTree.Proofs.Graph.Reading
import JsonnetTree.Proofs.Json.Nesting
import JsonnetTree.Proofs.Json.Reading
import JsonnetTree.Proofs.Json.Scanning
import JsonnetTree.Proofs.Layout.ClauseOrder
import JsonnetTree.Proofs.Layout.Comments
import JsonnetTree.Proofs.Layout.Front
import JsonnetTree.Proofs.Layout.ImportOrder
import JsonnetTree.Proofs.Layout.Items
import JsonnetTree.Proofs.Layout.Notes
import JsonnetTree.Proofs.Layout.Padding
import JsonnetTree.Proofs.Layout.Printed
import JsonnetTree.Proofs.Layout.Script
import JsonnetTree.Proofs.Layout.Spacing
import JsonnetTree.Proofs.Layout.Template
import JsonnetTree.Proofs.Layout.TextBlock
import JsonnetTree.Proofs.Layout.Verbatim
import JsonnetTree.Proofs.Layout.Words
import JsonnetTree.Proofs.Layout.Written
import JsonnetTree.Proofs.Lowering
import JsonnetTree.Proofs.Lowering.Depth
import JsonnetTree.Proofs.Lowering.Faults
import JsonnetTree.Proofs.Lowering.Findings
import JsonnetTree.Proofs.Lowering.Levels
import JsonnetTree.Proofs.Lowering.References
import JsonnetTree.Proofs.Lowering.Text
import JsonnetTree.Proofs.Numbering
import JsonnetTree.Proofs.Outcome
import JsonnetTree.Proofs.Shape
import JsonnetTree.Proofs.Symbol.Context
import JsonnetTree.Proofs.Symbol.Places
import JsonnetTree.Proofs.Symbol.Source
import JsonnetTree.Proofs.Walk.Run
import JsonnetTree.Proofs.Walk.Tour
import JsonnetTree.Report
import JsonnetTree.Shape
import JsonnetTree.Symbol
import JsonnetTree.Text.Blank
import JsonnetTree.Text.Lines
import JsonnetTree.Text.Printable
import JsonnetTree.Text.Quoted
import JsonnetTree.Text.Utf8
import JsonnetTree.Walk
