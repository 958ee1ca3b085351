import Directory.Config
import Directory.Cursor.Basic
import Directory.Cursor.Place
import Directory.Cursor.Track
import Directory.Entry
import Directory.Error
import Directory.Filter.Basic
import Directory.Filter.Limits
import Directory.Filter.Normal
import Directory.Filter.Printer
import Directory.Filter.Reader
import Directory.Ident
import Directory.Index.Basic
import Directory.Index.Cursor
import Directory.Index.Tables
import Directory.Index.Walker
import Directory.Json.Basic
import Directory.Json.Decoder
import Directory.Json.Printer
import Directory.Json.Reader
import Directory.Json.Record
import Directory.Name.Basic
import Directory.Name.Reader
import Directory.Partition.Alias
import Directory.Partition.Basic
import Directory.Partition.Stats
import Directory.Partition.Transaction
import Directory.Partition.Write
import Directory.Schema
import Directory.Search.Build
import Directory.Search.Candidates
import Directory.Search.Cursor
import Directory.Search.Estimate
import Directory.Search.Evaluator
import Directory.Search.Leaves
import Directory.Search.Nested
import Directory.Search.Pattern
import Directory.Search.Request
import Directory.Search.Results
import Directory.Search.Run
import Directory.Search.Span
import Directory.Search.Walker
import Directory.Sorted.List
import Directory.Sorted.Map
import Directory.Sorted.Set
import Directory.Text.Blank
import Directory.Text.Decimal
import Directory.Text.Hex
import Directory.Text.LowerCase
import Directory.Text.LowerCase.Context
import Directory.Text.LowerCase.Table
import Directory.Value
import Directory.Proofs.Index.Batch
import Directory.Proofs.Index.Tuples
import Directory.Proofs.Steps
import Directory.Proofs.Partition.Rollback
import Directory.Proofs.Partition.Refusal
import Directory.Proofs.Partition.Effects
import Directory.Proofs.Partition.Reindex
import Directory.Proofs.Partition.Outcome
import Directory.Proofs.Partition.Relocation
import Directory.Proofs.Partition.Writes
import Directory.Proofs.Partition.History
import Directory.Proofs.Partition.NoTrace
import Directory.Proofs.Partition.Values
import Directory.Proofs.Partition.Tree
import Directory.Proofs.Name.Normalized
import Directory.Proofs.Partition.Naming
import Directory.Proofs.Partition.Links
import Directory.Proofs.Partition.Relinking
import Directory.Proofs.Partition.Aliases
import Directory.Proofs.Partition.AliasTuples
import Directory.Proofs.Partition.Complaints
import Directory.Proofs.Partition.Violations
import Directory.Proofs.Text.Folded
import Directory.Proofs.Name.Reread
import Directory.Proofs.Name.Display
import Directory.Proofs.Search.Stem
import Directory.Proofs.Search.Evaluator
import Directory.Proofs.Search.Candidates
import Directory.Proofs.Filter.Parts
import Directory.Proofs.Filter.Grammar
import Directory.Proofs.Filter.Items
import Directory.Proofs.Filter.Derivations
import Directory.Proofs.Filter.Written
import Directory.Proofs.Filter.Assertions
import Directory.Proofs.Filter.Reread
import Directory.Proofs.Filter.Limits
import Directory.Proofs.Search.Build
import Directory.Proofs.Cursor.Walk
import Directory.Proofs.Filter.Meaning
import Directory.Proofs.Search.Walk
import Directory.Proofs.Search.Run
import Directory.Proofs.Partition.AliasScopes
import Directory.Proofs.Partition.AliasChildren
import Directory.Proofs.Partition.Transactions
import Directory.Proofs.Search.Agreement
import Directory.Proofs.Cursor.Way
import Directory.Proofs.Cursor.Place
import Directory.Proofs.Cursor.Standing
import Directory.Proofs.Index.Walker
import Directory.Proofs.Search.Leaves
import Directory.Proofs.Search.Nested
import Directory.Proofs.Search.Span
import Directory.Proofs.Search.Walker
import Directory.Proofs.Search.Alike
import Directory.Proofs.Cursor.Position
import Directory.Proofs.Index.Position
import Directory.Proofs.Cursor.Spot
import Directory.Proofs.Index.Seeking
import Directory.Proofs.Search.Position
import Directory.Proofs.Search.Seeking
import Directory.Proofs.Search.Lasting
import Directory.Proofs.Search.Pass
import Directory.Proofs.Partition.Lookup
import Directory.Proofs.Partition.Modifications
import Directory.Proofs.Partition.Subtree
import Directory.Proofs.Text.Cutting
import Directory.Proofs.Search.OwnPieces
import Directory.Proofs.Partition.OwnNames
import Directory.Proofs.Search.Estimate
import Directory.Proofs.Search.Kept
import Directory.Proofs.Search.Bounds
import Directory.Proofs.Cursor.Turning
import Directory.Proofs.Search.TurnBack
import Directory.Proofs.Filter.Shape
import Directory.Proofs.Partition.WayUp
import Directory.Proofs.Partition.Noted
import Directory.Proofs.Partition.Climbs
