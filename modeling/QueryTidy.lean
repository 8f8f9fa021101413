import QueryTidy.Query.Format
import QueryTidy.Run.Batch
import QueryTidy.Program
import QueryTidy.Main
import QueryTidy.Proofs.Run.Concat
import QueryTidy.Proofs.Run.DryRun
import QueryTidy.Proofs.Run.Preview
import QueryTidy.Proofs.Number.Rounding
import QueryTidy.Proofs.Number.Shortest
import QueryTidy.Proofs.Number.Display
import QueryTidy.Proofs.Query.Cutting
import QueryTidy.Proofs.Query.Durations
import QueryTidy.Proofs.Query.Shape
import QueryTidy.Proofs.Query.Tokens
import QueryTidy.Proofs.Query.CutParts
import QueryTidy.Proofs.Query.CutClauses
import QueryTidy.Proofs.Query.CutLayout
import QueryTidy.Proofs.Query.ReadClauses
import QueryTidy.Proofs.Query.ReadQueries
import QueryTidy.Proofs.Query.ShapeTokens
import QueryTidy.Proofs.Query.ShapeClauses
import QueryTidy.Proofs.Query.ShapeQueries
import QueryTidy.Proofs.Query.Again
import QueryTidy.Proofs.Query.Preserved
import QueryTidy.Proofs.Run.Settled
import QueryTidy.Proofs.Run.Stability
import QueryTidy.Proofs.Run.Isolation
import QueryTidy.Proofs.CommandLine.Settings
import QueryTidy.Proofs.Query.Oversize
import QueryTidy.Proofs.Run.Unbroken
import QueryTidy.Proofs.Run.OneByOne
import QueryTidy.Proofs.Run.Turns
import QueryTidy.Proofs.Run.Sessions
import QueryTidy.Proofs.Run.Order
import QueryTidy.Proofs.Run.Fatal
import QueryTidy.Proofs.Run.Shown
import QueryTidy.Proofs.Run.Messages
import QueryTidy.Preview.Exchange
import QueryTidy.Proofs.Preview.Exchange
import QueryTidy.Proofs.CommandLine.Pending
import QueryTidy.Proofs.CommandLine.Verbose
import QueryTidy.Proofs.Preview.Found
import QueryTidy.Proofs.Run.Logging
import QueryTidy.Proofs.Run.Spellings
import QueryTidy.Proofs.Run.ToolChoice
import QueryTidy.Proofs.Text.Decoding
import QueryTidy.Proofs.Run.Sources
import QueryTidy.Proofs.Run.ReadBack
import QueryTidy.Proofs.Preview.Reading
import QueryTidy.Proofs.Query.Endings
import QueryTidy.Proofs.Run.LineEnds
import QueryTidy.Proofs.Text.Pieces
import QueryTidy.Proofs.Preview.Version
import QueryTidy.Proofs.CommandLine.Mixed
import QueryTidy.Proofs.Files.Components
import QueryTidy.Proofs.Run.Lookup
import QueryTidy.Proofs.Query.Lookahead
import QueryTidy.Proofs.Query.Surroundings
import QueryTidy.Proofs.Run.Surroundings
import QueryTidy.Proofs.Number.Accuracy
import QueryTidy.Proofs.Number.Written
import QueryTidy.Proofs.Query.Metrics
import QueryTidy.Proofs.Query.Times
import QueryTidy.Proofs.Query.Lengths
import QueryTidy.Proofs.Query.Operations
import QueryTidy.Proofs.Query.VectorMatching
