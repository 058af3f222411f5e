import Assay.Assertion.Descriptor
import Assay.Assertion.Instrument
import Assay.Assertion.Literal
import Assay.Assertion.Mask
import Assay.Assertion.Scan
import Assay.Assertion.Statement
import Assay.Bisect
import Assay.Codec.Base64
import Assay.Codec.Vlq
import Assay.Command.Config
import Assay.Command.InstrumentRun
import Assay.Command.Invocation
import Assay.Command.Line
import Assay.Command.Run
import Assay.Command.ScriptFile
import Assay.Coverage.Attribution
import Assay.Coverage.Options
import Assay.Coverage.Report
import Assay.Coverage.Trace
import Assay.Edit.Basic
import Assay.Edit.OffsetMap
import Assay.Expression.Basic
import Assay.Expression.Printer
import Assay.Files.Glob
import Assay.Files.Path
import Assay.Files.Tree
import Assay.Grammar.Expression
import Assay.Grammar.Function
import Assay.Grammar.Module
import Assay.Grammar.Operands
import Assay.Grammar.Parser
import Assay.Grammar.Pattern
import Assay.Grammar.Statement
import Assay.Grammar.Token
import Assay.Grammar.Tree
import Assay.Json.Printer
import Assay.Json.Reader
import Assay.Json.Record
import Assay.Main
import Assay.Proofs.Assertion.ByLine
import Assay.Proofs.Assertion.Declared
import Assay.Proofs.Assertion.Growth
import Assay.Proofs.Assertion.Instrumented
import Assay.Proofs.Assertion.Joined
import Assay.Proofs.Assertion.LiteralText
import Assay.Proofs.Assertion.Literals
import Assay.Proofs.Assertion.Located
import Assay.Proofs.Assertion.Masked
import Assay.Proofs.Assertion.Nested
import Assay.Proofs.Assertion.Operands
import Assay.Proofs.Assertion.Regions
import Assay.Proofs.Assertion.Relaid
import Assay.Proofs.Assertion.Replacement
import Assay.Proofs.Assertion.Reported
import Assay.Proofs.Assertion.Selected
import Assay.Proofs.Assertion.Temporaries
import Assay.Proofs.Assertion.Unambiguous
import Assay.Proofs.Codec.Base64
import Assay.Proofs.Codec.Delimited
import Assay.Proofs.Codec.Quantity
import Assay.Proofs.Codec.Shortest
import Assay.Proofs.Codec.Vlq
import Assay.Proofs.Command.Collisions
import Assay.Proofs.Command.InTree
import Assay.Proofs.Command.Separate
import Assay.Proofs.Coverage.Ascending
import Assay.Proofs.Coverage.Bounded
import Assay.Proofs.Coverage.Bracketed
import Assay.Proofs.Coverage.Hits
import Assay.Proofs.Coverage.Instrumented
import Assay.Proofs.Coverage.Merged
import Assay.Proofs.Coverage.Reached
import Assay.Proofs.Coverage.Records
import Assay.Proofs.Coverage.Remapped
import Assay.Proofs.Coverage.Resolved
import Assay.Proofs.Coverage.Runs
import Assay.Proofs.Coverage.Statements
import Assay.Proofs.Edit.Origins
import Assay.Proofs.Edit.Parts
import Assay.Proofs.Edit.Permuted
import Assay.Proofs.Edit.Splice
import Assay.Proofs.Edit.Tiling
import Assay.Proofs.Expression.Moved
import Assay.Proofs.Expression.OneLine
import Assay.Proofs.Expression.Prefixes
import Assay.Proofs.Expression.Requoted
import Assay.Proofs.Expression.Unfused
import Assay.Proofs.Expression.Written
import Assay.Proofs.Files.Places
import Assay.Proofs.Grammar.Begins
import Assay.Proofs.Grammar.LongestMatch
import Assay.Proofs.Json.RoundTrip
import Assay.Proofs.Json.Scalar
import Assay.Proofs.SourceMap.Accepted
import Assay.Proofs.SourceMap.Canonical
import Assay.Proofs.SourceMap.Decoding
import Assay.Proofs.SourceMap.Document
import Assay.Proofs.SourceMap.Inline
import Assay.Proofs.SourceMap.LastMarker
import Assay.Proofs.SourceMap.Mappings
import Assay.Proofs.SourceMap.Rendered
import Assay.Proofs.SourceMap.RoundTrip
import Assay.Proofs.SourceMap.Segments
import Assay.Proofs.SourceMap.Session
import Assay.Proofs.SourceMap.TableScan
import Assay.Proofs.Text.Counted
import Assay.Proofs.Text.Decimal
import Assay.Proofs.Text.Encodings
import Assay.Proofs.Text.LineEnds
import Assay.Proofs.Text.LineIndex
import Assay.Proofs.Text.LineStarts
import Assay.Proofs.Text.Positions
import Assay.Proofs.Text.Trimmed
import Assay.Proofs.Text.Words
import Assay.SourceMap.Basic
import Assay.SourceMap.Document
import Assay.SourceMap.Lookup
import Assay.SourceMap.Mappings
import Assay.Text.Category
import Assay.Text.Decimal
import Assay.Text.LineIndex
import Assay.Text.Lines
import Assay.Text.Search
import Assay.Text.Units
