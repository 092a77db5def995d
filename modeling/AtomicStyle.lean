import AtomicStyle.Bucket
import AtomicStyle.ClassName.Basic
import AtomicStyle.ClassName.Compose
import AtomicStyle.ClassName.Compression
import AtomicStyle.ClassName.Reader
import AtomicStyle.Compile.Cache
import AtomicStyle.Compile.ClassItems
import AtomicStyle.Compile.Compiler
import AtomicStyle.Compile.Expression
import AtomicStyle.Compile.Options
import AtomicStyle.Compile.Site
import AtomicStyle.Compile.Source
import AtomicStyle.Css.Lexeme
import AtomicStyle.Css.Property
import AtomicStyle.Css.Shorthand
import AtomicStyle.Css.Value
import AtomicStyle.Digest
import AtomicStyle.Distinct
import AtomicStyle.Expr.Basic
import AtomicStyle.Expr.Printer
import AtomicStyle.Json.Basic
import AtomicStyle.Json.Reader
import AtomicStyle.Live.Document
import AtomicStyle.Live.Fault
import AtomicStyle.Live.Host
import AtomicStyle.Live.Manager
import AtomicStyle.Live.Markup
import AtomicStyle.Live.RuleText
import AtomicStyle.Live.State
import AtomicStyle.Module.Graph
import AtomicStyle.Module.Path
import AtomicStyle.Module.Reference
import AtomicStyle.Module.Unit
import AtomicStyle.Number.Binary
import AtomicStyle.Number.Reader
import AtomicStyle.Number.Shortest
import AtomicStyle.Ordered
import AtomicStyle.Proofs.Atomizing
import AtomicStyle.Proofs.Caching
import AtomicStyle.Proofs.Composition
import AtomicStyle.Proofs.Distinct
import AtomicStyle.Proofs.Grouping
import AtomicStyle.Proofs.Lowering
import AtomicStyle.Proofs.Naming
import AtomicStyle.Proofs.Words
import AtomicStyle.Rule.Atomic
import AtomicStyle.Rule.Atomize
import AtomicStyle.Selector.Basic
import AtomicStyle.Selector.Context
import AtomicStyle.Sheet.Arrange
import AtomicStyle.Sheet.Basic
import AtomicStyle.Sorted
import AtomicStyle.Span
import AtomicStyle.Style.Block
import AtomicStyle.Style.Entry
import AtomicStyle.Style.Fault
import AtomicStyle.Style.Input
import AtomicStyle.Style.Parser
import AtomicStyle.Style.Resolution
import AtomicStyle.Text.Alphanumeric
import AtomicStyle.Text.Blank
import AtomicStyle.Text.Measure
import AtomicStyle.Text.Nesting
import AtomicStyle.Text.Quoted
import AtomicStyle.Text.Search
import AtomicStyle.Value.Basic
import AtomicStyle.Value.Evaluation
import AtomicStyle.Value.Helper
import AtomicStyle.Value.Obstacle
import AtomicStyle.Proofs.Arrangement
import AtomicStyle.Proofs.Retention
import AtomicStyle.Proofs.Insertion
import AtomicStyle.Proofs.Lexing
import AtomicStyle.Proofs.RuleKeys
import AtomicStyle.Proofs.Delivery
import AtomicStyle.Proofs.History
import AtomicStyle.Proofs.Bucketing
import AtomicStyle.Proofs.Cascade
import AtomicStyle.Proofs.Slots
import AtomicStyle.Proofs.Overwriting
import AtomicStyle.Proofs.Reading
import AtomicStyle.Proofs.Levels
import AtomicStyle.Proofs.Ordering
import AtomicStyle.Proofs.Sharing
import AtomicStyle.Proofs.Collapsing
import AtomicStyle.Proofs.Sealing
import AtomicStyle.Proofs.Declaring
import AtomicStyle.Proofs.Splicing
import AtomicStyle.Proofs.Compressing
import AtomicStyle.Proofs.Searching
import AtomicStyle.Proofs.Scanning
import AtomicStyle.Proofs.Hydration
import AtomicStyle.Proofs.Writing
import AtomicStyle.Proofs.SheetKeys
import AtomicStyle.Proofs.Importance
import AtomicStyle.Proofs.Convergence
import AtomicStyle.Proofs.Depth
import AtomicStyle.Proofs.Termination
import AtomicStyle.Proofs.Reassembly
import AtomicStyle.Proofs.Spelling
import AtomicStyle.Proofs.Closure
import AtomicStyle.Proofs.Interpolation
import AtomicStyle.Proofs.Rewriting
import AtomicStyle.Proofs.Concatenation
import AtomicStyle.Proofs.Comments
import AtomicStyle.Proofs.Preludes
import AtomicStyle.Proofs.CommentRemoval
import AtomicStyle.Proofs.Quoting
import AtomicStyle.Proofs.Lookup
import AtomicStyle.Proofs.Reporting
import AtomicStyle.Proofs.Offsets
import AtomicStyle.Proofs.SelfReference
import AtomicStyle.Proofs.Slicing
import AtomicStyle.Proofs.Cursor
import AtomicStyle.Proofs.Parsing
import AtomicStyle.Proofs.ImpliedSelf
import AtomicStyle.Proofs.Rearrangement
import AtomicStyle.Proofs.WordOrder
import AtomicStyle.Proofs.Numbering
import AtomicStyle.Proofs.Mixing
import AtomicStyle.Proofs.NormalForm
import AtomicStyle.Proofs.Respelling
import AtomicStyle.Proofs.Decimals
import AtomicStyle.Proofs.PlainForm
import AtomicStyle.Proofs.SourceReader
import AtomicStyle.Proofs.Rereading
