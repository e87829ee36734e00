import Cobrust.Dataflow.Flow
import Cobrust.Dataflow.Worklist
import Cobrust.Dataflow.Subdivision
import Cobrust.Control.Transition
import Cobrust.Types.Ty
import Cobrust.Frontend.Number
import Cobrust.Hir.Tree
import Cobrust.Types.ClassTable
import Cobrust.Mir.Tree
import Cobrust.Mir.Borrow
import Cobrust.Mir.BorrowSpec
import Cobrust.Mir.BorrowPaths
import Cobrust.Mir.Points
import Cobrust.Mir.MoveSafety
import Cobrust.Mir.Drop
import Cobrust.Mir.DropShape
import Cobrust.Mir.DropPaths
import Cobrust.Mir.DropOnce
import Cobrust.Mir.DropVerify
import Cobrust.Mir.DropSafety
import Cobrust.Mir.Lower.Literal
import Cobrust.Mir.Lower.Context
import Cobrust.Mir.Lower.Builder
import Cobrust.Mir.Lower.Read
import Cobrust.Mir.Lower.Call
import Cobrust.Mir.Lower.Operator
import Cobrust.Mir.Lower.Expr
import Cobrust.Mir.Lower.Stmt
import Cobrust.Mir.LowerExtent
import Cobrust.Mir.LowerStraight
import Cobrust.Mir.LowerStraightExpr
import Cobrust.Mir.LowerStraightComp
import Cobrust.Mir.LowerStmtExtent
import Cobrust.Mir.MatchPaths
import Cobrust.Types.Infer
import Cobrust.Unify.Triangular
import Cobrust.Types.Term
import Cobrust.Types.UnifySpec
import Cobrust.Types.UnifySound
import Cobrust.Graph.Discover
import Cobrust.Text.Split
import Cobrust.Mir.Lower.Schema
import Cobrust.Pit.Descriptor
import Cobrust.Pit.RoundTrip
import Cobrust.Pit.Validation
import Cobrust.Pit.Accessor
import Cobrust.Pit.Conformance
import Cobrust.Pit.OpenApi
import Cobrust.Pit.App
import Cobrust.Pit.Advertised
import Cobrust.Text.Utf8
import Cobrust.Frontend.Lexer
import Cobrust.Control.Outcome
import Cobrust.Frontend.NumberExtent
import Cobrust.Frontend.Layout
import Cobrust.Frontend.Balance
import Cobrust.Frontend.Spans
import Cobrust.Frontend.Words
import Cobrust.Lsp.LineMap
import Cobrust.Lsp.Document
import Cobrust.Lsp.BytePosition
import Cobrust.Lsp.MessageOffsets
import Cobrust.Lsp.TokenDelta
import Cobrust.Lsp.TokenHistory
import Cobrust.Lsp.Debounce
import Cobrust.Lsp.PublishHistory
import Cobrust.Lsp.Occurrences
import Cobrust.Lsp.Rename
import Cobrust.Codegen.Binop
import Cobrust.Codegen.Place
import Cobrust.Codegen.Assign
import Cobrust.Llvm.Numbers
import Cobrust.Codegen.Cast
import Cobrust.Codegen.Slots
import Cobrust.Codegen.FormatString
import Cobrust.Codegen.Terminator
import Cobrust.Store.Table
import Cobrust.Types.CheckCtx
import Cobrust.Types.CheckCtxHistory
import Cobrust.Pkg.Cache
import Cobrust.Pkg.CacheRuns
import Cobrust.Pkg.Manifest
import Cobrust.Graph.DepthFirst
import Cobrust.Pkg.Resolver
import Cobrust.Pkg.Requirements
import Cobrust.Toml.Document
import Cobrust.Store.Rows
import Cobrust.Toml.Slots
import Cobrust.Pkg.ManifestText
import Cobrust.Pkg.ManifestDocument
import Cobrust.Pkg.ManifestRead
import Cobrust.Pkg.ManifestRoundTrip
import Cobrust.Pkg.Lockfile
import Cobrust.Pkg.LockfileRoundTrip
import Cobrust.Runtime.List
import Cobrust.Runtime.ListRefines
import Cobrust.Runtime.Strings
import Cobrust.Router.Cache
import Cobrust.Router.Consensus
import Cobrust.Router.Retry
import Cobrust.Text.CompactJson
import Cobrust.Router.CacheKey
import Cobrust.Router.CacheAtomic
import Cobrust.Text.Marker
import Cobrust.Dap.Replies
import Cobrust.Dap.Breakpoints
import Cobrust.Mir.Exec
import Cobrust.Repl.Agreement
import Cobrust.Repl.Turn
import Cobrust.Repl.Session
import Cobrust.Mir.DropOrder
import Cobrust.Hir.AugAssign
import Cobrust.Store.FirstSeen
import Cobrust.Parity.Reread
import Cobrust.TypesCb.Refine
import Cobrust.Hir.CapturesExact
import Cobrust.Mir.Decisions
import Cobrust.Frontend.Parser.Total
import Cobrust.Pkg.WheelSelect
import Cobrust.Pkg.WheelIndex
import Cobrust.Pkg.Cycles
import Cobrust.Types.RefinementGrammar
import Cobrust.Pit.RefinementMeaning
import Cobrust.Pit.Overlap
import Cobrust.Pit.Dispatch
import Cobrust.Control.Program
import Cobrust.Types.Checker
import Cobrust.Types.Annotations
import Cobrust.Types.Statements
import Cobrust.Types.Exhaustive
import Cobrust.Types.Returns
import Cobrust.Types.Calls
import Cobrust.Types.Visits
import Cobrust.Types.Nominal
import Cobrust.Mir.Comprehension
import Cobrust.Build.Intrinsics
import Cobrust.Build.IntrinsicBinding
import Cobrust.Control.Reading
import Cobrust.Frontend.Parser.Ahead
import Cobrust.Frontend.Parser.Operators
import Cobrust.Frontend.Parser.Precedence
import Cobrust.Codegen.LocalTypes
import Cobrust.Text.Words
import Cobrust.Dap.Commands
import Cobrust.Translate.RepairLoop
import Cobrust.Translate.RepairRuns
import Cobrust.Text.Json
import Cobrust.Text.JsonLayout
import Cobrust.Runtime.Json
import Cobrust.Text.Stream
import Cobrust.Router.Streaming
import Cobrust.Build.IntrinsicDispatch
import Cobrust.Runtime.Prompt
import Cobrust.Runtime.Dict
import Cobrust.Router.DirectCalls
import Cobrust.Mir.Pipeline
