import Saturate.Binary64.Basic
import Saturate.Binary64.Shortest
import Saturate.Binary64.Text
import Saturate.Text.Escaped
import Saturate.Text.Quote
import Saturate.Text.Hash
import Saturate.NameTable
import Saturate.Value
import Saturate.Syntax.Expr
import Saturate.Syntax.Command
import Saturate.Syntax.Names
import Saturate.SortInfo
import Saturate.Pool
import Saturate.UnionFind
import Saturate.Error
import Saturate.Binary64.Arith
import Saturate.Prim.Basic
import Saturate.Prim.Apply
import Saturate.Typing.Core
import Saturate.Typing.Constraint
import Saturate.Typing.Info
import Saturate.Typing.Resolve
import Saturate.Table
import Saturate.Table.Range
import Saturate.Container
import Saturate.Program
import Saturate.Func
import Saturate.Query
import Saturate.Report
import Saturate.TermDag
import Saturate.Session.Basic
import Saturate.Session.Actions
import Saturate.Session.Rebuild
import Saturate.Session.Check
import Saturate.Session.Schedule
import Saturate.Extract
import Saturate.Session.Commands
import Saturate.Snapshot
import Saturate.Session.Interface
import Saturate.Proofs.Session.Frame
import Saturate.Proofs.Session.Rollback
import Saturate.Proofs.Query.Settle
import Saturate.Proofs.Query.Search
import Saturate.Proofs.Query.Schedule
import Saturate.Proofs.Prim.Typed
import Saturate.Proofs.Query.Frame
import Saturate.Proofs.Query.Select
import Saturate.Proofs.Query.Join
import Saturate.Proofs.UnionFind.Partition
import Saturate.Proofs.UnionFind.Forest
import Saturate.Proofs.UnionFind.Depth
import Saturate.Proofs.Table.Clock
import Saturate.Proofs.Table.Rebuild
import Saturate.Proofs.Table.Index
import Saturate.Proofs.Table.Map
import Saturate.Proofs.Table.Range
import Saturate.Proofs.Table.Dirty
import Saturate.Proofs.Session.Writes
import Saturate.Proofs.Session.Clock
import Saturate.Proofs.Session.Moves
import Saturate.Proofs.Session.Reachable
import Saturate.Proofs.Session.Changes
import Saturate.Proofs.Session.Kept
import Saturate.Proofs.Session.Sticky
import Saturate.Proofs.Query.Seminaive
import Saturate.Proofs.Session.Interpreter
import Saturate.Proofs.Session.Iteration
import Saturate.Proofs.Session.Scopes
import Saturate.Proofs.Typing.Canonicalize
import Saturate.Proofs.Typing.Hygiene
import Saturate.Proofs.Typing.Binding
import Saturate.Proofs.Session.Limits
import Saturate.Proofs.Typing.Solve
import Saturate.Proofs.TermDag.RoundTrip
import Saturate.Proofs.Container.Interning
import Saturate.Proofs.Container.Canonical
import Saturate.Proofs.Container.Order
import Saturate.Proofs.Container.Roots
import Saturate.Proofs.Prim.Int64
import Saturate.Proofs.Query.Closed
import Saturate.Proofs.Session.Narrow
import Saturate.Proofs.Report.Counts
import Saturate.Proofs.Session.Accounting
import Saturate.Proofs.Session.Rounds
import Saturate.Proofs.UnionFind.Ids
import Saturate.Proofs.TermDag.Walk
import Saturate.Proofs.Typing.Grounding
import Saturate.Proofs.Query.Plan
import Saturate.Proofs.Container.Replay
import Saturate.Proofs.Extract.Frame
import Saturate.Proofs.Snapshot.Names
import Saturate.Proofs.Snapshot.Steps
import Saturate.Proofs.Snapshot.Invariant
import Saturate.Proofs.Snapshot.WellFormed
