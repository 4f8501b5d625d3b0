import Tay.Engine.Accounting
import Tay.Engine.Accounts
import Tay.Engine.Candidate
import Tay.Engine.Coordinates
import Tay.Engine.Estimate
import Tay.Engine.Estimated
import Tay.Engine.Execution
import Tay.Engine.Finish
import Tay.Engine.GroupCommit
import Tay.Engine.Headroom
import Tay.Engine.Hot
import Tay.Engine.Insertion
import Tay.Engine.Inspection
import Tay.Engine.Persistence
import Tay.Engine.Placement
import Tay.Engine.Refusal
import Tay.Engine.Replay
import Tay.Engine.Restart
import Tay.Engine.Reserve
import Tay.Engine.Settlement
import Tay.Engine.Shadow
import Tay.Engine.State
import Tay.Event.Exact
import Tay.Event.Payload
import Tay.Event.Reading
import Tay.Event.Size
import Tay.Event.Typed
import Tay.Event.Utf8
import Tay.Event.V2
import Tay.Event.Value
import Tay.Execution.Bookkeeping
import Tay.Execution.Consistency
import Tay.Execution.Demand
import Tay.Execution.Drain
import Tay.Execution.External
import Tay.Execution.Indexed
import Tay.Execution.Link
import Tay.Execution.LocalFence
import Tay.Execution.RateLimiter
import Tay.Execution.Relay
import Tay.Execution.Reservation
import Tay.Execution.Runtime
import Tay.Execution.Selection
import Tay.Executor.Agreement
import Tay.Executor.Client
import Tay.Executor.Counterpart
import Tay.Executor.Framing
import Tay.Executor.Options
import Tay.Executor.Portable
import Tay.Executor.Protocol
import Tay.Executor.Result
import Tay.Executor.Sdk
import Tay.Executor.Server
import Tay.Executor.Socket
import Tay.Executor.Submission
import Tay.Foundation.Base64
import Tay.Foundation.Calendar
import Tay.Foundation.Counters
import Tay.Foundation.Double
import Tay.Foundation.FixedWindow
import Tay.Foundation.Heads
import Tay.Foundation.Index
import Tay.Foundation.Inquiry
import Tay.Foundation.Ledger
import Tay.Foundation.Outcome
import Tay.Foundation.Pages
import Tay.Foundation.Ranking
import Tay.Foundation.Register
import Tay.Foundation.Run
import Tay.Foundation.Simulation
import Tay.Foundation.Splitting
import Tay.Foundation.Table
import Tay.Foundation.Total
import Tay.Foundation.Window
import Tay.Lifecycle.Admission
import Tay.Lifecycle.Answers
import Tay.Lifecycle.Budget
import Tay.Lifecycle.Delivery
import Tay.Lifecycle.Desk
import Tay.Lifecycle.Frame
import Tay.Lifecycle.Machine
import Tay.Lifecycle.Poison
import Tay.Lifecycle.State
import Tay.Schedule.Armed
import Tay.Schedule.Commands
import Tay.Schedule.Coordinator
import Tay.Schedule.Cron
import Tay.Schedule.Declaration
import Tay.Schedule.Delivery
import Tay.Schedule.Index
import Tay.Schedule.Membership
import Tay.Schedule.Occurrence
import Tay.Schedule.Overlap
import Tay.Schedule.Ownership
import Tay.Schedule.Progress
import Tay.Schedule.Timing
import Tay.State.Auxiliary
import Tay.State.CombinedInspection
import Tay.State.Credit
import Tay.State.Fencing
import Tay.State.Indexes
import Tay.State.Inspection
import Tay.State.Job
import Tay.State.Memory
import Tay.State.Projection
import Tay.State.TerminalStore
import Tay.State.Transition
import Tay.Storage.Authority
import Tay.Storage.Buffered
import Tay.Storage.CRC32C
import Tay.Storage.Canonical
import Tay.Storage.Codec
import Tay.Storage.Compaction
import Tay.Storage.Credible
import Tay.Storage.Dispatch
import Tay.Storage.Estimate
import Tay.Storage.Frozen
import Tay.Storage.Logged
import Tay.Storage.Numbering
import Tay.Storage.Payload
import Tay.Storage.Planning
import Tay.Storage.Publisher
import Tay.Storage.Reader
import Tay.Storage.Record
import Tay.Storage.Recovery
import Tay.Storage.Reducer
import Tay.Storage.Restored
import Tay.Storage.Restriction
import Tay.Storage.Scan
import Tay.Storage.Segment
import Tay.Storage.Snapshot
import Tay.Writer.Compaction
import Tay.Writer.FailClosed
import Tay.Writer.Files
import Tay.Writer.Group
import Tay.Writer.Handover
import Tay.Writer.Online
import Tay.Writer.Pair
import Tay.Writer.Queue
import Tay.Writer.Reconcile
import Tay.Writer.SegmentOps
import Tay.Writer.Switch
