import Lfi.Runs.Basic
import Lfi.Runs.Batches
import Lfi.Runs.Matching
import Lfi.Runs.Simulation
import Lfi.Data.Bytes
import Lfi.Data.RingBuffer
import Lfi.Data.VectorQueue
import Lfi.Data.Window
import Lfi.Data.ListWalk
import Lfi.Data.CString
import Lfi.Data.Ledger
import Lfi.Coll.Mesh
import Lfi.Coll.MeshInvariant
import Lfi.Coll.MeshIdentity
import Lfi.Coll.Barrier
import Lfi.Coll.Collectives
import Lfi.Coll.Errors
import Lfi.Coll.Reduce
import Lfi.Coll.Payload
import Lfi.Coll.Sequence
import Lfi.Coll.Isolation
import Lfi.Coll.Lifecycle
import Lfi.Coll.Ranks
import Lfi.Progress.Guard
import Lfi.Progress.Leader
import Lfi.Impl.DoubleLinkedList
import Lfi.Impl.ListRefinement
import Lfi.Impl.Links
import Lfi.Impl.State
import Lfi.Impl.Request
import Lfi.Impl.Endpoint
import Lfi.Impl.Post
import Lfi.Impl.FtManager
import Lfi.Impl.Outstanding
import Lfi.Impl.Progressed
import Lfi.Impl.PassSteps
import Lfi.Impl.Monitoring
import Lfi.Impl.Engine
import Lfi.Impl.Contexts
import Lfi.Impl.CrossTalk
import Lfi.Impl.Completion
import Lfi.Impl.Invariant
import Lfi.Impl.PassInvariant
import Lfi.Impl.Reporting
import Lfi.Impl.AnyComm
import Lfi.Impl.Reports
import Lfi.Impl.Tags
import Lfi.Impl.Trace
import Lfi.Impl.Conservation
import Lfi.Impl.Ignores
import Lfi.Impl.PassIgnores
import Lfi.Impl.Freed
import Lfi.Impl.Queues
import Lfi.Impl.Posting
import Lfi.Impl.AllOrNothing
import Lfi.Impl.Addressing
import Lfi.Impl.Elsewhere
import Lfi.Impl.Receives
import Lfi.Impl.CancelSteps
import Lfi.Impl.CancelRace
import Lfi.Impl.Parts
import Lfi.Impl.Cleared
import Lfi.Impl.Agreed
import Lfi.Impl.Broken
import Lfi.Impl.Sizes
import Lfi.Impl.MemoryRegions
import Lfi.Impl.Walk
import Lfi.Impl.Heartbeat
import Lfi.Impl.Rounds
import Lfi.Impl.Alarms
import Lfi.Connection.Handshake
import Lfi.Connection.GetComm
import Lfi.Connection.Exchange
import Lfi.Connection.Lockstep
import Lfi.Connection.Streams
import Lfi.Connection.Agreement
import Lfi.Connection.Registry
import Lfi.Connection.FreshIds
import Lfi.Connection.Futures
import Lfi.Connection.Verdict
import Lfi.Locks.Threads
import Lfi.Locks.Calls
import Lfi.Locks.Order
import Lfi.Locks.DeadlockFree
import Lfi.Preload.Message
import Lfi.Preload.Socket
import Lfi.Preload.Log
import Lfi.Preload.ByteOrder
import Lfi.Preload.Counter
import Lfi.Preload.Coalesce
import Lfi.Preload.Notification
import Lfi.Preload.Readiness
import Lfi.Preload.EndOfStream
import Lfi.Preload.Poll
import Lfi.Socket.Transfer
import Lfi.Socket.Receive
import Lfi.Socket.Strings
import Lfi.Socket.Accept
import Lfi.Socket.Descriptors
import Lfi.Wait.TestNum
import Lfi.Wait.WaitNum
import Lfi.Wait.Results
import Lfi.Wait.Timeout
import Lfi.Wait.Verdicts
import Lfi.Wait.Unlimited
import Lfi.Wait.Elapsed
import Lfi.Coll.Labels
import Lfi.Coll.Cleanup
import Lfi.Coll.HostName
import Lfi.Coll.Descriptors
import Lfi.Runs.Liveness
import Lfi.Coll.Completion
import Lfi.Runs.TagMatching
import Lfi.Impl.Wire
import Lfi.Coll.MeshProgress
import Lfi.Coll.Coordination
import Lfi.Coll.Formation
import Lfi.Impl.CompletionQueue
import Lfi.Runs.Potential
import Lfi.Progress.Waiters
import Lfi.Progress.Wakeups
import Lfi.Progress.Driven
import Lfi.Runs.Rings
import Lfi.Preload.Connects
import Lfi.Preload.Delivery
import Lfi.Preload.Process
import Lfi.Preload.Serving
