import AbtReconverse.Runtime.Drain
import AbtReconverse.Lib.Chain
import AbtReconverse.Sync.WaitList
import AbtReconverse.Sync.Machine
import AbtReconverse.Sync.Lists
import AbtReconverse.Sync.Timed
import AbtReconverse.Sync.Wake
import AbtReconverse.Thread.Machine
import AbtReconverse.Thread.Descriptors
import AbtReconverse.Thread.Separation
import AbtReconverse.Lib.Broken
import AbtReconverse.Pool.Chain
import AbtReconverse.Pool.Size
import AbtReconverse.Pool.Pop
import AbtReconverse.Pool.Fifo
import AbtReconverse.Lib.Queue
import AbtReconverse.Sched.Direct
import AbtReconverse.Sched.Ready
import AbtReconverse.Sched.Refine
import AbtReconverse.Sched.Order
import AbtReconverse.Objects.Live
import AbtReconverse.Objects.References
import AbtReconverse.Objects.Effect
import AbtReconverse.Xstream.Machine
import AbtReconverse.Xstream.Agreement
import AbtReconverse.Sync.Moves
import AbtReconverse.Sync.Mutex
import AbtReconverse.Sync.Untimed
import AbtReconverse.Sync.Calls
import AbtReconverse.Sync.Stranded
import AbtReconverse.Lib.Monitor
import AbtReconverse.Sync.Cond
import AbtReconverse.Sync.Guarded
import AbtReconverse.Sync.Refine
import AbtReconverse.Sync.Rwlock
import AbtReconverse.Sync.Barrier
import AbtReconverse.Sync.Future
import AbtReconverse.Sync.Accesses
import AbtReconverse.Sync.Eventual
import AbtReconverse.Sync.Sections
import AbtReconverse.Join.Machine
import AbtReconverse.Join.Protocol
import AbtReconverse.Sync.Lifetime
import AbtReconverse.Join.Safety
import AbtReconverse.Api.Book
import AbtReconverse.Api.Exclusive
import AbtReconverse.Api.Failure
import AbtReconverse.Api.Lifetime
import AbtReconverse.Lib.Doubly
import AbtReconverse.Lib.Stub
import AbtReconverse.Pool.Agree
import AbtReconverse.Pool.Pinned
import AbtReconverse.Runtime.Blocked
import AbtReconverse.Xstream.Release
import AbtReconverse.Lib.Ledger
import AbtReconverse.Lib.Owner
import AbtReconverse.Lib.Tokens
import AbtReconverse.Pool.Handshake
import AbtReconverse.Pool.Units
import AbtReconverse.Xstream.Parked
import AbtReconverse.Api.Finalize
import AbtReconverse.Api.Migrate
import AbtReconverse.Pool.Atomic
import AbtReconverse.Pool.Enumerate
import AbtReconverse.Pool.Listed
import AbtReconverse.Pool.Removal
import AbtReconverse.Pool.UserWait
import AbtReconverse.Runtime.Stop
import AbtReconverse.Thread.Keys
import AbtReconverse.Xstream.Ranks
import AbtReconverse.Api.Config
import AbtReconverse.Lib.Strtol
import AbtReconverse.Runtime.NumPes
import AbtReconverse.Sched.GetPools
import AbtReconverse.Sync.WaitQueue
import AbtReconverse.Xstream.Binding
