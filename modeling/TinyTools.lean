import TinyTools.Lib.Prog
import TinyTools.Lib.Pool
import TinyTools.Lib.Outline
import TinyTools.Lib.Locked
import TinyTools.Lib.Calls
import TinyTools.Lib.Linearize
import TinyTools.Lib.Ring
import TinyTools.Lib.Slots
import TinyTools.Types
import TinyTools.Platform
import TinyTools.Mutex
import TinyTools.Error
import TinyTools.Ringbuf
import TinyTools.ThreadInternal
import TinyTools.Thread
import TinyTools.Platform.Linux.Mutex
import TinyTools.Platform.Linux.Thread
import TinyTools.Platform.Linux.Priority
import TinyTools.Proofs.SpinMutex
import TinyTools.Proofs.Ringbuf
import TinyTools.Proofs.Error
import TinyTools.Proofs.Error.Initialising
import TinyTools.Proofs.Error.Init
import TinyTools.Proofs.ThreadInternal
import TinyTools.Proofs.ThreadInternal.Multiset
import TinyTools.Proofs.ThreadInternal.Lookup
import TinyTools.Proofs.Thread.Create
import TinyTools.Proofs.Thread.Records
import TinyTools.Proofs.Thread.Invariant
import TinyTools.Proofs.Thread.Owner
import TinyTools.Proofs.Thread.Table
import TinyTools.Proofs.Thread.Custody
import TinyTools.Proofs.Thread.Reap
import TinyTools.Proofs.Error.Deinit
import TinyTools.Proofs.Error.Callback
import TinyTools.Proofs.Error.Failure
import TinyTools.Proofs.Error.Balance
import TinyTools.Proofs.Error.Reentry
import TinyTools.Proofs.Mutex.Objects
import TinyTools.Proofs.Mutex.Agree
import TinyTools.Proofs.Mutex.Query
import TinyTools.Proofs.Mutex.Answers
import TinyTools.Proofs.Mutex.Deletion
import TinyTools.Atomic
import TinyTools.Proofs.Atomic
import TinyTools.Proofs.Atomic.Counting
import TinyTools.Proofs.Thread.Guarded
import TinyTools.Proofs.Thread.Reinit
import TinyTools.Execution
import TinyTools.Proofs.Thread.Lifecycle
import TinyTools.Proofs.Thread.Telling
import TinyTools.Proofs.Thread.Running
import TinyTools.Proofs.Thread.Mapping
import TinyTools.Proofs.Thread.Usage
import TinyTools.Proofs.Thread.Destroy
import TinyTools.Proofs.Thread.SetPriority
import TinyTools.Proofs.Platform
import TinyTools.Proofs.Thread.Attributes
import TinyTools.Lib.Refine
import TinyTools.Lib.Progress
import TinyTools.Lib.Implement
import TinyTools.Lib.Section
import TinyTools.Proofs.Mutex.Implement
import TinyTools.Proofs.Error.Linked
import TinyTools.Proofs.ThreadInternal.Linked
import TinyTools.Proofs.Thread.Linked
import TinyTools.Proofs.Thread.Memory
import TinyTools.Proofs.Thread.Completes
import TinyTools.Lib.Reentrant
import TinyTools.Proofs.Error.Scripts
import TinyTools.Lib.Handover
import TinyTools.Proofs.Atomic.Exchange
