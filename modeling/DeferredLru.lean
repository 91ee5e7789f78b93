import DeferredLru.Deferred.Termination
import DeferredLru.Deferred.Epochs
import DeferredLru.Threads.Machine
import DeferredLru.Threads.Locks
import DeferredLru.Lib.Claims
import DeferredLru.Threads.Views
import DeferredLru.Threads.Invariant
import DeferredLru.Threads.ListSteps
import DeferredLru.Threads.FindSteps
import DeferredLru.Threads.InsertSteps
import DeferredLru.Threads.PurgeSteps
import DeferredLru.Threads.PullSteps
import DeferredLru.Lib.Trace
import DeferredLru.Threads.Steps
import DeferredLru.Threads.Pool
import DeferredLru.Threads.Lists
import DeferredLru.Threads.Memoization
import DeferredLru.Threads.Requests
import DeferredLru.Threads.RecentCount
import DeferredLru.Deferred.History
import DeferredLru.Deferred.Overwrite
import DeferredLru.Lib.DoublyLinked
import DeferredLru.Lib.Recency
import DeferredLru.Lru.Code
import DeferredLru.Lru.Represent
import DeferredLru.Lru.Coherent
import DeferredLru.Lru.Operations
import DeferredLru.Lru.Refinement
import DeferredLru.Lru.Assertions
import DeferredLru.Deferred.PlainLru
import DeferredLru.HashFixed.Machine
import DeferredLru.HashFixed.Invariant
import DeferredLru.HashFixed.Steps
import DeferredLru.HashFixed.Runs
import DeferredLru.Concurrent.Invariant
import DeferredLru.Concurrent.Effects
import DeferredLru.Concurrent.ListSteps
import DeferredLru.Concurrent.TableSteps
import DeferredLru.Concurrent.Steps
import DeferredLru.Concurrent.Integrity
import DeferredLru.Concurrent.Counter
import DeferredLru.Concurrent.Alone
import DeferredLru.Concurrent.Sequential
import DeferredLru.Lib.Acyclic
import DeferredLru.Concurrent.Waits
import DeferredLru.Concurrent.Deadlock
import DeferredLru.Deferred.Consolidation
import DeferredLru.HashFixed.Range
import DeferredLru.Deferred.Allocation
import DeferredLru.Bucketed.Adapter
import DeferredLru.Bucketed.Shards
import DeferredLru.Threads.Progress
import DeferredLru.Threads.Linearization
import DeferredLru.Threads.ProgramOrder
import DeferredLru.Threads.Conservation
import DeferredLru.Threads.Rest
import DeferredLru.Threads.Alone
import DeferredLru.Threads.Sequential
import DeferredLru.Concurrent.History
import DeferredLru.Concurrent.Answers
import DeferredLru.Concurrent.Deletion
import DeferredLru.Concurrent.SelfCheck
import DeferredLru.HashFixed.Answers
import DeferredLru.HashFixed.Release
import DeferredLru.HashFixed.WaitFree
import DeferredLru.Lib.Shards
import DeferredLru.Lru.Release
import DeferredLru.Bucketed.Lru
import DeferredLru.Lib.Reuse
import DeferredLru.Lru.Locality
import DeferredLru.Deferred.Retention
import DeferredLru.Deferred.Amortization
