import OsLabs.Soundness.Buddy.Partition
import OsLabs.Soundness.Buddy.History
import OsLabs.Soundness.Buddy.PageTable
import OsLabs.Soundness.Buddy.Scripts
import OsLabs.Soundness.Buddy.Placement
import OsLabs.Soundness.Buddy.Requests
import OsLabs.Soundness.Buddy.Commands
import OsLabs.Soundness.Buddy.Dump
import OsLabs.Soundness.Scheduler.PriqueueRuns
import OsLabs.Soundness.Scheduler.IndexSafety
import OsLabs.Soundness.Scheduler.RandomAccess
import OsLabs.Soundness.Scheduler.Comparers
import OsLabs.Soundness.Scheduler.Bookkeeping
import OsLabs.Soundness.Scheduler.Simulation
import OsLabs.Soundness.Scheduler.SafeInputs
import OsLabs.Soundness.Scheduler.Accounting
import OsLabs.Soundness.Scheduler.DispatchOrder
import OsLabs.Soundness.Scheduler.RoundRobin
import OsLabs.Soundness.Scheduler.JobFile
import OsLabs.Soundness.Scheduler.Diagram
import OsLabs.Soundness.Scheduler.Averages
import OsLabs.Soundness.Quash.Quoting
import OsLabs.Soundness.Quash.JobTable
import OsLabs.Soundness.Quash.Pipeline
import OsLabs.Soundness.Quash.Parsing
import OsLabs.Soundness.Quash.CommandString
import OsLabs.Soundness.Quash.DequeRefinement
import OsLabs.Soundness.Quash.MemoryPool
import OsLabs.Soundness.Quash.Signals
import OsLabs.Soundness.Quash.WorkingDirectory
import OsLabs.Soundness.Quash.Sessions
import OsLabs.Soundness.Quash.TypedPipelines
import OsLabs.Soundness.Pthreads.ProducerConsumer
import OsLabs.Soundness.Pthreads.InitialCounters
import OsLabs.Soundness.Pthreads.Waiter
import OsLabs.Soundness.Pthreads.Asymmetric
import OsLabs.Soundness.Pthreads.Shutdown
import OsLabs.Soundness.Pthreads.Joins
import OsLabs.Soundness.Pthreads.Symmetric
import OsLabs.Soundness.Pthreads.Count
import OsLabs.Soundness.Pthreads.WaiterShutdown
import OsLabs.Soundness.Pthreads.Exits
import OsLabs.Soundness.Mmio.ReadWrite
import OsLabs.Soundness.Funcptr.ParseFile
