import Mathlib.Algebra.Group.Nat.Defs
import OsLabs.Model.Scheduler.Priqueue

/-! # The scheduler library

The globals of `libscheduler.c` as one record. A `job_t` is in one place at a time, on a core or in
the queue, so records are passed by value; a pointer to a core id is the id. Times are unbounded
integers; a difference of priorities wraps to an `int`. An operation is `none` when the C code
dereferences a pointer to no job or leaves the array of running jobs.
-/

namespace OsLabs.Scheduler

open Priqueue

/-- `scheme_t`. -/
inductive Scheme where
  | fcfs
  | sjf
  | psjf
  | pri
  | ppri
  | rr
deriving DecidableEq, Repr

/-- `job_t`. -/
structure JobT where
  jobId : ℤ
  priority : ℤ
  arrivalTime : ℤ
  startTime : ℤ
  latestQueueTime : ℤ
  latestUpdateTime : ℤ
  runningTime : ℤ
  remainingTime : ℤ
deriving DecidableEq, Repr

def newJob (jobId priority arrivalTime runningTime : ℤ) : JobT where
  jobId := jobId
  priority := priority
  arrivalTime := arrivalTime
  startTime := -1
  latestUpdateTime := -1
  latestQueueTime := -1
  runningTime := runningTime
  remainingTime := runningTime

/-! ## Comparers -/

/-- The difference of two `int` values, as an `int`. -/
def intSub (a b : ℤ) : ℤ := (a - b).bmod (2 ^ 32)

/-- The sum of two `int` values, as an `int`. -/
def intAdd (a b : ℤ) : ℤ := (a + b).bmod (2 ^ 32)

def coreCompare (core1 core2 : ℤ) : ℤ := core1 - core2

def jobCompareFcfs (job1 job2 : JobT) : ℤ :=
  if job1.latestQueueTime = job2.latestQueueTime then 1
  else job1.latestQueueTime - job2.latestQueueTime

def jobCompareSjf (job1 job2 : JobT) : ℤ :=
  if job1.remainingTime = job2.remainingTime then job1.arrivalTime - job2.arrivalTime
  else job1.remainingTime - job2.remainingTime

def jobComparePri (job1 job2 : JobT) : ℤ :=
  if job1.priority = job2.priority then job1.arrivalTime - job2.arrivalTime
  else intSub job1.priority job2.priority

/-- The comparer `scheduler_start_up` gives to the job queue. -/
def Scheme.comparer : Scheme → JobT → JobT → ℤ
  | .fcfs | .rr => jobCompareFcfs
  | .pri | .ppri => jobComparePri
  | _ => jobCompareSjf

/-- The schemes that `scheduler_new_job` preempts for. -/
def Scheme.preempts : Scheme → Bool
  | .psjf | .ppri => true
  | _ => false

/-! ## Globals -/

/-- The globals of the library; the totals are `int`s that wrap around. -/
structure Globals where
  scheme : Scheme
  jobQueue : Priqueue JobT
  idleCores : Priqueue ℤ
  totalCores : ℕ
  runningJobs : ℤ → Option JobT
  totalJobs : ℤ
  totalWaitingTime : ℤ
  totalTurnaroundTime : ℤ
  totalResponseTime : ℤ

/-- What `malloc` finds in the blocks the scheduler asks for. -/
structure Malloc where
  jobQueue : ℕ → ℤ → JobT
  idleCores : ℕ → ℤ → ℤ
  runningJobs : ℤ → Option JobT

namespace Globals

/-- The record `g_running_jobs[core]` points to. -/
def load (s : Globals) (core : ℤ) : Option JobT :=
  if 0 ≤ core ∧ core < s.totalCores then s.runningJobs core else none

def store (s : Globals) (core : ℤ) (job : Option JobT) : Option Globals :=
  if 0 ≤ core ∧ core < s.totalCores then
    some { s with runningJobs := Function.update s.runningJobs core job }
  else none

/-- `priqueue_offer(&g_job_queue, job)`. -/
def offerJob (s : Globals) (job : JobT) : Globals :=
  { s with jobQueue := (s.jobQueue.priqueueOffer job).1 }

/-- `priqueue_offer(&g_idle_cores, &g_cores_list[core])`. -/
def offerCore (s : Globals) (core : ℤ) : Globals :=
  { s with idleCores := (s.idleCores.priqueueOffer core).1 }

end Globals

open Globals

def schedulerStartUp (malloc : Malloc) (cores : ℕ) (scheme : Scheme) : Globals :=
  let s : Globals := {
    scheme := scheme
    jobQueue := priqueueInit malloc.jobQueue scheme.comparer
    idleCores := priqueueInit malloc.idleCores coreCompare
    totalCores := cores
    runningJobs := malloc.runningJobs
    totalJobs := 0
    totalWaitingTime := 0
    totalTurnaroundTime := 0
    totalResponseTime := 0 }
  (List.range cores).foldl (fun s i => s.offerCore (i : ℕ)) s

/-! ## Placing jobs -/

/-- The record of a job that `schedule_job` puts on a core. -/
def JobT.scheduled (job : JobT) (time : ℤ) : JobT :=
  { job with
    startTime := if job.startTime = -1 then time else job.startTime
    latestUpdateTime := time }

def scheduleJob (s : Globals) (job : JobT) (core time : ℤ) : Option Globals :=
  s.store core (some (job.scheduled time))

def updateRemainingTime (job : JobT) (time : ℤ) : JobT :=
  { job with
    remainingTime := job.remainingTime - (time - job.latestUpdateTime)
    latestUpdateTime := time }

/-- The record of a job that `unschedule_job` puts into the queue. -/
def JobT.unscheduled (job : JobT) (time : ℤ) : JobT :=
  let job := { job with startTime := if job.startTime = time then -1 else job.startTime }
  { updateRemainingTime job time with latestQueueTime := time }

def unscheduleJob (s : Globals) (core time : ℤ) : Option Globals := do
  let job ← s.load core
  let s ← s.store core none
  return s.offerJob (job.unscheduled time)

/-- `update_remaining_time(g_running_jobs[core], time)`. -/
def updateRunning (s : Globals) (core time : ℤ) : Option Globals := do
  let job ← s.load core
  s.store core (some (updateRemainingTime job time))

/-- The search of `scheduler_new_job` for the least important running job; the second argument is
`g_total_cores - i`. -/
def leastSearch (time : ℤ) : ℕ → Globals → ℤ → ℤ → Option (Globals × ℤ)
  | 0, s, _, leastJobCore => some (s, leastJobCore)
  | rest + 1, s, i, leastJobCore => do
    let s ← updateRunning s i time
    let job ← s.load i
    let leastJob ← s.load leastJobCore
    leastSearch time rest s (i + 1)
      (if s.jobQueue.comparer job leastJob > 0 then i else leastJobCore)

/-! ## Calls of the simulator -/

/-- The `default` case of `scheduler_new_job`. -/
def enqueueNew (s : Globals) (thisJob : JobT) (time : ℤ) : Globals × ℤ :=
  (s.offerJob { thisJob with latestQueueTime := time }, -1)

def schedulerNewJob (s : Globals) (jobNumber time runningTime priority : ℤ) :
    Option (Globals × ℤ) := do
  let thisJob := newJob jobNumber priority time runningTime
  if !s.idleCores.priqueueIsEmpty then
    let core ← s.idleCores.priqueuePoll.2
    let s ← scheduleJob { s with idleCores := s.idleCores.priqueuePoll.1 } thisJob core time
    return (s, core)
  else if s.scheme.preempts then
    let s ← updateRunning s 0 time
    let (s, leastJobCore) ← leastSearch time (s.totalCores - 1) s 1 0
    let leastJob ← s.load leastJobCore
    if s.jobQueue.comparer thisJob leastJob < 0 then
      let s ← unscheduleJob s leastJobCore time
      let s ← scheduleJob s thisJob leastJobCore time
      return (s, leastJobCore)
    else return enqueueNew s thisJob time
  else return enqueueNew s thisJob time

def scheduleNextJob (s : Globals) (coreId time : ℤ) : Option (Globals × ℤ) :=
  if s.jobQueue.priqueueIsEmpty then some (s.offerCore coreId, -1)
  else do
    let nextJob ← s.jobQueue.priqueuePoll.2
    let s ← scheduleJob { s with jobQueue := s.jobQueue.priqueuePoll.1 } nextJob coreId time
    return (s, nextJob.jobId)

def schedulerJobFinished (s : Globals) (coreId _jobNumber time : ℤ) : Option (Globals × ℤ) := do
  let finishedJob ← s.load coreId
  let s ← s.store coreId none
  let turnaroundTime := time - finishedJob.arrivalTime
  let s := { s with
    totalJobs := intAdd s.totalJobs 1
    totalTurnaroundTime := intAdd s.totalTurnaroundTime turnaroundTime
    totalWaitingTime := intAdd s.totalWaitingTime (turnaroundTime - finishedJob.runningTime)
    totalResponseTime := intAdd s.totalResponseTime (finishedJob.startTime - finishedJob.arrivalTime) }
  scheduleNextJob s coreId time

def schedulerQuantumExpired (s : Globals) (coreId time : ℤ) : Option (Globals × ℤ) := do
  let preemptJob ← s.load coreId
  let s ← s.store coreId none
  scheduleNextJob (s.offerJob { preemptJob with latestQueueTime := time }) coreId time

/-! ## The comparers once more, with every difference an `int` -/

namespace JobT

def jobCompareFcfs (job1 job2 : JobT) : ℤ :=
  if job1.latestQueueTime = job2.latestQueueTime then 1
  else intSub job1.latestQueueTime job2.latestQueueTime

def jobCompareSjf (job1 job2 : JobT) : ℤ :=
  if job1.remainingTime = job2.remainingTime then intSub job1.arrivalTime job2.arrivalTime
  else intSub job1.remainingTime job2.remainingTime

def jobComparePri (job1 job2 : JobT) : ℤ :=
  if job1.priority = job2.priority then intSub job1.arrivalTime job2.arrivalTime
  else intSub job1.priority job2.priority

end JobT

end OsLabs.Scheduler
