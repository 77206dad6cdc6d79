import OsLabs.Model.Scheduler.Simulator

/-! # Messages of the simulator

Each call of the library is followed by a message about a job. A traced simulation keeps the messages
with the times they are printed at, earliest first.
-/

namespace OsLabs.Scheduler

/-- A message about a job; `newJobId` is -1 if the core stays idle, `newJobCoreId` if the job waits. -/
inductive Message where
  | finished (jobId coreId newJobId : ℤ)
  | quantumExpired (oldJobId coreId newJobId : ℤ)
  | arrived (jobId runTime priority newJobCoreId : ℤ)
deriving DecidableEq, Repr

/-- What the next step prints about a job. -/
def printed (o : Options) (s : Sim) : Option Message :=
  match s.phase with
  | .finish i => do
    let job ← s.jobs[i]?
    if job.runTime = 0 then
      let result ← schedulerJobFinished s.globals job.coreId job.jobId s.time
      return .finished job.jobId job.coreId result.2
    else none
  | .quantum i =>
    if o.scheme = .rr ∧ i < o.cores ∧ s.quantumClock i = 0 then do
      let j ← s.jobs.findIdx? fun job => job.coreId = (i : ℤ)
      let job ← s.jobs[j]?
      let result ← schedulerQuantumExpired s.globals job.coreId s.time
      return .quantumExpired job.jobId job.coreId result.2
    else none
  | .arrive i => do
    let job ← s.jobs[i]?
    if job.arrivalTime = s.time then
      let result ← schedulerNewJob s.globals job.jobId s.time job.runTime job.priority
      return .arrived job.jobId job.runTime job.priority result.2
    else none
  | _ => none

/-- The messages of a run, with their times. -/
abbrev Output := List (ℤ × Message)

namespace Message

/-- The job that the call before the message put into the queue. -/
def put : Message → List ℤ
  | .finished .. => []
  | .quantumExpired oldJobId _ _ => [oldJobId]
  | .arrived jobId _ _ newJobCoreId => if newJobCoreId = -1 then [jobId] else []

/-- The job that the call took from the queue. -/
def taken : Message → List ℤ
  | .finished _ _ newJobId | .quantumExpired _ _ newJobId => if newJobId = -1 then [] else [newJobId]
  | .arrived .. => []

/-- The core that the message is about, -1 if none. -/
def coreId : Message → ℤ
  | .finished _ coreId _ | .quantumExpired _ coreId _ => coreId
  | .arrived _ _ _ newJobCoreId => newJobCoreId

/-- The job that gets the core. -/
def dispatched : Message → List ℤ
  | .finished _ _ newJobId | .quantumExpired _ _ newJobId => if newJobId = -1 then [] else [newJobId]
  | .arrived jobId _ _ newJobCoreId => if newJobCoreId = -1 then [] else [jobId]

/-- The job that arrives. -/
def arrivals : Message → List ℤ
  | .arrived jobId .. => [jobId]
  | _ => []

end Message

/-- The jobs put into the queue, in the order of the calls. -/
def putLog (output : Output) : List ℤ := output.flatMap fun entry => entry.2.put

/-- The jobs taken from the queue. -/
def takenLog (output : Output) : List ℤ := output.flatMap fun entry => entry.2.taken

/-- The jobs that arrived. -/
def arrivalLog (output : Output) : List ℤ := output.flatMap fun entry => entry.2.arrivals

/-- The jobs put on cores. -/
def dispatchLog (output : Output) : List ℤ := output.flatMap fun entry => entry.2.dispatched

/-- The jobs put and not taken since, in the order they were put. -/
def waitingJobs (output : Output) : List ℤ :=
  output.foldl (fun waiting entry => (waiting ++ entry.2.put).diff entry.2.taken) []

/-- One step, with what it prints. -/
def tracedStep (o : Options) (s : Sim × Output) : Except Fault (Sim × Output) :=
  (step o s.1).map fun sim => (sim, s.2 ++ (printed o s.1).toList.map (s.1.time, ·))

end OsLabs.Scheduler
