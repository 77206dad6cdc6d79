import OsLabs.Model.Scheduler.Libscheduler
import OsLabs.ToMathlib.CStrings

/-! # The simulator

The simulation loop of `simulator.c` as a deterministic machine: one step is one iteration of one
of its loops, so every state between two scheduler calls is a state of the machine. `jobs` is the
active part of the array. Output is left out. `snapshots` records the array at the start of every
time unit, latest first; the code never reads it.
-/

namespace OsLabs.Scheduler

/-- The options of the command line. -/
structure Options where
  cores : ℕ
  scheme : Scheme
  quantum : ℤ
  coresPos : 0 < cores
  quantumPos : scheme = .rr → 0 < quantum

/-- A line of the job file. -/
structure JobLine where
  arrivalTime : ℤ
  runTime : ℤ
  priority : ℤ
deriving DecidableEq, Repr

/-- `simulator_job_list_t`. -/
structure SimJob where
  jobId : ℤ
  arrivalTime : ℤ
  runTime : ℤ
  priority : ℤ
  coreId : ℤ
  arrived : Bool
deriving DecidableEq, Repr

/-- The jobs array after the file is read. -/
def loadJobs (lines : List JobLine) : List SimJob :=
  lines.mapIdx fun jobId line => ⟨jobId, line.arrivalTime, line.runTime, line.priority, -1, false⟩

/-- Where the loop stands: at its head, at an index of one of its inner loops, before the run of the
time unit, or after its end. -/
inductive Phase where
  | head
  | finish (i : ℕ)
  | quantum (i : ℕ)
  | arrive (i : ℕ)
  | run
  | done
deriving DecidableEq, Repr

structure Sim where
  phase : Phase
  jobs : List SimJob
  globals : Globals
  quantumClock : ℤ → ℤ
  time : ℤ
  jobsAlive : ℤ
  snapshots : List (List SimJob)

/-- The ways the program ends early: undefined behaviour, the failed assertion, and `return 3`. -/
inductive Fault where
  | undefinedBehaviour
  | timeString
  | invalidJob
  | invalidCore
  | allIdle
deriving DecidableEq, Repr

/-! ## The jobs array -/

def setActiveJob (jobId coreId : ℤ) : List SimJob → Option (List SimJob)
  | [] => none
  | job :: jobs =>
    if job.jobId = jobId ∧ job.arrived then some ({ job with coreId } :: jobs)
    else (setActiveJob jobId coreId jobs).map (job :: ·)

/-- Give the job a scheduler call selected to its core, if it selected one. -/
def setNewJob (newJobId coreId : ℤ) (jobs : List SimJob) : Except Fault (List SimJob) :=
  if newJobId = -1 then .ok jobs
  else ((setActiveJob newJobId coreId jobs).map Except.ok).getD (.error .invalidJob)

/-- Delete entry `i`: the last entry takes its place. -/
def deleteJob (jobs : List SimJob) (i : ℕ) : List SimJob :=
  match jobs.getLast? with
  | none => []
  | some last => (if i ≠ jobs.length - 1 then jobs.set i last else jobs).dropLast

def SimJob.setCore (job : SimJob) (coreId : ℤ) : SimJob := { job with coreId }

/-- The job loses a core it shares with `coreId`. -/
def SimJob.release (coreId : ℤ) (job : SimJob) : SimJob :=
  if job.coreId = coreId then { job with coreId := -1 } else job

/-- The loop of the time unit over the jobs: who works, and the quantum clocks. `working` lists the
cores whose `time_string` is set. -/
def runJobs (cores : ℕ) : List SimJob → List ℤ → (ℤ → ℤ) →
    Except Fault (List SimJob × List ℤ × (ℤ → ℤ))
  | [], working, quantumClock => .ok ([], working, quantumClock)
  | job :: jobs, working, quantumClock =>
    if job.coreId ≠ -1 then
      if ¬ (0 ≤ job.coreId ∧ job.coreId < cores) then .error .undefinedBehaviour
      else if job.coreId ∈ working then .error .timeString
      else do
        let (jobs, working, quantumClock) ← runJobs cores jobs (job.coreId :: working)
          (Function.update quantumClock job.coreId (quantumClock job.coreId - 1))
        return ({ job with runTime := job.runTime - 1 } :: jobs, working, quantumClock)
    else do
      let (jobs, working, quantumClock) ← runJobs cores jobs working quantumClock
      return (job :: jobs, working, quantumClock)

/-! ## The loop -/

/-- A call of the scheduler, whose undefined behaviour is that of the program. -/
def callScheduler (result : Option (Globals × ℤ)) : Except Fault (Globals × ℤ) :=
  (result.map Except.ok).getD (.error .undefinedBehaviour)

/-- `quantum_clock[core_id] = quantum` under round robin. -/
def Options.resetClock (o : Options) (quantumClock : ℤ → ℤ) (coreId : ℤ) : ℤ → ℤ :=
  if o.scheme = .rr then Function.update quantumClock coreId o.quantum else quantumClock

/-- Iteration `i` of the loop over finished jobs, at a finished job. -/
def finishJob (o : Options) (s : Sim) (i : ℕ) (job : SimJob) : Except Fault Sim := do
  let (globals, newJobId) ← callScheduler (schedulerJobFinished s.globals job.coreId job.jobId s.time)
  let jobs ← setNewJob newJobId job.coreId (deleteJob s.jobs i)
  return { s with
    jobs
    globals
    quantumClock := o.resetClock s.quantumClock job.coreId
    jobsAlive := s.jobsAlive - 1 }

/-- Core `i` at the end of its quantum, with the job on it and the index of the job. -/
def expireQuantum (o : Options) (s : Sim) (j : ℕ) (job : SimJob) : Except Fault Sim := do
  let (globals, newJobId) ← callScheduler (schedulerQuantumExpired s.globals job.coreId s.time)
  let jobs ← setNewJob newJobId job.coreId (s.jobs.set j (job.setCore (-1)))
  return { s with
    jobs
    globals
    quantumClock := o.resetClock s.quantumClock job.coreId }

/-- Iteration `i` of the loop over arriving jobs, at a job that arrives. -/
def arriveJob (o : Options) (s : Sim) (i : ℕ) (job : SimJob) : Except Fault Sim := do
  let (globals, coreId) ← callScheduler
    (schedulerNewJob s.globals job.jobId s.time job.runTime job.priority)
  let job := { job with arrived := true }
  let s := { s with globals, jobs := s.jobs.set i job, jobsAlive := s.jobsAlive + 1 }
  if 0 ≤ coreId ∧ coreId < o.cores then
    return { s with
      jobs := (s.jobs.map (SimJob.release coreId)).set i (job.setCore coreId)
      quantumClock := o.resetClock s.quantumClock coreId }
  else if coreId = -1 then return s
  else .error .invalidCore

/-- The run of a time unit and the sanity check. -/
def runUnit (o : Options) (s : Sim) : Except Fault Sim := do
  let (jobs, working, quantumClock) ← runJobs o.cores s.jobs [] s.quantumClock
  if s.jobsAlive > 0 ∧ working = [] then .error .allIdle
  else return { s with
    jobs
    quantumClock
    time := s.time + 1
    snapshots := s.jobs :: s.snapshots }

/-- One iteration of one loop. -/
def step (o : Options) (s : Sim) : Except Fault Sim :=
  match s.phase with
  | .head => .ok { s with phase := if s.jobs.length > 0 then .finish 0 else .done }
  | .finish i =>
    match s.jobs[i]? with
    | some job =>
      if job.runTime = 0 then finishJob o s i job else .ok { s with phase := .finish (i + 1) }
    | none => .ok { s with phase := if s.jobs.length = 0 then .done else .quantum 0 }
  | .quantum i =>
    if o.scheme = .rr ∧ i < o.cores then
      let s' := { s with phase := .quantum (i + 1) }
      if s.quantumClock i = 0 then
        match s.jobs.findIdx? fun job => job.coreId = (i : ℤ) with
        | some j => (s.jobs[j]?.map (expireQuantum o s' j)).getD (.ok s')
        | none => .ok s'
      else .ok s'
    else .ok { s with phase := .arrive 0 }
  | .arrive i =>
    match s.jobs[i]? with
    | some job =>
      let s' := { s with phase := .arrive (i + 1) }
      if job.arrivalTime = s.time then arriveJob o s' i job else .ok s'
    | none => .ok { s with phase := .run }
  | .run => runUnit o { s with phase := .head }
  | .done => .ok s

/-- The simulator after start-up. -/
def initial (o : Options) (malloc : Malloc) (lines : List JobLine) : Sim where
  phase := .head
  jobs := loadJobs lines
  globals := schedulerStartUp malloc o.cores o.scheme
  quantumClock := fun _ => -1
  time := 0
  jobsAlive := 0
  snapshots := []

/-! ## The job file

The file is read with `fgets` into a buffer of 1024 characters. What it reads first is ignored, and the C
string in the buffer is cut at commas. The array of jobs grows as a list does.
-/

section

open CStrings

def lineSize : ℕ := 1024

/-- A job from a filled buffer, if it has three fields. -/
def readJob (buffer : List Char) : Option JobLine :=
  let (arrivalTime, rest) := strtok ',' (cString buffer)
  let (runTime, rest) := strtok ',' rest
  let (priority, _) := strtok ',' rest
  match arrivalTime, runTime, priority with
  | some arrivalTime, some runTime, some priority => some ⟨atoi arrivalTime, atoi runTime, atoi priority⟩
  | _, _, _ => none

/-- The jobs of a file; none is `Illegal file format`. -/
def readJobs (file : List Char) : Option (List JobLine) :=
  (readLines lineSize file.length file).tail.mapM readJob

end

end OsLabs.Scheduler
