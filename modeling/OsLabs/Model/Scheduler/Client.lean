import OsLabs.Model.Scheduler.Libscheduler

/-! # A client of the scheduler

The calls of the library in any order and at any times, and what their results tell a client: which
job is on which core, which jobs wait, which have arrived and not finished. A client knows jobs by
the numbers it gave them; it need not give them different numbers.
-/

namespace OsLabs.Scheduler

open Globals

/-- A call of the library. -/
inductive SchedulerCall where
  | newJob (jobNumber runningTime priority : ℤ)
  | jobFinished (coreId jobNumber : ℤ)
  | quantumExpired (coreId : ℤ)
deriving DecidableEq, Repr

def perform (s : Globals) (time : ℤ) : SchedulerCall → Option (Globals × ℤ)
  | .newJob jobNumber runningTime priority => schedulerNewJob s jobNumber time runningTime priority
  | .jobFinished coreId jobNumber => schedulerJobFinished s coreId jobNumber time
  | .quantumExpired coreId => schedulerQuantumExpired s coreId time

/-- The number of the job on each core, the waiting jobs in the order they came to wait, and the jobs
that have arrived and not finished. -/
structure Client where
  running : ℤ → Option ℤ
  waiting : List ℤ
  alive : List ℤ

namespace Client

def start : Client := ⟨fun _ => none, [], []⟩

/-- A vacant core gets the job that the result names, if one waits. -/
def next (client : Client) (coreId result : ℤ) : Client :=
  if client.waiting = [] then client
  else { client with
    running := Function.update client.running coreId (some result)
    waiting := client.waiting.erase result }

/-- What the client knows after a call with a result. A job that the new one takes a core from waits. -/
def after (client : Client) (result : ℤ) : SchedulerCall → Client
  | .newJob jobNumber _ _ =>
    if result = -1 then { client with
      waiting := client.waiting ++ [jobNumber]
      alive := jobNumber :: client.alive }
    else { client with
      running := Function.update client.running result (some jobNumber)
      waiting := client.waiting ++ (client.running result).toList
      alive := jobNumber :: client.alive }
  | .jobFinished coreId _ => next { client with
      running := Function.update client.running coreId none
      alive := (client.running coreId).elim client.alive client.alive.erase } coreId result
  | .quantumExpired coreId => next { client with
      running := Function.update client.running coreId none
      waiting := client.waiting ++ (client.running coreId).toList } coreId result

/-- A core is named as one that finished its job or its quantum only while it has a job. -/
def Allows (client : Client) : SchedulerCall → Prop
  | .newJob .. => True
  | .jobFinished coreId _ | .quantumExpired coreId => client.running coreId ≠ none

end Client

/-- What a sequence of calls after start-up leads to. -/
inductive Called (malloc : Malloc) (cores : ℕ) (scheme : Scheme) : Globals → Client → Prop
  | start : Called malloc cores scheme (schedulerStartUp malloc cores scheme) Client.start
  | call {s s' : Globals} {client : Client} {result : ℤ} (time : ℤ) (call : SchedulerCall)
      (before : Called malloc cores scheme s client) (allowed : client.Allows call)
      (returned : perform s time call = some (s', result)) :
      Called malloc cores scheme s' (client.after result call)

end OsLabs.Scheduler
