import OsLabs.Proofs.Scheduler.Calls

/-! # The records of the library

Two properties of records, one of those on cores and one of those in the queue, hold of all records
after a call if the few ways a record moves lead from one to the other.
-/

namespace OsLabs.Scheduler

open Globals

variable {onCore queued : JobT → Prop} {time c : ℤ} {jobs jobs' : List SimJob} {g g' : Globals}
  {job : SimJob} {r : JobT}

/-- Every record on a busy core has one property, every record in the queue the other. -/
structure Records (onCore queued : JobT → Prop) (g : Globals) : Prop where
  running : ∀ c r, g.HasCore c → c ∉ g.idle → g.runningJobs c = some r → onCore r
  waiting : ∀ r ∈ g.queue, queued r

namespace Records

/-- A core loses its record. -/
theorem vacate (records : Records onCore queued g) (c : ℤ) :
    Records onCore queued (g.setRunning c none) where
  running d r hasCore busy running := by
    by_cases here : d = c
    · rw [here, setRunning_self] at running
      cases running
    · rw [setRunning_of_ne g none here] at running
      exact records.running d r hasCore busy running
  waiting := records.waiting

theorem finished (records : Records onCore queued g) (c : ℤ) (r : JobT) (time : ℤ) :
    Records onCore queued (g.finished c r time) := { records.vacate c with }

theorem offerJob (records : Records onCore queued g) (waits : queued r) :
    Records onCore queued (g.offerJob r) where
  running := records.running
  waiting r' inQueue := by
    rcases List.mem_cons.mp ((offerJob_perm g r).mem_iff.mp inQueue) with rfl | old
    · exact waits
    · exact records.waiting r' old

theorem setRunning (records : Records onCore queued g) (runs : onCore r) (c : ℤ) :
    Records onCore queued (g.setRunning c (some r)) where
  running d r' hasCore busy running := by
    by_cases here : d = c
    · rw [here, setRunning_self] at running
      exact Option.some.inj running ▸ runs
    · rw [setRunning_of_ne g _ here] at running
      exact records.running d r' hasCore busy running
  waiting := records.waiting

theorem pollJob (records : Records onCore queued g) : Records onCore queued g.pollJob where
  running := records.running
  waiting r inQueue := by
    rw [pollJob_queue] at inQueue
    exact records.waiting r (List.mem_of_mem_tail inQueue)

theorem offerCore (records : Records onCore queued g) (c : ℤ) : Records onCore queued (g.offerCore c) where
  running d r hasCore busy running := by
    refine records.running d r hasCore (fun isIdle => busy ?_) running
    exact (offerCore_perm g c).mem_iff.mpr (List.mem_cons_of_mem c isIdle)
  waiting := records.waiting

/-- The polled core is vacant until it gets a record. -/
theorem pollCore (records : Records onCore queued g) (runs : onCore r) {cores : List ℤ}
    (head : g.idle = c :: cores) : Records onCore queued (g.pollCore.setRunning c (some r)) where
  running d r' hasCore busy running := by
    by_cases here : d = c
    · rw [here, setRunning_self] at running
      exact Option.some.inj running ▸ runs
    · rw [setRunning_of_ne _ _ here] at running
      refine records.running d r' hasCore (fun isIdle => busy ?_) running
      rw [head] at isIdle
      rw [setRunning_idle, pollCore_idle, head, List.tail_cons]
      exact (List.mem_cons.mp isIdle).resolve_left here
  waiting := records.waiting

theorem updatedTo (records : Records onCore queued g)
    (updates : ∀ r, onCore r → onCore (updateRemainingTime r time)) (i : ℤ) :
    Records onCore queued (g.updatedTo time i) where
  running c r hasCore busy running := by
    change (if 0 ≤ c ∧ c < i then _ else _) = some r at running
    split at running
    · obtain ⟨r', running', rfl⟩ := Option.map_eq_some_iff.mp running
      exact updates r' (records.running c r' hasCore busy running')
    · exact records.running c r hasCore busy running
  waiting := records.waiting

/-- `schedule_next_job`. -/
theorem next (records : Records onCore queued g) (next : NextJob time c jobs g jobs' g')
    (starts : ∀ r, queued r → onCore (r.scheduled time)) : Records onCore queued g' := by
  cases next with
  | idle => exact records.offerCore c
  | dispatch head =>
    have waits := records.waiting _ (head ▸ List.mem_cons_self ..)
    exact records.pollJob.setRunning (starts _ waits) c

/-- `scheduler_new_job`. -/
theorem new {coreId : ℤ} (records : Records onCore queued g) (agree : Agree time none none jobs g)
    (new : NewJob time jobs g job coreId jobs' g')
    (runs : onCore ((newJob job.jobId job.priority time job.runTime).scheduled time))
    (waits : queued { newJob job.jobId job.priority time job.runTime with latestQueueTime := time })
    (updates : ∀ r, onCore r → onCore (updateRemainingTime r time))
    (stops : ∀ r, onCore r → queued (r.unscheduled time)) : Records onCore queued g' := by
  cases new with
  | idle head => exact records.pollCore runs head
  | @preempt victim r _ _ member onCore running =>
    have updated := records.updatedTo updates g.totalCores
    obtain ⟨_, hasCore, busy, _⟩ := agree.updated.onCore victim member onCore
    have was := updated.running victim.coreId r hasCore busy running
    exact ((updated.vacate victim.coreId).offerJob (stops r was)).setRunning runs victim.coreId
  | wait _ current =>
    obtain ⟨_, rfl⟩ | ⟨_, rfl, _⟩ := current
    · exact records.offerJob waits
    · exact (records.updatedTo updates g.totalCores).offerJob waits

/-- A change of both properties. -/
theorem imp {onCore' queued' : JobT → Prop} (records : Records onCore queued g)
    (running : ∀ c r, g.HasCore c → c ∉ g.idle → g.runningJobs c = some r → onCore r → onCore' r)
    (waiting : ∀ r ∈ g.queue, queued r → queued' r) : Records onCore' queued' g where
  running c r hasCore busy isRunning :=
    running c r hasCore busy isRunning (records.running c r hasCore busy isRunning)
  waiting r inQueue := waiting r inQueue (records.waiting r inQueue)

end Records

end OsLabs.Scheduler
