import OsLabs.Proofs.Scheduler.Agreement

/-! # The calls of the simulator

Each call of the library and what the simulator does with its result, put together from the parts of
`Agreement`. No call fails, and each leaves simulator and library in agreement.
-/

namespace OsLabs.Scheduler

open Globals

variable {time c : ℤ} {jobs jobs' : List SimJob} {g g' : Globals} {job : SimJob} {r : JobT}

/-- The globals that no call changes. -/
structure Globals.Keeps (g g' : Globals) : Prop where
  scheme : g'.scheme = g.scheme
  totalCores : g'.totalCores = g.totalCores
  comparer : g'.jobQueue.comparer = g.jobQueue.comparer

theorem Globals.Keeps.trans {g'' : Globals} (first : g.Keeps g') (second : g'.Keeps g'') : g.Keeps g'' :=
  ⟨second.scheme.trans first.scheme, second.totalCores.trans first.totalCores,
    second.comparer.trans first.comparer⟩

theorem map_alter_map {i : ℤ} {f h : SimJob → SimJob} (keeps : ∀ j, (f j).jobId = j.jobId) :
    (jobs.map (alter i f)).map (alter i h) = jobs.map (alter i (h ∘ f)) := by
  rw [List.map_map]
  refine List.map_congr_left fun j _ => ?_
  by_cases same : j.jobId = i
  · simp only [Function.comp_apply, alter, same, keeps, ↓reduceIte]
  · simp only [Function.comp_apply, alter, same, ↓reduceIte]

/-- Changes of one job that agree on it are the same. -/
theorem map_alter_congr {f h : SimJob → SimJob} (ids : (jobs.map SimJob.jobId).Nodup) (member : job ∈ jobs)
    (same : f job = h job) : jobs.map (alter job.jobId f) = jobs.map (alter job.jobId h) := by
  refine List.map_congr_left fun j inJobs => ?_
  by_cases here : j.jobId = job.jobId
  · obtain rfl := eq_of_jobId ids inJobs member here
    rw [alter, alter, if_pos rfl, if_pos rfl, same]
  · rw [alter, alter, if_neg here, if_neg here]

/-! ## `schedule_next_job` -/

/-- What `schedule_next_job` on a vacant core and the simulator's reaction amount to. -/
inductive NextJob (time c : ℤ) (jobs : List SimJob) (g : Globals) : List SimJob → Globals → Prop
  | idle (empty : g.queue = []) : NextJob time c jobs g jobs (g.offerCore c)
  | dispatch {r : JobT} {rest : List JobT} {job : SimJob} (head : g.queue = r :: rest) (member : job ∈ jobs)
      (arrived : job.arrived = true) (off : job.coreId = -1) (waits : Waits g.scheme job r) :
      NextJob time c jobs g (jobs.map (alter job.jobId (·.setCore c)))
        (g.pollJob.setRunning c (some (r.scheduled time)))

theorem NextJob.keeps (next : NextJob time c jobs g jobs' g') : g.Keeps g' := by
  cases next with
  | idle => exact ⟨rfl, rfl, rfl⟩
  | dispatch => exact ⟨rfl, rfl, pollJob_comparer g⟩

theorem scheduled_runs {scheme : Scheme} (time : ℤ) (waits : Waits scheme job r) :
    Runs scheme time job (r.scheduled time) where
  jobId := waits.jobId
  priority := waits.priority
  arrivalTime := waits.arrivalTime
  remaining notRR := by
    change r.remainingTime - (time - time) = job.runTime
    rw [sub_self, sub_zero, waits.remaining notRR]

theorem Agree.next (agree : Agree time (some c) none jobs g) (few : g.queue.tail = [] ∨ g.idle = []) :
    ∃ newJobId jobs' g', scheduleNextJob g c time = some (g', newJobId) ∧
      setNewJob newJobId c jobs = .ok jobs' ∧ NextJob time c jobs g jobs' g' ∧
      Agree time none none jobs' g' ∧ Conserving g' := by
  cases head : g.queue with
  | nil => exact ⟨-1, jobs, _, scheduleNextJob_nil head, rfl, .idle head, agree.idleCores, .inl head⟩
  | cons r rest =>
    obtain ⟨job, member, arrived, off, waits⟩ := agree.queued r (head ▸ List.mem_cons_self ..)
    have named : r.jobId ≠ -1 := fun minus =>
      agree.named (minus ▸ waits.jobId ▸ List.mem_map_of_mem member)
    have inHand : Agree time (some c) (some job.jobId) jobs g.pollJob := waits.jobId ▸ agree.dequeue head
    have placed := inHand.place member (scheduled_runs time waits)
    have same := map_alter_congr (f := SimJob.start c) (h := (·.setCore c))
      agree.ids member (SimJob.start_eq arrived c)
    rw [same] at placed
    refine ⟨r.jobId, _, _, scheduleNextJob_cons (agree.vacantCore c rfl).1 head, ?_,
      .dispatch head member arrived off waits, placed, ?_⟩
    · rw [setNewJob, if_neg named, waits.jobId, setActiveJob_eq c agree.ids member arrived]
      rfl
    · rw [head, List.tail_cons] at few
      refine few.imp (fun empty => ?_) id
      change g.pollJob.queue = []
      rw [pollJob_queue, head, List.tail_cons, empty]

/-- A finished job leaves its core vacant. -/
theorem Agree.deleted (agree : Agree time none none jobs g) {i : ℕ} (found : jobs[i]? = some job)
    (onCore : job.coreId ≠ -1) (r : JobT) :
    Agree time (some job.coreId) none (deleteJob jobs i) (g.finished job.coreId r time) := by
  have member : job ∈ jobs := List.mem_of_getElem? found
  have perm := deleteJob_perm found
  have fresh := (List.nodup_cons.mp (((perm.map SimJob.jobId).nodup_iff).mp agree.ids)).1
  have moved := perm.map (alter job.jobId (·.setCore (-1)))
  rw [List.map_cons, map_alter_of_notMem _ fresh, alter, if_pos rfl] at moved
  have vacant : Agree time (some job.coreId) (some (job.setCore (-1)).jobId) _ _ :=
    agree.vacate member onCore
  exact { vacant.drop moved with }

/-- `scheduler_job_finished` and the deletion of the job. -/
theorem Agree.finish (agree : Agree time none none jobs g) (conserving : Conserving g) {i : ℕ}
    (found : jobs[i]? = some job) (onCore : job.coreId ≠ -1) (running : g.runningJobs job.coreId = some r) :
    ∃ newJobId jobs' g', schedulerJobFinished g job.coreId job.jobId time = some (g', newJobId) ∧
      setNewJob newJobId job.coreId (deleteJob jobs i) = .ok jobs' ∧
      NextJob time job.coreId (deleteJob jobs i) (g.finished job.coreId r time) jobs' g' ∧
      Agree time none none jobs' g' ∧ Conserving g' := by
  have hasCore := (agree.onCore job (List.mem_of_getElem? found) onCore).2.1
  rw [schedulerJobFinished_eq hasCore running]
  exact (agree.deleted found onCore r).next (conserving.imp_left (congrArg List.tail))

/-- `scheduler_quantum_expired`. Under round robin the queue keeps no remaining times. -/
theorem Agree.expire (agree : Agree time none none jobs g) (conserving : Conserving g)
    (roundRobin : g.scheme = .rr) {i : ℕ} (found : jobs[i]? = some job) (onCore : job.coreId ≠ -1)
    (running : g.runningJobs job.coreId = some r) :
    ∃ newJobId jobs' g', schedulerQuantumExpired g job.coreId time = some (g', newJobId) ∧
      setNewJob newJobId job.coreId (jobs.set i (job.setCore (-1))) = .ok jobs' ∧
      NextJob time job.coreId (jobs.set i (job.setCore (-1)))
        ((g.setRunning job.coreId none).offerJob { r with latestQueueTime := time }) jobs' g' ∧
      Agree time none none jobs' g' ∧ Conserving g' := by
  have member : job ∈ jobs := List.mem_of_getElem? found
  obtain ⟨arrived, hasCore, _, r', running', runs⟩ := agree.onCore job member onCore
  obtain rfl := Option.some.inj (running'.symm.trans running)
  have vacant : Agree time (some job.coreId) (some (job.setCore (-1)).jobId) _ _ :=
    agree.vacate member onCore
  have inHand : job.setCore (-1) ∈ jobs.map (alter job.jobId (·.setCore (-1))) :=
    mem_alter.mpr (.inl ⟨job, member, rfl, rfl⟩)
  have waits : Waits g.scheme (job.setCore (-1)) { r' with latestQueueTime := time } :=
    ⟨⟨runs.jobId, runs.priority, runs.arrivalTime⟩, fun notRR => (notRR roundRobin).elim⟩
  have queued := Agree.enqueue vacant inHand waits
  have same : jobs.set i (job.setCore (-1)) =
      (jobs.map (alter job.jobId (·.setCore (-1)))).map (alter job.jobId SimJob.arrive) := by
    rw [set_eq_alter (·.setCore (-1)) agree.ids found, map_alter_map (by exact fun _ => rfl)]
    have still : (job.setCore (-1)).arrive = job.setCore (-1) := SimJob.arrive_eq arrived
    exact map_alter_congr agree.ids member still.symm
  rw [schedulerQuantumExpired_eq hasCore running', same]
  refine queued.next (conserving.imp_left fun empty => List.length_eq_zero_iff.mp ?_)
  rw [List.length_tail, (offerJob_perm _ _).length_eq, setRunning_queue, empty]
  rfl

/-! ## `scheduler_new_job` -/

/-- What `scheduler_new_job` amounts to: the new job gets an idle core, replaces the victim it comes
before, or waits. -/
inductive NewJob (time : ℤ) (jobs : List SimJob) (g : Globals) (job : SimJob) :
    ℤ → List SimJob → Globals → Prop
  | idle {c : ℤ} {cores : List ℤ} (head : g.idle = c :: cores) :
      NewJob time jobs g job c (jobs.map (alter job.jobId (SimJob.start c)))
        (g.pollCore.setRunning c
          (some ((newJob job.jobId job.priority time job.runTime).scheduled time)))
  | preempt {victim : SimJob} {r : JobT} (busy : g.idle = []) (preempts : g.scheme.preempts = true)
      (member : victim ∈ jobs) (onCore : victim.coreId ≠ -1)
      (running : (g.updatedTo time g.totalCores).runningJobs victim.coreId = some r)
      (latest : ∀ key, g.Compares time key → g.Latest time key g.totalCores victim.coreId)
      (before : g.jobQueue.comparer (newJob job.jobId job.priority time job.runTime) r < 0) :
      NewJob time jobs g job victim.coreId
        ((jobs.map (alter victim.jobId (·.setCore (-1)))).map
          (alter job.jobId (SimJob.start victim.coreId)))
        ((g.updatedTo time g.totalCores).preempted victim.coreId time r
          (newJob job.jobId job.priority time job.runTime))
  | wait {g' : Globals} (busy : g.idle = [])
      (current : g.scheme.preempts = false ∧ g' = g ∨
        g.scheme.preempts = true ∧ g' = g.updatedTo time g.totalCores ∧ ∃ least r, g.HasCore least ∧
          g'.runningJobs least = some r ∧
          (∀ key, g.Compares time key → g.Latest time key g.totalCores least) ∧
          ¬ g.jobQueue.comparer (newJob job.jobId job.priority time job.runTime) r < 0) :
      NewJob time jobs g job (-1) (jobs.map (alter job.jobId SimJob.arrive))
        (enqueueNew g' (newJob job.jobId job.priority time job.runTime) time).1

theorem NewJob.keeps {coreId : ℤ} (new : NewJob time jobs g job coreId jobs' g') : g.Keeps g' := by
  cases new with
  | idle => exact ⟨rfl, rfl, rfl⟩
  | preempt => exact ⟨rfl, rfl, offerJob_comparer _ _⟩
  | wait _ current =>
    rcases current with ⟨_, rfl⟩ | ⟨_, rfl, _⟩ <;> exact ⟨rfl, rfl, offerJob_comparer _ _⟩

theorem newJob_runs {scheme : Scheme} (job : SimJob) (now : job.arrivalTime = time) :
    Runs scheme time job ((newJob job.jobId job.priority time job.runTime).scheduled time) where
  jobId := rfl
  priority := rfl
  arrivalTime := now.symm
  remaining _ := by
    change job.runTime - (time - time) = job.runTime
    rw [sub_self, sub_zero]

theorem newJob_waits {scheme : Scheme} (job : SimJob) (now : job.arrivalTime = time) :
    Waits scheme job { newJob job.jobId job.priority time job.runTime with latestQueueTime := time } where
  jobId := rfl
  priority := rfl
  arrivalTime := now.symm
  remaining _ := rfl

theorem unscheduled_waits {scheme : Scheme} (runs : Runs scheme time job r) :
    Waits scheme job (r.unscheduled time) where
  jobId := runs.jobId
  priority := runs.priority
  arrivalTime := runs.arrivalTime
  remaining := runs.remaining

/-- `scheduler_new_job` for a job that arrives now. -/
theorem Agree.arrive (agree : Agree time none none jobs g) (conserving : Conserving g)
    (positive : 0 < g.totalCores) (member : job ∈ jobs) (notArrived : job.arrived = false)
    (now : job.arrivalTime = time) :
    ∃ coreId jobs' g', schedulerNewJob g job.jobId time job.runTime job.priority = some (g', coreId) ∧
      NewJob time jobs g job coreId jobs' g' ∧ Agree time none none jobs' g' ∧ Conserving g' := by
  have inHand := agree.hold member notArrived
  cases idle : g.idle with
  | cons c cores =>
    have isIdle : c ∈ g.idle := idle ▸ List.mem_cons_self ..
    have noQueue : g.queue = [] := conserving.resolve_right fun none => List.cons_ne_nil c cores (idle.symm.trans none)
    refine ⟨c, _, _, schedulerNewJob_idle (agree.idleCore c isIdle).1 idle .., .idle idle, ?_, .inl noQueue⟩
    exact ((agree.pollCore idle).hold member notArrived).place member (newJob_runs job now)
  | nil =>
    cases preempts : g.scheme.preempts with
    | false =>
      refine ⟨-1, _, _, schedulerNewJob_waits idle preempts .., .wait idle (.inl ⟨preempts, rfl⟩), ?_, .inr idle⟩
      exact inHand.enqueue member (newJob_waits job now)
    | true =>
      have busy : ∀ core, g.HasCore core → ∃ r, g.runningJobs core = some r := by
        intro core hasCore
        obtain ⟨j, inJobs, rfl⟩ := agree.busy core hasCore (idle ▸ List.not_mem_nil) nofun
        have nonneg := hasCore.1
        obtain ⟨_, _, _, r, running, _⟩ := agree.onCore j inJobs (by omega)
        exact ⟨r, running⟩
      obtain ⟨least, r, hasLeast, running, latest, called⟩ := schedulerNewJob_preempts time idle
        preempts positive busy job.jobId job.runTime job.priority
      rw [called]
      split
      · next before =>
        obtain ⟨victim, inJobs, rfl⟩ := agree.busy least hasLeast (idle ▸ List.not_mem_nil) nofun
        have nonneg := hasLeast.1
        have onCore : victim.coreId ≠ -1 := by omega
        have updated := agree.updated
        obtain ⟨arrived, _, _, r', running', runs⟩ := updated.onCore victim inJobs onCore
        obtain rfl := Option.some.inj (running'.symm.trans running)
        have inOld : victim.setCore (-1) ∈ jobs.map (alter victim.jobId (·.setCore (-1))) :=
          mem_alter.mpr (.inl ⟨victim, inJobs, rfl, rfl⟩)
        have vacant : Agree time (some victim.coreId) (some (victim.setCore (-1)).jobId) _ _ :=
          updated.vacate inJobs onCore
        have waits : Waits (g.updatedTo time g.totalCores).scheme (victim.setCore (-1)) (r'.unscheduled time) :=
          ⟨⟨runs.jobId, runs.priority, runs.arrivalTime⟩, (unscheduled_waits runs).remaining⟩
        have queued := Agree.enqueue vacant inOld waits
        have same : (jobs.map (alter victim.jobId (·.setCore (-1)))).map (alter victim.jobId SimJob.arrive) =
            jobs.map (alter victim.jobId (·.setCore (-1))) := by
          rw [map_alter_map (by exact fun _ => rfl)]
          have still : (victim.setCore (-1)).arrive = victim.setCore (-1) := SimJob.arrive_eq arrived
          exact map_alter_congr agree.ids inJobs still
        have other : job.jobId ≠ victim.jobId := by
          intro same
          obtain rfl := eq_of_jobId agree.ids member inJobs same
          exact Bool.noConfusion (notArrived.symm.trans arrived)
        have still : job ∈ jobs.map (alter victim.jobId (·.setCore (-1))) := mem_alter.mpr (.inr ⟨member, other⟩)
        rw [show (victim.setCore (-1)).jobId = victim.jobId from rfl, same] at queued
        refine ⟨_, _, _, rfl, .preempt idle preempts inJobs onCore running latest before, ?_, .inr idle⟩
        exact (queued.hold still notArrived).place still (newJob_runs job now)
      · next notBefore =>
        refine ⟨_, _, _, rfl, .wait idle (.inr ⟨preempts, rfl, least, r, hasLeast, running, latest, notBefore⟩),
          ?_, .inr idle⟩
        exact (agree.updated.hold member notArrived).enqueue member (newJob_waits job now)

end OsLabs.Scheduler
