import Mathlib.Data.List.Nodup
import OsLabs.Model.Scheduler.Simulator
import OsLabs.Proofs.Scheduler.Libscheduler

/-! # Simulator and library agree

`Agree` relates the jobs array to the globals. While a call is under way one core may be vacant: it
runs no job and is not on the idle list. Each lemma below is one part of a scheduler call together
with the simulator's reaction to it; the calls are put together from them.
-/

namespace OsLabs.Scheduler

open Globals

/-! ## Changing one job of the array -/

/-- Change the job with an id. -/
def alter (jobId : ℤ) (f : SimJob → SimJob) (job : SimJob) : SimJob :=
  if job.jobId = jobId then f job else job

theorem mem_alter {jobs : List SimJob} {jobId : ℤ} {f : SimJob → SimJob} {j' : SimJob} :
    j' ∈ jobs.map (alter jobId f) ↔
      (∃ j ∈ jobs, j.jobId = jobId ∧ f j = j') ∨ (j' ∈ jobs ∧ j'.jobId ≠ jobId) := by
  rw [List.mem_map]
  constructor
  · rintro ⟨j, member, rfl⟩
    by_cases same : j.jobId = jobId
    · rw [alter, if_pos same]
      exact .inl ⟨j, member, same, rfl⟩
    · rw [alter, if_neg same]
      exact .inr ⟨member, same⟩
  · rintro (⟨j, member, same, rfl⟩ | ⟨member, other⟩)
    · exact ⟨j, member, if_pos same⟩
    · exact ⟨j', member, if_neg other⟩

theorem map_alter_jobId {jobs : List SimJob} {jobId : ℤ} {f : SimJob → SimJob}
    (keeps : ∀ j, (f j).jobId = j.jobId) :
    (jobs.map (alter jobId f)).map SimJob.jobId = jobs.map SimJob.jobId := by
  rw [List.map_map]
  refine List.map_congr_left fun j _ => ?_
  rw [Function.comp_apply, alter]
  split
  · exact keeps j
  · rfl

theorem eq_of_jobId {jobs : List SimJob} {j j' : SimJob} (ids : (jobs.map SimJob.jobId).Nodup)
    (member : j ∈ jobs) (member' : j' ∈ jobs) (same : j.jobId = j'.jobId) : j = j' :=
  List.inj_on_of_nodup_map ids member member' same

/-- Writing to one entry is changing the job with its id. -/
theorem set_eq_alter {jobs : List SimJob} {i : ℕ} {job : SimJob} (f : SimJob → SimJob)
    (ids : (jobs.map SimJob.jobId).Nodup) (found : jobs[i]? = some job) :
    jobs.set i (f job) = jobs.map (alter job.jobId f) := by
  induction jobs generalizing i with
  | nil => rfl
  | cons j jobs ih =>
    obtain ⟨fresh, ids⟩ := List.nodup_cons.mp ids
    cases i with
    | zero =>
      obtain rfl := Option.some.inj found
      have others : jobs.map (alter j.jobId f) = jobs := by
        refine (List.map_congr_left fun k member => if_neg fun same => fresh ?_).trans (List.map_id jobs)
        exact same ▸ List.mem_map_of_mem member
      rw [List.set_cons_zero, List.map_cons, others, alter, if_pos rfl]
    | succ i =>
      have member : job ∈ jobs := List.mem_of_getElem? found
      have other : j.jobId ≠ job.jobId := fun same => fresh (same ▸ List.mem_map_of_mem member)
      rw [List.set_cons_succ, List.map_cons, alter, if_neg other, ih ids found]

theorem map_alter_of_notMem {jobs : List SimJob} {jobId : ℤ} (f : SimJob → SimJob)
    (absent : jobId ∉ jobs.map SimJob.jobId) : jobs.map (alter jobId f) = jobs :=
  (List.map_congr_left fun j member => if_neg fun (same : j.jobId = jobId) =>
    absent (same ▸ List.mem_map_of_mem member)).trans (List.map_id jobs)

theorem setActiveJob_eq {jobs : List SimJob} {job : SimJob} (coreId : ℤ)
    (ids : (jobs.map SimJob.jobId).Nodup) (member : job ∈ jobs) (arrived : job.arrived = true) :
    setActiveJob job.jobId coreId jobs = some (jobs.map (alter job.jobId (·.setCore coreId))) := by
  induction jobs with
  | nil => exact (List.not_mem_nil member).elim
  | cons j jobs ih =>
    obtain ⟨fresh, ids⟩ := List.nodup_cons.mp ids
    rw [setActiveJob, List.map_cons, alter]
    rcases List.mem_cons.mp member with rfl | member
    · rw [if_pos ⟨rfl, arrived⟩, if_pos rfl, map_alter_of_notMem _ fresh]
      rfl
    · have other : j.jobId ≠ job.jobId := fun same => fresh (same ▸ List.mem_map_of_mem member)
      rw [if_neg fun both => other both.1, if_neg other, ih ids member]
      rfl

theorem deleteJob_perm {jobs : List SimJob} {i : ℕ} {job : SimJob} (found : jobs[i]? = some job) :
    jobs.Perm (job :: deleteJob jobs i) := by
  obtain ⟨inside, here⟩ := List.getElem?_eq_some_iff.mp found
  obtain ⟨front, last, rfl⟩ := (List.eq_nil_or_concat' jobs).resolve_left
    (List.ne_nil_of_length_pos (Nat.zero_lt_of_lt inside))
  rw [deleteJob, List.getLast?_concat, List.length_append, List.length_singleton, Nat.add_sub_cancel]
  rw [List.length_append, List.length_singleton] at inside
  by_cases isLast : i = front.length
  · subst isLast
    rw [List.getElem_concat_length rfl] at here
    simp only [ne_eq, not_true_eq_false, ↓reduceIte, List.dropLast_concat, here]
    exact List.perm_append_singleton job front
  · have inFront : i < front.length := by omega
    rw [List.getElem_append_left inFront] at here
    simp only [ne_eq, isLast, not_false_eq_true, ↓reduceIte]
    rw [List.set_append_left _ _ inFront, List.dropLast_concat]
    have moved := (List.set_perm_cons_eraseIdx inFront last).cons job
    have whole := List.getElem_cons_eraseIdx_perm inFront
    rw [here] at whole
    refine (List.perm_append_singleton last front).trans ((whole.symm.cons last).trans ?_)
    exact (List.Perm.swap ..).trans moved.symm

def SimJob.arrive (job : SimJob) : SimJob := { job with arrived := true }

/-- A job that is given to a core. -/
def SimJob.start (coreId : ℤ) (job : SimJob) : SimJob := { job with arrived := true, coreId }

theorem SimJob.arrive_eq {job : SimJob} (arrived : job.arrived = true) : job.arrive = job := by
  rw [SimJob.arrive, ← arrived]

theorem SimJob.start_eq {job : SimJob} (arrived : job.arrived = true) (coreId : ℤ) :
    job.start coreId = job.setCore coreId := by
  rw [start, setCore, ← arrived]

/-- A job after a time unit. -/
def SimJob.worked (j : SimJob) : SimJob :=
  if j.coreId ≠ -1 then { j with runTime := j.runTime - 1 } else j

@[simp] theorem SimJob.worked_jobId (j : SimJob) : j.worked.jobId = j.jobId := by
  rw [worked]
  split <;> rfl

@[simp] theorem SimJob.worked_coreId (j : SimJob) : j.worked.coreId = j.coreId := by
  rw [worked]
  split <;> rfl

/-! ## The relation -/

/-- The library's record belongs to the simulator's job. -/
structure Record (j : SimJob) (r : JobT) : Prop where
  jobId : r.jobId = j.jobId
  priority : r.priority = j.priority
  arrivalTime : r.arrivalTime = j.arrivalTime

/-- The record of a job on a core. Its remaining time is current as of the last update; round robin
never updates it. -/
structure Runs (scheme : Scheme) (time : ℤ) (j : SimJob) (r : JobT) : Prop extends Record j r where
  remaining : scheme ≠ .rr → r.remainingTime - (time - r.latestUpdateTime) = j.runTime

/-- The record of a waiting job. -/
structure Waits (scheme : Scheme) (j : SimJob) (r : JobT) : Prop extends Record j r where
  remaining : scheme ≠ .rr → r.remainingTime = j.runTime

/-- The array and the globals agree, but for a vacant core and for a job in hand: neither on a core
nor in the queue. -/
structure Agree (time : ℤ) (vacant hand : Option ℤ) (jobs : List SimJob) (g : Globals) : Prop where
  ids : (jobs.map SimJob.jobId).Nodup
  named : -1 ∉ jobs.map SimJob.jobId
  idleNodup : g.idle.Nodup
  idleCore : ∀ c ∈ g.idle, g.HasCore c ∧ vacant ≠ some c
  vacantCore : ∀ c, vacant = some c → g.HasCore c ∧ ∀ j ∈ jobs, j.coreId ≠ c
  held : ∀ i, hand = some i → (∀ j ∈ jobs, j.jobId = i → j.coreId = -1) ∧ ∀ r ∈ g.queue, r.jobId ≠ i
  busy : ∀ c, g.HasCore c → c ∉ g.idle → vacant ≠ some c → ∃ j ∈ jobs, j.coreId = c
  onCore : ∀ j ∈ jobs, j.coreId ≠ -1 → j.arrived = true ∧ g.HasCore j.coreId ∧ j.coreId ∉ g.idle ∧
    ∃ r, g.runningJobs j.coreId = some r ∧ Runs g.scheme time j r
  queueIds : (g.queue.map JobT.jobId).Nodup
  queued : ∀ r ∈ g.queue, ∃ j ∈ jobs, j.arrived = true ∧ j.coreId = -1 ∧ Waits g.scheme j r
  waiting : ∀ j ∈ jobs, j.arrived = true → j.coreId = -1 → hand ≠ some j.jobId →
    ∃ r ∈ g.queue, r.jobId = j.jobId

/-- No core is idle while a job waits. -/
def Conserving (g : Globals) : Prop := g.queue = [] ∨ g.idle = []

namespace Agree

variable {time c i : ℤ} {vacant hand : Option ℤ} {jobs jobs' : List SimJob} {g : Globals}
  {j j' job : SimJob} {r : JobT}

/-- No core runs two jobs. -/
theorem core_inj (agree : Agree time vacant hand jobs g) (member : j ∈ jobs) (member' : j' ∈ jobs)
    (onCore : j.coreId ≠ -1) (same : j.coreId = j'.coreId) : j = j' := by
  obtain ⟨_, _, _, r, running, runs⟩ := agree.onCore j member onCore
  obtain ⟨_, _, _, r', running', runs'⟩ := agree.onCore j' member' (same ▸ onCore)
  rw [← same] at running'
  obtain rfl := Option.some.inj (running.symm.trans running')
  exact eq_of_jobId agree.ids member member' (runs.jobId.symm.trans runs'.jobId)

theorem core_of_notArrived (agree : Agree time vacant hand jobs g) (member : j ∈ jobs)
    (notArrived : j.arrived = false) : j.coreId = -1 := by
  by_contra onCore
  exact Bool.noConfusion (notArrived.symm.trans (agree.onCore j member onCore).1)

/-- A job that has not arrived may be taken in hand. -/
theorem hold (agree : Agree time vacant none jobs g) (member : job ∈ jobs)
    (notArrived : job.arrived = false) : Agree time vacant (some job.jobId) jobs g where
  __ := agree
  held := by
    rintro _ ⟨⟩
    constructor
    · intro j inJobs same
      obtain rfl := eq_of_jobId agree.ids inJobs member same
      exact agree.core_of_notArrived inJobs notArrived
    · intro r inQueue same
      obtain ⟨j, inJobs, arrived, _, waits⟩ := agree.queued r inQueue
      obtain rfl := eq_of_jobId agree.ids inJobs member (waits.jobId.symm.trans same)
      exact Bool.noConfusion (notArrived.symm.trans arrived)
  waiting j inJobs arrived off _ := agree.waiting j inJobs arrived off nofun

/-- The head of the queue is taken in hand. -/
theorem dequeue (agree : Agree time vacant none jobs g) {rest : List JobT} (head : g.queue = r :: rest) :
    Agree time vacant (some r.jobId) jobs g.pollJob := by
  have tail : g.pollJob.queue = rest := by rw [pollJob_queue, head, List.tail_cons]
  have inQueue {r' : JobT} (inRest : r' ∈ rest) : r' ∈ g.queue := head ▸ List.mem_cons_of_mem r inRest
  have queueIds := agree.queueIds
  rw [head, List.map_cons, List.nodup_cons] at queueIds
  obtain ⟨job, member, _, off, waits⟩ := agree.queued r (head ▸ List.mem_cons_self ..)
  refine { agree with held := ?_, queueIds := ?_, queued := ?_, waiting := ?_ }
  · rintro _ ⟨⟩
    constructor
    · intro j inJobs same
      obtain rfl := eq_of_jobId agree.ids inJobs member (same.trans waits.jobId)
      exact off
    · rw [tail]
      exact fun r' inRest same => queueIds.1 (same ▸ List.mem_map_of_mem inRest)
  · exact tail ▸ queueIds.2
  · rw [tail]
    exact fun r' inRest => agree.queued r' (inQueue inRest)
  · intro j inJobs arrived off' notHeld
    obtain ⟨r', member', same⟩ := agree.waiting j inJobs arrived off' nofun
    rw [head] at member'
    rw [tail]
    rcases List.mem_cons.mp member' with rfl | inRest
    · exact (notHeld (congrArg some same)).elim
    · exact ⟨r', inRest, same⟩

/-- The job in hand enters the queue. -/
theorem enqueue (agree : Agree time vacant (some job.jobId) jobs g) (member : job ∈ jobs)
    (waits : Waits g.scheme job r) :
    Agree time vacant none (jobs.map (alter job.jobId SimJob.arrive)) (g.offerJob r) := by
  have queue {r' : JobT} : r' ∈ (g.offerJob r).queue ↔ r' = r ∨ r' ∈ g.queue :=
    (offerJob_perm g r).mem_iff.trans List.mem_cons
  obtain ⟨held, notQueued⟩ := agree.held _ rfl
  have whole {j : SimJob} (inJobs : j ∈ jobs) (same : j.jobId = job.jobId) : j = job :=
    eq_of_jobId agree.ids inJobs member same
  refine ⟨?_, ?_, agree.idleNodup, agree.idleCore, ?_, nofun, ?_, ?_, ?_, ?_, ?_⟩
  · rw [map_alter_jobId (by exact fun _ => rfl)]
    exact agree.ids
  · rw [map_alter_jobId (by exact fun _ => rfl)]
    exact agree.named
  · intro c isVacant
    obtain ⟨hasCore, free⟩ := agree.vacantCore c isVacant
    refine ⟨hasCore, fun j' changed => ?_⟩
    rcases mem_alter.mp changed with ⟨j, inJobs, _, rfl⟩ | ⟨inJobs, _⟩
    · exact free j inJobs
    · exact free j' inJobs
  · intro c hasCore notIdle notVacant
    obtain ⟨j, inJobs, here⟩ := agree.busy c hasCore notIdle notVacant
    by_cases same : j.jobId = job.jobId
    · exact ⟨_, mem_alter.mpr (.inl ⟨j, inJobs, same, rfl⟩), here⟩
    · exact ⟨j, mem_alter.mpr (.inr ⟨inJobs, same⟩), here⟩
  · intro j' changed onCore
    rcases mem_alter.mp changed with ⟨j, inJobs, same, rfl⟩ | ⟨inJobs, _⟩
    · exact (onCore (held j inJobs same)).elim
    · exact agree.onCore j' inJobs onCore
  · refine ((offerJob_perm g r).map JobT.jobId).nodup_iff.mpr (List.nodup_cons.mpr ⟨?_, agree.queueIds⟩)
    intro twice
    obtain ⟨r', inQueue, same⟩ := List.mem_map.mp twice
    exact notQueued r' inQueue (same.trans waits.jobId)
  · intro r' inQueue
    rcases queue.mp inQueue with rfl | old
    · exact ⟨_, mem_alter.mpr (.inl ⟨job, member, rfl, rfl⟩), rfl, held job member rfl,
        ⟨waits.jobId, waits.priority, waits.arrivalTime⟩, waits.remaining⟩
    · obtain ⟨j, inJobs, arrived, off, waits'⟩ := agree.queued r' old
      have other : j.jobId ≠ job.jobId := fun same => notQueued r' old (waits'.jobId.trans same)
      exact ⟨j, mem_alter.mpr (.inr ⟨inJobs, other⟩), arrived, off, waits'⟩
  · intro j' changed arrived off _
    rcases mem_alter.mp changed with ⟨j, inJobs, same, rfl⟩ | ⟨inJobs, other⟩
    · exact ⟨r, queue.mpr (.inl rfl), waits.jobId.trans same.symm⟩
    · obtain ⟨r', inQueue, same⟩ := agree.waiting j' inJobs arrived off
        fun isHand => other (Option.some.inj isHand).symm
      exact ⟨r', queue.mpr (.inr inQueue), same⟩

/-- The job in hand is put on the vacant core. -/
theorem place (agree : Agree time (some c) (some job.jobId) jobs g) (member : job ∈ jobs)
    (runs : Runs g.scheme time job r) :
    Agree time none none (jobs.map (alter job.jobId (SimJob.start c)))
      (g.setRunning c (some r)) := by
  obtain ⟨held, notQueued⟩ := agree.held _ rfl
  obtain ⟨hasCore, free⟩ := agree.vacantCore c rfl
  have notMinus : c ≠ -1 := fun minus => by
    have nonneg := hasCore.1
    omega
  have whole {j : SimJob} (inJobs : j ∈ jobs) (same : j.jobId = job.jobId) : j = job :=
    eq_of_jobId agree.ids inJobs member same
  refine ⟨?_, ?_, agree.idleNodup, ?_, nofun, nofun, ?_, ?_, agree.queueIds, ?_, ?_⟩
  · rw [map_alter_jobId (by exact fun _ => rfl)]
    exact agree.ids
  · rw [map_alter_jobId (by exact fun _ => rfl)]
    exact agree.named
  · exact fun c' isIdle => ⟨(agree.idleCore c' isIdle).1, nofun⟩
  · intro c' hasCore' notIdle _
    by_cases here : c' = c
    · exact ⟨_, mem_alter.mpr (.inl ⟨job, member, rfl, rfl⟩), here.symm⟩
    · obtain ⟨j, inJobs, onCore⟩ := agree.busy c' hasCore' notIdle fun same => here (Option.some.inj same).symm
      have other : j.jobId ≠ job.jobId := by
        intro same
        have off := held j inJobs same
        have nonneg := hasCore'.1
        omega
      exact ⟨j, mem_alter.mpr (.inr ⟨inJobs, other⟩), onCore⟩
  · intro j' changed onCore
    rcases mem_alter.mp changed with ⟨j, inJobs, same, rfl⟩ | ⟨inJobs, _⟩
    · obtain rfl := whole inJobs same
      refine ⟨rfl, hasCore, fun isIdle => (agree.idleCore c isIdle).2 rfl, r, setRunning_self g c _, ?_⟩
      exact ⟨⟨runs.jobId, runs.priority, runs.arrivalTime⟩, runs.remaining⟩
    · obtain ⟨arrived, hasCore', notIdle, r', running, runs'⟩ := agree.onCore j' inJobs onCore
      exact ⟨arrived, hasCore', notIdle, r',
        (setRunning_of_ne g _ (free j' inJobs)).trans running, runs'⟩
  · intro r' inQueue
    obtain ⟨j, inJobs, arrived, off, waits⟩ := agree.queued r' inQueue
    have other : j.jobId ≠ job.jobId := fun same => notQueued r' inQueue (waits.jobId.trans same)
    exact ⟨j, mem_alter.mpr (.inr ⟨inJobs, other⟩), arrived, off, waits⟩
  · intro j' changed arrived off _
    rcases mem_alter.mp changed with ⟨j, inJobs, _, rfl⟩ | ⟨inJobs, other⟩
    · exact (notMinus off).elim
    · exact agree.waiting j' inJobs arrived off fun isHand => other (Option.some.inj isHand).symm

/-- A running job is taken in hand; its core becomes vacant. -/
theorem vacate (agree : Agree time none none jobs g) (member : job ∈ jobs) (onCore : job.coreId ≠ -1) :
    Agree time (some job.coreId) (some job.jobId) (jobs.map (alter job.jobId (·.setCore (-1))))
      (g.setRunning job.coreId none) := by
  obtain ⟨_, hasCore, notIdle, _⟩ := agree.onCore job member onCore
  have elsewhere {j : SimJob} (inJobs : j ∈ jobs) (other : j.jobId ≠ job.jobId) :
      j.coreId ≠ job.coreId := by
    intro same
    exact other (congrArg SimJob.jobId (agree.core_inj member inJobs onCore same.symm)).symm
  refine ⟨?_, ?_, agree.idleNodup, ?_, ?_, ?_, ?_, ?_, agree.queueIds, ?_, ?_⟩
  · rw [map_alter_jobId (by exact fun _ => rfl)]
    exact agree.ids
  · rw [map_alter_jobId (by exact fun _ => rfl)]
    exact agree.named
  · exact fun c isIdle => ⟨(agree.idleCore c isIdle).1, fun same => notIdle (Option.some.inj same ▸ isIdle)⟩
  · rintro _ ⟨⟩
    refine ⟨hasCore, fun j' changed => ?_⟩
    rcases mem_alter.mp changed with ⟨j, _, _, rfl⟩ | ⟨inJobs, other⟩
    · exact onCore.symm
    · exact elsewhere inJobs other
  · rintro _ ⟨⟩
    refine ⟨fun j' changed same => ?_, fun r inQueue same => ?_⟩
    · rcases mem_alter.mp changed with ⟨j, _, _, rfl⟩ | ⟨_, other⟩
      · rfl
      · exact (other same).elim
    · obtain ⟨j, inJobs, _, off, waits⟩ := agree.queued r inQueue
      obtain rfl := eq_of_jobId agree.ids inJobs member (waits.jobId.symm.trans same)
      exact onCore off
  · intro c hasCore' notIdle' notVacant
    obtain ⟨j, inJobs, here⟩ := agree.busy c hasCore' notIdle' nofun
    have other : j.jobId ≠ job.jobId := by
      intro same
      obtain rfl := eq_of_jobId agree.ids inJobs member same
      exact notVacant (congrArg some here)
    exact ⟨j, mem_alter.mpr (.inr ⟨inJobs, other⟩), here⟩
  · intro j' changed onCore'
    rcases mem_alter.mp changed with ⟨j, _, _, rfl⟩ | ⟨inJobs, other⟩
    · exact (onCore' rfl).elim
    · obtain ⟨arrived, hasCore', notIdle', r', running, runs⟩ := agree.onCore j' inJobs onCore'
      exact ⟨arrived, hasCore', notIdle', r',
        (setRunning_of_ne g _ (elsewhere inJobs other)).trans running, runs⟩
  · intro r inQueue
    obtain ⟨j, inJobs, arrived, off, waits⟩ := agree.queued r inQueue
    have other : j.jobId ≠ job.jobId := by
      intro same
      obtain rfl := eq_of_jobId agree.ids inJobs member same
      exact onCore off
    exact ⟨j, mem_alter.mpr (.inr ⟨inJobs, other⟩), arrived, off, waits⟩
  · intro j' changed arrived off notHeld
    rcases mem_alter.mp changed with ⟨j, _, same, rfl⟩ | ⟨inJobs, _⟩
    · exact (notHeld (congrArg some same.symm)).elim
    · exact agree.waiting j' inJobs arrived off nofun

/-- The job in hand is deleted. -/
theorem drop (agree : Agree time vacant (some job.jobId) jobs g) (perm : jobs.Perm (job :: jobs')) :
    Agree time vacant none jobs' g := by
  have member : job ∈ jobs := perm.mem_iff.mpr (List.mem_cons_self ..)
  have old {j : SimJob} (inRest : j ∈ jobs') : j ∈ jobs := perm.mem_iff.mpr (List.mem_cons_of_mem _ inRest)
  have split {j : SimJob} (inJobs : j ∈ jobs) : j = job ∨ j ∈ jobs' :=
    List.mem_cons.mp (perm.mem_iff.mp inJobs)
  obtain ⟨held, notQueued⟩ := agree.held _ rfl
  obtain ⟨fresh, ids⟩ := List.nodup_cons.mp (((perm.map SimJob.jobId).nodup_iff).mp agree.ids)
  refine ⟨ids, ?_, agree.idleNodup, agree.idleCore, ?_, nofun, ?_, ?_, agree.queueIds, ?_, ?_⟩
  · intro minus
    obtain ⟨j, inRest, same⟩ := List.mem_map.mp minus
    exact agree.named (List.mem_map.mpr ⟨j, old inRest, same⟩)
  · intro c isVacant
    obtain ⟨hasCore, free⟩ := agree.vacantCore c isVacant
    exact ⟨hasCore, fun j inRest => free j (old inRest)⟩
  · intro c hasCore notIdle notVacant
    obtain ⟨j, inJobs, here⟩ := agree.busy c hasCore notIdle notVacant
    rcases split inJobs with rfl | inRest
    · have off := held j member rfl
      have nonneg := hasCore.1
      omega
    · exact ⟨j, inRest, here⟩
  · exact fun j inRest => agree.onCore j (old inRest)
  · intro r inQueue
    obtain ⟨j, inJobs, arrived, off, waits⟩ := agree.queued r inQueue
    rcases split inJobs with rfl | inRest
    · exact (notQueued r inQueue waits.jobId).elim
    · exact ⟨j, inRest, arrived, off, waits⟩
  · intro j inRest arrived off _
    refine agree.waiting j (old inRest) arrived off fun isHand => fresh ?_
    exact Option.some.inj isHand ▸ List.mem_map_of_mem inRest

/-- The vacant core becomes idle. -/
theorem idleCores (agree : Agree time (some c) none jobs g) : Agree time none none jobs (g.offerCore c) := by
  have idle {c' : ℤ} : c' ∈ (g.offerCore c).idle ↔ c' = c ∨ c' ∈ g.idle :=
    (offerCore_perm g c).mem_iff.trans List.mem_cons
  obtain ⟨hasCore, free⟩ := agree.vacantCore c rfl
  refine ⟨agree.ids, agree.named, ?_, ?_, nofun, nofun, ?_, ?_, agree.queueIds, agree.queued, agree.waiting⟩
  · refine (offerCore_perm g c).nodup_iff.mpr (List.nodup_cons.mpr ⟨?_, agree.idleNodup⟩)
    exact fun isIdle => (agree.idleCore c isIdle).2 rfl
  · intro c' isIdle
    rcases idle.mp isIdle with rfl | old
    · exact ⟨hasCore, nofun⟩
    · exact ⟨(agree.idleCore c' old).1, nofun⟩
  · intro c' hasCore' notIdle _
    refine agree.busy c' hasCore' (fun old => notIdle (idle.mpr (.inr old))) fun same => ?_
    exact notIdle (idle.mpr (.inl (Option.some.inj same).symm))
  · intro j inJobs onCore
    obtain ⟨arrived, hasCore', notIdle, running⟩ := agree.onCore j inJobs onCore
    refine ⟨arrived, hasCore', fun isIdle => ?_, running⟩
    rcases idle.mp isIdle with same | old
    · exact free j inJobs same
    · exact notIdle old

/-- The first idle core becomes vacant. -/
theorem pollCore (agree : Agree time none none jobs g) {cores : List ℤ} (head : g.idle = c :: cores) :
    Agree time (some c) none jobs g.pollCore := by
  have tail : g.pollCore.idle = cores := by rw [pollCore_idle, head, List.tail_cons]
  have nodup := agree.idleNodup
  rw [head, List.nodup_cons] at nodup
  have isIdle : c ∈ g.idle := head ▸ List.mem_cons_self ..
  have old {c' : ℤ} (member : c' ∈ cores) : c' ∈ g.idle := head ▸ List.mem_cons_of_mem c member
  refine ⟨agree.ids, agree.named, tail ▸ nodup.2, ?_, ?_, nofun, ?_, ?_, agree.queueIds, agree.queued,
    agree.waiting⟩
  · rw [tail]
    rintro c' member
    exact ⟨(agree.idleCore c' (old member)).1, fun same => nodup.1 (Option.some.inj same ▸ member)⟩
  · rintro _ ⟨⟩
    refine ⟨(agree.idleCore c isIdle).1, fun j inJobs here => ?_⟩
    have nonneg := (agree.idleCore c isIdle).1.1
    exact (agree.onCore j inJobs (by omega)).2.2.1 (here ▸ isIdle)
  · rw [tail]
    intro c' hasCore notIdle notVacant
    refine agree.busy c' hasCore (fun isIdle' => ?_) nofun
    rw [head] at isIdle'
    rcases List.mem_cons.mp isIdle' with rfl | member
    · exact notVacant rfl
    · exact notIdle member
  · intro j inJobs onCore
    obtain ⟨arrived, hasCore, notIdle, running⟩ := agree.onCore j inJobs onCore
    exact ⟨arrived, hasCore, fun member => notIdle (old (tail ▸ member)), running⟩

/-- Bringing the records on the cores up to date changes nothing. -/
theorem updated (agree : Agree time vacant hand jobs g) :
    Agree time vacant hand jobs (g.updatedTo time g.totalCores) where
  __ := agree
  onCore j inJobs onCore := by
    obtain ⟨arrived, hasCore, notIdle, r, running, runs⟩ := agree.onCore j inJobs onCore
    refine ⟨arrived, hasCore, notIdle, _, updatedTo_below running hasCore.1 hasCore.2,
      ⟨runs.jobId, runs.priority, runs.arrivalTime⟩, fun notRR => ?_⟩
    rw [← runs.remaining notRR, updateRemainingTime, sub_self, sub_zero]

/-- A time unit passes: the jobs on cores have run for one unit more. -/
theorem tick (agree : Agree time none none jobs g) :
    Agree (time + 1) none none (jobs.map SimJob.worked) g := by
  have ids : (jobs.map SimJob.worked).map SimJob.jobId = jobs.map SimJob.jobId := by
    rw [List.map_map]
    exact List.map_congr_left fun j _ => j.worked_jobId
  refine ⟨ids ▸ agree.ids, ids ▸ agree.named, agree.idleNodup, agree.idleCore, nofun, nofun, ?_, ?_,
    agree.queueIds, ?_, ?_⟩
  · intro c hasCore notIdle notVacant
    obtain ⟨j, inJobs, here⟩ := agree.busy c hasCore notIdle notVacant
    exact ⟨j.worked, List.mem_map_of_mem inJobs, j.worked_coreId.trans here⟩
  · intro j' changed onCore
    obtain ⟨j, inJobs, rfl⟩ := List.mem_map.mp changed
    rw [SimJob.worked_coreId] at onCore ⊢
    obtain ⟨arrived, hasCore, notIdle, r, running, runs⟩ := agree.onCore j inJobs onCore
    rw [SimJob.worked, if_pos onCore]
    refine ⟨arrived, hasCore, notIdle, r, running, ⟨runs.jobId, runs.priority, runs.arrivalTime⟩, ?_⟩
    intro notRR
    have remaining := runs.remaining notRR
    change _ = j.runTime - 1
    omega
  · intro r inQueue
    obtain ⟨j, inJobs, arrived, off, waits⟩ := agree.queued r inQueue
    exact ⟨j, List.mem_map.mpr ⟨j, inJobs, if_neg (not_not.mpr off)⟩, arrived, off, waits⟩
  · intro j' changed arrived off _
    obtain ⟨j, inJobs, rfl⟩ := List.mem_map.mp changed
    rw [SimJob.worked_coreId] at off
    have same : j.worked = j := if_neg (not_not.mpr off)
    rw [same] at arrived ⊢
    exact agree.waiting j inJobs arrived off nofun

end Agree

end OsLabs.Scheduler
