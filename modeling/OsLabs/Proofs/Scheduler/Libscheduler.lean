import Mathlib.Data.List.Perm.Basic
import Mathlib.Data.Prod.Lex
import OsLabs.Proofs.Scheduler.Priqueue
import OsLabs.Model.Scheduler.Libscheduler

/-! # What the library does to its globals

One equation for each call, in the cases the caller can be in: whether a core is idle, whether a job
waits, whether the arriving job preempts. The queues appear as lists.
-/

namespace OsLabs.Scheduler

open StableInsert Priqueue

namespace Globals

variable {g : Globals} {c core time : ℤ} {job r : JobT} {rest : List JobT}

/-- The waiting jobs, from the head of the job queue. -/
def queue (g : Globals) : List JobT := g.jobQueue.toList

def idle (g : Globals) : List ℤ := g.idleCores.toList

def HasCore (g : Globals) (core : ℤ) : Prop := 0 ≤ core ∧ core < g.totalCores

def setRunning (g : Globals) (core : ℤ) (job : Option JobT) : Globals :=
  { g with runningJobs := Function.update g.runningJobs core job }

/-- The globals without the head of the job queue. -/
def pollJob (g : Globals) : Globals := { g with jobQueue := g.jobQueue.priqueuePoll.1 }

/-- The globals without the first idle core. -/
def pollCore (g : Globals) : Globals := { g with idleCores := g.idleCores.priqueuePoll.1 }

theorem load_eq (hasCore : g.HasCore core) : g.load core = g.runningJobs core := if_pos hasCore

theorem store_eq (hasCore : g.HasCore core) (job : Option JobT) :
    g.store core job = some (g.setRunning core job) := if_pos hasCore

@[simp] theorem setRunning_queue (core : ℤ) (job : Option JobT) :
    (g.setRunning core job).queue = g.queue := rfl

@[simp] theorem setRunning_idle (core : ℤ) (job : Option JobT) :
    (g.setRunning core job).idle = g.idle := rfl

theorem setRunning_self (g : Globals) (core : ℤ) (job : Option JobT) :
    (g.setRunning core job).runningJobs core = job := Function.update_self ..

theorem setRunning_of_ne (g : Globals) (job : Option JobT) (ne : c ≠ core) :
    (g.setRunning core job).runningJobs c = g.runningJobs c := Function.update_of_ne ne ..

theorem offerJob_queue (g : Globals) (job : JobT) : (g.offerJob job).queue =
    g.queue.insertIdx (position (Less g.jobQueue.comparer) job g.queue) job :=
  (priqueueOffer_spec g.jobQueue job).2

theorem offerJob_perm (g : Globals) (job : JobT) : (g.offerJob job).queue.Perm (job :: g.queue) := by
  rw [offerJob_queue]
  exact List.perm_insertIdx _ _ position_le

@[simp] theorem offerJob_comparer (g : Globals) (job : JobT) :
    (g.offerJob job).jobQueue.comparer = g.jobQueue.comparer := priqueueOffer_comparer ..

theorem offerCore_perm (g : Globals) (core : ℤ) : (g.offerCore core).idle.Perm (core :: g.idle) := by
  rw [idle, offerCore, (priqueueOffer_spec g.idleCores core).2]
  exact List.perm_insertIdx _ _ position_le

theorem pollJob_queue (g : Globals) : g.pollJob.queue = g.queue.tail :=
  (priqueuePoll_spec g.jobQueue).2

@[simp] theorem pollJob_comparer (g : Globals) : g.pollJob.jobQueue.comparer = g.jobQueue.comparer :=
  priqueuePoll_comparer ..

theorem pollCore_idle (g : Globals) : g.pollCore.idle = g.idle.tail :=
  (priqueuePoll_spec g.idleCores).2

end Globals

open Globals

variable {g : Globals} {c core time : ℤ} {job r : JobT} {rest : List JobT}

/-! ## `schedule_next_job` and its callers -/

theorem scheduleNextJob_nil (empty : g.queue = []) :
    scheduleNextJob g core time = some (g.offerCore core, -1) :=
  if_pos ((priqueueIsEmpty_spec _).mpr empty)

theorem scheduleNextJob_cons (hasCore : g.HasCore core) (head : g.queue = r :: rest) :
    scheduleNextJob g core time =
      some (g.pollJob.setRunning core (some (r.scheduled time)), r.jobId) := by
  have nonempty : ¬ g.jobQueue.priqueueIsEmpty = true := by
    rw [priqueueIsEmpty_spec]
    exact fun empty => List.cons_ne_nil r rest (head.symm.trans empty)
  have first : g.jobQueue.priqueuePoll.2 = some r := by
    rw [(priqueuePoll_spec g.jobQueue).1]
    exact congrArg List.head? head
  have stored := store_eq (g := g.pollJob) hasCore (some (r.scheduled time))
  rw [scheduleNextJob, if_neg nonempty, first]
  simp only [Option.bind_eq_bind, Option.bind_some, scheduleJob]
  exact congrArg (Option.bind · _) stored

/-- The globals after `scheduler_job_finished` took the record off its core. -/
def Globals.finished (g : Globals) (core : ℤ) (job : JobT) (time : ℤ) : Globals :=
  { g.setRunning core none with
    totalJobs := intAdd g.totalJobs 1
    totalTurnaroundTime := intAdd g.totalTurnaroundTime (time - job.arrivalTime)
    totalWaitingTime := intAdd g.totalWaitingTime (time - job.arrivalTime - job.runningTime)
    totalResponseTime := intAdd g.totalResponseTime (job.startTime - job.arrivalTime) }

theorem schedulerJobFinished_eq (hasCore : g.HasCore core) (running : g.runningJobs core = some job)
    (jobNumber : ℤ) : schedulerJobFinished g core jobNumber time =
      scheduleNextJob (g.finished core job time) core time := by
  simp only [schedulerJobFinished, load_eq hasCore, running, store_eq hasCore, Option.bind_eq_bind,
    Option.bind_some]
  rfl

theorem schedulerQuantumExpired_eq (hasCore : g.HasCore core) (running : g.runningJobs core = some job) :
    schedulerQuantumExpired g core time = scheduleNextJob
      ((g.setRunning core none).offerJob { job with latestQueueTime := time }) core time := by
  simp only [schedulerQuantumExpired, load_eq hasCore, running, store_eq hasCore, Option.bind_eq_bind,
    Option.bind_some]

/-! ## `scheduler_new_job` -/

theorem schedulerNewJob_idle {cores : List ℤ} (hasCore : g.HasCore core) (head : g.idle = core :: cores)
    (jobNumber runningTime priority : ℤ) :
    schedulerNewJob g jobNumber time runningTime priority =
      some (g.pollCore.setRunning core
        (some ((newJob jobNumber priority time runningTime).scheduled time)), core) := by
  have nonempty : ¬ g.idleCores.priqueueIsEmpty = true := by
    rw [priqueueIsEmpty_spec]
    exact fun empty => List.cons_ne_nil core cores (head.symm.trans empty)
  have first : g.idleCores.priqueuePoll.2 = some core := by
    rw [(priqueuePoll_spec g.idleCores).1]
    exact congrArg List.head? head
  have stored := store_eq (g := g.pollCore) hasCore
    (some ((newJob jobNumber priority time runningTime).scheduled time))
  rw [schedulerNewJob, if_pos (by simpa only [Bool.not_eq_true'] using Bool.eq_false_iff.mpr nonempty), first]
  simp only [Option.bind_eq_bind, Option.bind_some, scheduleJob]
  exact congrArg (Option.bind · _) stored

theorem schedulerNewJob_waits (busy : g.idle = []) (waits : g.scheme.preempts = false)
    (jobNumber runningTime priority : ℤ) :
    schedulerNewJob g jobNumber time runningTime priority =
      some (enqueueNew g (newJob jobNumber priority time runningTime) time) := by
  have empty : g.idleCores.priqueueIsEmpty = true := (priqueueIsEmpty_spec _).mpr busy
  simp only [schedulerNewJob, empty, waits, Bool.not_true, Bool.false_eq_true, ↓reduceIte, Option.pure_def]

/-- The globals after the records on the cores below `i` are brought up to date. -/
def Globals.updatedTo (g : Globals) (time : ℤ) (i : ℤ) : Globals :=
  { g with runningJobs := fun core =>
      if 0 ≤ core ∧ core < i then (g.runningJobs core).map (updateRemainingTime · time)
      else g.runningJobs core }

theorem updatedTo_running (g : Globals) (time : ℤ) {i : ℤ} (notBelow : ¬ core < i) :
    (g.updatedTo time i).runningJobs core = g.runningJobs core :=
  if_neg fun below => notBelow below.2

theorem updatedTo_zero (g : Globals) (time : ℤ) : g.updatedTo time 0 = g :=
  congrArg (fun f => { g with runningJobs := f }) (funext fun _ => if_neg (by omega))

theorem updateRunning_updatedTo {i : ℤ} (hasCore : g.HasCore i) (running : g.runningJobs i = some job) :
    updateRunning (g.updatedTo time i) i time = some (g.updatedTo time (i + 1)) := by
  have same : (g.updatedTo time i).runningJobs i = some job :=
    (updatedTo_running g time (lt_irrefl i)).trans running
  rw [updateRunning, load_eq (g := g.updatedTo time i) hasCore, same]
  simp only [Option.bind_eq_bind, Option.bind_some, store_eq (g := g.updatedTo time i) hasCore]
  refine congrArg (fun f => some { g with runningJobs := f }) (funext fun core => ?_)
  by_cases here : core = i
  · subst here
    rw [Function.update_self, if_pos ⟨hasCore.1, by omega⟩, running]
    rfl
  · rw [Function.update_of_ne here]
    by_cases below : 0 ≤ core ∧ core < i
    · rw [if_pos ⟨below.1, by omega⟩]
      exact if_pos below
    · rw [if_neg (by omega)]
      exact if_neg below

/-- The record on a core after the search brought it up to date. -/
theorem updatedTo_below {i : ℤ} (running : g.runningJobs core = some job) (nonneg : 0 ≤ core)
    (below : core < i) :
    (g.updatedTo time i).runningJobs core = some (updateRemainingTime job time) := by
  rw [updatedTo]
  exact (if_pos ⟨nonneg, below⟩).trans (congrArg _ running)

/-- No job on a core below `i` comes after the job on `least`, by a key of the updated records. -/
def Globals.Latest (g : Globals) (time : ℤ) (key : JobT → ℤ ×ₗ ℤ) (i least : ℤ) : Prop :=
  ∀ core job job', 0 ≤ core → core < i → g.runningJobs core = some job →
    g.runningJobs least = some job' →
    key (updateRemainingTime job time) ≤ key (updateRemainingTime job' time)

/-- The comparer tells which of two running jobs comes later. -/
def Globals.Compares (g : Globals) (time : ℤ) (key : JobT → ℤ ×ₗ ℤ) : Prop :=
  ∀ core core' job job', g.HasCore core → g.HasCore core' →
    g.runningJobs core = some job → g.runningJobs core' = some job' →
    (g.jobQueue.comparer (updateRemainingTime job time) (updateRemainingTime job' time) > 0 ↔
      key (updateRemainingTime job' time) < key (updateRemainingTime job time))

/-- The search brings every record up to date and finds a core whose job no other comes after. -/
theorem leastSearch_spec (time : ℤ) (busy : ∀ core, g.HasCore core → ∃ job, g.runningJobs core = some job)
    (more i : ℕ) (within : i + more = g.totalCores) {least : ℤ} (inside : 0 ≤ least ∧ least < i) :
    ∃ least', leastSearch time more (g.updatedTo time i) i least =
        some (g.updatedTo time g.totalCores, least') ∧ g.HasCore least' ∧
      ∀ key, g.Compares time key → g.Latest time key i least →
        g.Latest time key g.totalCores least' := by
  induction more generalizing i least with
  | zero =>
    have all : (i : ℤ) = g.totalCores := congrArg Nat.cast within
    rw [leastSearch, all]
    exact ⟨least, rfl, ⟨inside.1, all ▸ inside.2⟩, fun _ _ latest => latest⟩
  | succ more ih =>
    have hasCore : g.HasCore i := ⟨by omega, by omega⟩
    have hasLeast : g.HasCore least := ⟨inside.1, by omega⟩
    obtain ⟨job, running⟩ := busy i hasCore
    obtain ⟨leastJob, runningLeast⟩ := busy least hasLeast
    rw [leastSearch, updateRunning_updatedTo hasCore running]
    simp only [Option.bind_eq_bind, Option.bind_some]
    rw [load_eq (g := g.updatedTo time (i + 1)) hasCore,
      load_eq (g := g.updatedTo time (i + 1)) hasLeast,
      updatedTo_below running hasCore.1 (by omega), updatedTo_below runningLeast inside.1 (by omega)]
    simp only [Option.bind_some]
    have next : ((i : ℤ) + 1) = ((i + 1 : ℕ) : ℤ) := by push_cast; ring
    have split {core : ℤ} (below : core < (i + 1 : ℕ)) : core < i ∨ core = i := by omega
    have compared {key : JobT → ℤ ×ₗ ℤ} (compares : g.Compares time key) :=
      compares i least job leastJob hasCore hasLeast running runningLeast
    rw [next]
    by_cases positive : g.jobQueue.comparer (updateRemainingTime job time)
        (updateRemainingTime leastJob time) > 0
    · rw [if_pos (by exact positive)]
      obtain ⟨least', ran, hasLeast', latest'⟩ := ih (i + 1) (by omega)
        (⟨by omega, by omega⟩ : 0 ≤ (i : ℤ) ∧ (i : ℤ) < (i + 1 : ℕ))
      refine ⟨least', ran, hasLeast', fun key compares latest => latest' key compares ?_⟩
      intro core job₁ job₂ nonneg below running₁ running₂
      obtain rfl := Option.some.inj (running.symm.trans running₂)
      rcases split below with below | rfl
      · exact (latest core job₁ leastJob nonneg below running₁ runningLeast).trans
          ((compared compares).mp positive).le
      · obtain rfl := Option.some.inj (running.symm.trans running₁)
        exact le_rfl
    · rw [if_neg (by exact positive)]
      obtain ⟨least', ran, hasLeast', latest'⟩ := ih (i + 1) (by omega)
        (⟨inside.1, by omega⟩ : 0 ≤ least ∧ least < (i + 1 : ℕ))
      refine ⟨least', ran, hasLeast', fun key compares latest => latest' key compares ?_⟩
      intro core job₁ job₂ nonneg below running₁ running₂
      rcases split below with below | rfl
      · exact latest core job₁ job₂ nonneg below running₁ running₂
      · obtain rfl := Option.some.inj (running.symm.trans running₁)
        obtain rfl := Option.some.inj (runningLeast.symm.trans running₂)
        exact not_lt.mp (mt (compared compares).mpr positive)

/-- The globals after `unschedule_job` and `schedule_job` replaced the job on a core. -/
def Globals.preempted (g : Globals) (core time : ℤ) (victim thisJob : JobT) : Globals :=
  ((g.setRunning core none).offerJob (victim.unscheduled time)).setRunning core
    (some (thisJob.scheduled time))

/-- With every core busy, a preemptive scheme replaces the job that comes last or enqueues. -/
theorem schedulerNewJob_preempts (time : ℤ) (none : g.idle = []) (preempts : g.scheme.preempts = true)
    (positive : 0 < g.totalCores)
    (busy : ∀ core, g.HasCore core → ∃ job, g.runningJobs core = some job)
    (jobNumber runningTime priority : ℤ) :
    let g' := g.updatedTo time g.totalCores
    let thisJob := newJob jobNumber priority time runningTime
    ∃ least victim, g.HasCore least ∧ g'.runningJobs least = some victim ∧
      (∀ key, g.Compares time key → g.Latest time key g.totalCores least) ∧
      schedulerNewJob g jobNumber time runningTime priority =
        some (if g.jobQueue.comparer thisJob victim < 0 then (g'.preempted least time victim thisJob, least)
          else enqueueNew g' thisJob time) := by
  intro g' thisJob
  have empty : g.idleCores.priqueueIsEmpty = true := (priqueueIsEmpty_spec _).mpr none
  have zero : g.HasCore 0 := ⟨le_rfl, by omega⟩
  obtain ⟨job, running⟩ := busy 0 zero
  have first : updateRunning g 0 time = some (g.updatedTo time 1) := by
    have updated : updateRunning (g.updatedTo time 0) 0 time = _ := updateRunning_updatedTo zero running
    rwa [updatedTo_zero, zero_add] at updated
  obtain ⟨least, ran, hasLeast, latest⟩ := leastSearch_spec time busy (g.totalCores - 1) 1 (by omega)
    (⟨le_rfl, by decide⟩ : 0 ≤ (0 : ℤ) ∧ (0 : ℤ) < (1 : ℕ))
  obtain ⟨victim, runningLeast⟩ := busy least hasLeast
  have updated : g'.runningJobs least = some (updateRemainingTime victim time) :=
    updatedTo_below runningLeast hasLeast.1 hasLeast.2
  refine ⟨least, updateRemainingTime victim time, hasLeast, updated, ?_, ?_⟩
  · intro key compares
    refine latest key compares ?_
    intro core job₁ job₂ nonneg below running₁ running₂
    obtain rfl : core = 0 := by omega
    exact (Option.some.inj (running₁.symm.trans running₂)) ▸ le_rfl
  · simp only [schedulerNewJob, empty, preempts, Bool.not_true, Bool.false_eq_true, ↓reduceIte, first,
      Option.bind_eq_bind, Option.bind_some]
    have searched := ran
    rw [Nat.cast_one] at searched
    rw [show (g.updatedTo time 1).totalCores = g.totalCores from rfl, searched]
    simp only [Option.bind_some]
    rw [load_eq (g := g') hasLeast, updated]
    simp only [Option.bind_some]
    change (if g.jobQueue.comparer thisJob _ < 0 then _ else _) = _
    split
    · have removed : (g.updatedTo time g.totalCores).store least .none = some (g'.setRunning least .none) :=
        store_eq (g := g') hasLeast .none
      have placed := store_eq (g := (g'.setRunning least .none).offerJob
        ((updateRemainingTime victim time).unscheduled time)) hasLeast (some (thisJob.scheduled time))
      rw [unscheduleJob, load_eq (g := g') hasLeast, updated]
      simp only [Option.bind_eq_bind, Option.bind_some, removed, Option.pure_def, scheduleJob]
      exact congrArg (Option.bind · _) placed
    · rfl

end OsLabs.Scheduler
