import OsLabs.Model.Scheduler.Output
import OsLabs.Proofs.Scheduler.Invariant

/-! # What a step of the simulator does

Under the invariant every step succeeds and is one of five: it moves to another place of the loop,
finishes a job, ends a quantum, lets a job arrive or runs a time unit. Later proofs go by cases on
these, with the library calls and the messages in view.
-/

namespace OsLabs.Scheduler

open Globals

variable {o : Options} {lines : List JobLine} {s s' : Sim} {job : SimJob} {message : Option Message} {i : ℕ}

/-- A step that only moves to another place of the loop. -/
inductive Move (o : Options) (s : Sim) : Phase → Prop
  | enter (here : s.phase = .head) (left : s.jobs ≠ []) : Move o s (.finish 0)
  | leave (here : s.phase = .head ∨ ∃ i, s.phase = .finish i) (empty : s.jobs = []) : Move o s .done
  | unfinished {i : ℕ} {job : SimJob} (here : s.phase = .finish i) (found : s.jobs[i]? = some job)
      (left : job.runTime ≠ 0) : Move o s (.finish (i + 1))
  | allFinished {i : ℕ} (here : s.phase = .finish i) (last : s.jobs[i]? = none) (left : s.jobs ≠ []) :
      Move o s (.quantum 0)
  | unexpired {i : ℕ} (here : s.phase = .quantum i) (more : o.scheme = .rr ∧ i < o.cores)
      (running : s.quantumClock i ≠ 0 ∨ ∀ j ∈ s.jobs, j.coreId ≠ i) : Move o s (.quantum (i + 1))
  | allExpired {i : ℕ} (here : s.phase = .quantum i) (last : ¬ (o.scheme = .rr ∧ i < o.cores)) :
      Move o s (.arrive 0)
  | notNow {i : ℕ} {job : SimJob} (here : s.phase = .arrive i) (found : s.jobs[i]? = some job)
      (notNow : job.arrivalTime ≠ s.time) : Move o s (.arrive (i + 1))
  | allArrived {i : ℕ} (here : s.phase = .arrive i) (last : s.jobs[i]? = none) : Move o s .run

/-- A step that succeeds, with its message. -/
inductive Transition (o : Options) (s : Sim) : Option Message → Sim → Prop
  | move {phase : Phase} (move : Move o s phase) : Transition o s none { s with phase }
  | finish {i : ℕ} {job : SimJob} {r : JobT} {newJobId : ℤ} {jobs' : List SimJob} {g' : Globals}
      (here : s.phase = .finish i) (found : s.jobs[i]? = some job) (finished : job.runTime = 0)
      (onCore : job.coreId ≠ -1) (running : s.globals.runningJobs job.coreId = some r)
      (called : scheduleNextJob (s.globals.finished job.coreId r s.time) job.coreId s.time = some (g', newJobId))
      (next : NextJob s.time job.coreId (deleteJob s.jobs i) (s.globals.finished job.coreId r s.time) jobs' g')
      (agree : Agree s.time none none jobs' g') (conserving : Conserving g') :
      Transition o s (some (.finished job.jobId job.coreId newJobId)) { s with
        jobs := jobs'
        globals := g'
        quantumClock := o.resetClock s.quantumClock job.coreId
        jobsAlive := s.jobsAlive - 1 }
  | expire {i k : ℕ} {job : SimJob} {r : JobT} {newJobId : ℤ} {jobs' : List SimJob} {g' : Globals}
      (here : s.phase = .quantum i) (more : o.scheme = .rr ∧ i < o.cores) (expired : s.quantumClock i = 0)
      (found : s.jobs[k]? = some job) (onCore : job.coreId = i)
      (running : s.globals.runningJobs job.coreId = some r)
      (called : scheduleNextJob ((s.globals.setRunning job.coreId none).offerJob
        { r with latestQueueTime := s.time }) job.coreId s.time = some (g', newJobId))
      (next : NextJob s.time job.coreId (s.jobs.set k (job.setCore (-1)))
        ((s.globals.setRunning job.coreId none).offerJob { r with latestQueueTime := s.time }) jobs' g')
      (agree : Agree s.time none none jobs' g') (conserving : Conserving g') :
      Transition o s (some (.quantumExpired job.jobId job.coreId newJobId)) { s with
        phase := .quantum (i + 1)
        jobs := jobs'
        globals := g'
        quantumClock := o.resetClock s.quantumClock job.coreId }
  | arrive {i : ℕ} {job : SimJob} {coreId : ℤ} {jobs' : List SimJob} {g' : Globals}
      (here : s.phase = .arrive i) (found : s.jobs[i]? = some job) (now : job.arrivalTime = s.time)
      (notArrived : job.arrived = false) (new : NewJob s.time s.jobs s.globals job coreId jobs' g')
      (agree : Agree s.time none none jobs' g') (conserving : Conserving g') :
      Transition o s (some (.arrived job.jobId job.runTime job.priority coreId)) { s with
        phase := .arrive (i + 1)
        jobs := jobs'
        globals := g'
        quantumClock := if coreId = -1 then s.quantumClock else o.resetClock s.quantumClock coreId
        jobsAlive := s.jobsAlive + 1 }
  | run (here : s.phase = .run) : Transition o s none { s with
      phase := .head
      jobs := s.jobs.map SimJob.worked
      quantumClock := tickClock s.jobs s.quantumClock
      time := s.time + 1
      snapshots := s.jobs :: s.snapshots }

/-- The step succeeds, and the transition tells how. -/
def Takes (o : Options) (s : Sim) : Prop := ∃ s', step o s = .ok s' ∧ Transition o s (printed o s) s'

theorem Transition.takes (transition : Transition o s message s') (taken : step o s = .ok s')
    (shown : printed o s = message) : Takes o s :=
  ⟨s', taken, shown ▸ transition⟩

namespace Inv

theorem takesHead (here : s.phase = .head) : Takes o s := by
  have silent : printed o s = none := by simp only [printed, here]
  by_cases left : s.jobs.length > 0
  · refine Transition.takes (.move (.enter here (List.ne_nil_of_length_pos left))) ?_ silent
    simp only [step, here, if_pos left]
  · have empty : s.jobs = [] := List.length_eq_zero_iff.mp (by omega)
    refine Transition.takes (.move (.leave (.inl here) empty)) ?_ silent
    simp only [step, here, if_neg left]

theorem takesFinish (inv : Inv o lines s) (here : s.phase = .finish i) : Takes o s := by
  cases found : s.jobs[i]? with
  | none =>
    have silent : printed o s = none := by simp only [printed, here, found, Option.bind_eq_bind, Option.bind_none]
    by_cases empty : s.jobs.length = 0
    · refine Transition.takes (.move (.leave (.inr ⟨i, here⟩) (List.length_eq_zero_iff.mp empty))) ?_ silent
      simp only [step, here, found, if_pos empty]
    · refine Transition.takes (.move (.allFinished here found (mt List.length_eq_zero_iff.mpr empty))) ?_ silent
      simp only [step, here, found, if_neg empty]
  | some job =>
    by_cases finished : job.runTime = 0
    · have entries := inv.entries
      rw [here] at entries
      have onCore := (entries.finished i job found finished).1
      obtain ⟨_, hasCore, _, r, running, _⟩ := inv.agree.onCore job (List.mem_of_getElem? found) onCore
      obtain ⟨newJobId, jobs', g', called, set, next, agree, conserving⟩ :=
        inv.agree.finish inv.conserving found onCore running
      have called' := (schedulerJobFinished_eq hasCore running job.jobId).symm.trans called
      have message : printed o s = some (.finished job.jobId job.coreId newJobId) := by
        simp only [printed, here, found, if_pos finished, called, Option.bind_eq_bind, Option.bind_some,
          Option.pure_def]
      refine Transition.takes (.finish here found finished onCore running called' next agree conserving) ?_ message
      simp only [step, here, found, if_pos finished, Scheduler.finishJob, called, callScheduler, set,
        Option.map_some, Option.getD_some, bind, Except.bind, pure, Except.pure]
    · refine Transition.takes (.move (.unfinished here found finished)) ?_ ?_
      · simp only [step, here, found, if_neg finished]
      · simp only [printed, here, found, if_neg finished, Option.bind_eq_bind, Option.bind_some]

theorem takesQuantum (inv : Inv o lines s) (here : s.phase = .quantum i) : Takes o s := by
  by_cases more : o.scheme = .rr ∧ i < o.cores
  · by_cases expired : s.quantumClock i = 0
    · have both : o.scheme = .rr ∧ i < o.cores ∧ s.quantumClock i = 0 := ⟨more.1, more.2, expired⟩
      cases index : s.jobs.findIdx? fun job => job.coreId = (i : ℤ) with
      | none =>
        have free : ∀ j ∈ s.jobs, j.coreId ≠ i := fun j member =>
          of_decide_eq_false (List.findIdx?_eq_none_iff.mp index j member)
        refine Transition.takes (.move (.unexpired here more (.inr free))) ?_ ?_
        · simp only [step, here, if_pos more, if_pos expired, index]
        · simp only [printed, here, if_pos both, index, Option.bind_eq_bind, Option.bind_none]
      | some k =>
        obtain ⟨inside, isCore, _⟩ := List.findIdx?_eq_some_iff_getElem.mp index
        have found := List.getElem?_eq_getElem inside
        generalize s.jobs[k] = job at found isCore
        rw [decide_eq_true_iff] at isCore
        have onCore : job.coreId ≠ -1 := by omega
        obtain ⟨_, hasCore, _, r, running, _⟩ := inv.agree.onCore job (List.mem_of_getElem? found) onCore
        obtain ⟨newJobId, jobs', g', called, set, next, agree, conserving⟩ :=
          inv.agree.expire inv.conserving (inv.fixed.scheme.trans more.1) found onCore running
        have called' := (schedulerQuantumExpired_eq hasCore running).symm.trans called
        have message : printed o s = some (.quantumExpired job.jobId job.coreId newJobId) := by
          simp only [printed, here, if_pos both, index, found, called, Option.bind_eq_bind, Option.bind_some,
            Option.pure_def]
        refine Transition.takes (.expire here more expired found isCore running called' next agree conserving) ?_ message
        simp only [step, here, if_pos more, if_pos expired, index, found, expireQuantum, called, callScheduler,
          set, Option.map_some, Option.getD_some, bind, Except.bind, pure, Except.pure]
    · refine Transition.takes (.move (.unexpired here more (.inl expired))) ?_ ?_
      · simp only [step, here, if_pos more, if_neg expired]
      · simp only [printed, here, expired, and_false, ↓reduceIte]
  · refine Transition.takes (.move (.allExpired here more)) ?_ ?_
    · simp only [step, here, if_neg more]
    · have notBoth : ¬ (o.scheme = .rr ∧ i < o.cores ∧ s.quantumClock i = 0) := fun all =>
        more ⟨all.1, all.2.1⟩
      simp only [printed, here, if_neg notBoth]

theorem takesArrive (inv : Inv o lines s) (here : s.phase = .arrive i) : Takes o s := by
  have entries := inv.entries
  rw [here] at entries
  cases found : s.jobs[i]? with
  | none =>
    refine Transition.takes (.move (.allArrived here found)) ?_ ?_
    · simp only [step, here, found]
    · simp only [printed, here, found, Option.bind_eq_bind, Option.bind_none]
  | some job =>
    by_cases now : job.arrivalTime = s.time
    · have notArrived : job.arrived = false := by
        refine Bool.not_eq_true _ ▸ fun arrived => ?_
        rcases (entries.arrivals i job found).mp arrived with early | ⟨_, seen⟩
        · omega
        · exact Nat.lt_irrefl i seen
      obtain ⟨coreId, jobs', g', called, new, agree, conserving⟩ := inv.agree.arrive inv.conserving
        (inv.fixed.totalCores ▸ o.coresPos) (List.mem_of_getElem? found) notArrived now
      have message : printed o s = some (.arrived job.jobId job.runTime job.priority coreId) := by
        simp only [printed, here, found, if_pos now, called, Option.bind_eq_bind, Option.bind_some,
          Option.pure_def]
      refine Transition.takes (.arrive here found now notArrived new agree conserving) ?_ message
      rcases new.writes inv.agree found notArrived with ⟨rfl, written⟩ | ⟨isCore, written⟩
      · have outside : ¬ (0 ≤ (-1 : ℤ) ∧ (-1 : ℤ) < o.cores) := by omega
        simp only [step, here, found, if_pos now, Scheduler.arriveJob, called, callScheduler, if_neg outside,
          Option.map_some, Option.getD_some, bind, Except.bind, pure, Except.pure, ↓reduceIte]
        rw [← written]
        rfl
      · have inRange : 0 ≤ coreId ∧ coreId < o.cores := inv.fixed.totalCores ▸ isCore
        have notMinus : ¬ coreId = -1 := by omega
        simp only [step, here, found, if_pos now, Scheduler.arriveJob, called, callScheduler, if_pos inRange,
          if_neg notMinus, Option.map_some, Option.getD_some, bind, Except.bind, pure, Except.pure]
        rw [← written]
        rfl
    · refine Transition.takes (.move (.notNow here found now)) ?_ ?_
      · simp only [step, here, found, if_neg now]
      · simp only [printed, here, found, if_neg now, Option.bind_eq_bind, Option.bind_some]

theorem takesRun (inv : Inv o lines s) (here : s.phase = .run) : Takes o s := by
  have silent : printed o s = none := by simp only [printed, here]
  have inRange : ∀ j ∈ s.jobs, j.coreId ≠ -1 → 0 ≤ j.coreId ∧ j.coreId < o.cores := fun j member onCore =>
    inv.fixed.totalCores ▸ (inv.agree.onCore j member onCore).2.1
  have once : (busyCores s.jobs ++ []).Nodup := (List.append_nil _).symm ▸ inv.agree.busyCores_nodup
  have works : ¬ (s.jobsAlive > 0 ∧ (busyCores s.jobs).reverse ++ [] = []) := by
    rintro ⟨alive, idle⟩
    rw [inv.alive] at alive
    obtain ⟨j, member, arrived⟩ := List.countP_pos_iff.mp (Int.natCast_pos.mp alive)
    refine inv.agree.busyCores_ne_nil inv.conserving (inv.fixed.totalCores ▸ o.coresPos) member arrived ?_
    exact List.reverse_eq_nil_iff.mp ((List.append_nil _).symm.trans idle)
  refine Transition.takes (.run here) ?_ silent
  simp only [step, here, runUnit, runJobs_eq inRange once, bind, Except.bind, pure, Except.pure, if_neg works]

theorem takes (inv : Inv o lines s) (notDone : s.phase ≠ .done) : Takes o s := by
  cases here : s.phase with
  | head => exact takesHead here
  | finish i => exact inv.takesFinish here
  | quantum i => exact inv.takesQuantum here
  | arrive i => exact inv.takesArrive here
  | run => exact inv.takesRun here
  | done => exact (notDone here).elim

end Inv

end OsLabs.Scheduler
