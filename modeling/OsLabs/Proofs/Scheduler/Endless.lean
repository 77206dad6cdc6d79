import OsLabs.Model.Scheduler.Simulator
import OsLabs.Proofs.Scheduler.Agreement
import OsLabs.ToMathlib.DeterministicRun

/-! # Jobs that never leave the simulator

A job leaves the array only when it has exactly no units left. A job with fewer than none never comes
back to that, and a job that never arrives gets no core to work off its units.
-/

namespace OsLabs.Scheduler

open DeterministicRun

variable {o : Options} {s s' : Sim} {jobs jobs' : List SimJob} {job new : SimJob} {i : ℕ} {coreId newJobId : ℤ}

/-- A job whose units never come to zero. -/
def SimJob.Stuck (job : SimJob) : Prop :=
  job.runTime < 0 ∨ job.runTime ≠ 0 ∧ job.arrivalTime < 0 ∧ job.arrived = false ∧ job.coreId = -1

def Lingering (jobs : List SimJob) : Prop := ∃ job ∈ jobs, job.Stuck

theorem SimJob.Stuck.runTime_ne (stuck : job.Stuck) : job.runTime ≠ 0 := by
  rcases stuck with negative | ⟨nonzero, -⟩
  · exact negative.ne
  · exact nonzero

/-- A job that has arrived or is on a core is stuck by its units alone. -/
theorem SimJob.Stuck.negative (stuck : job.Stuck) (moved : job.arrived = true ∨ job.coreId ≠ -1) :
    job.runTime < 0 := by
  rcases stuck with negative | ⟨-, -, waits, off⟩
  · exact negative
  · rcases moved with arrived | onCore
    · rw [waits] at arrived
      cases arrived
    · exact (onCore off).elim

/-! ## The array -/

theorem Lingering.deleteJob (lingers : Lingering jobs) (found : jobs[i]? = some job) (finished : job.runTime = 0) :
    Lingering (deleteJob jobs i) := by
  obtain ⟨j, member, stuck⟩ := lingers
  have inRest := (deleteJob_perm found).mem_iff.mp member
  rcases List.mem_cons.mp inRest with rfl | kept
  · exact (stuck.runTime_ne finished).elim
  · exact ⟨j, kept, stuck⟩

theorem Lingering.map (lingers : Lingering jobs) {f : SimJob → SimJob} (stays : ∀ j, j.Stuck → (f j).Stuck) :
    Lingering (jobs.map f) := by
  obtain ⟨j, member, stuck⟩ := lingers
  exact ⟨f j, List.mem_map_of_mem member, stays j stuck⟩

theorem Lingering.set (lingers : Lingering jobs) (found : jobs[i]? = some job) (stays : job.Stuck → new.Stuck) :
    Lingering (jobs.set i new) := by
  obtain ⟨j, member, stuck⟩ := lingers
  obtain ⟨k, here⟩ := List.mem_iff_getElem?.mp member
  by_cases same : i = k
  · subst same
    obtain rfl := Option.some.inj (found.symm.trans here)
    have inside := (List.getElem?_eq_some_iff.mp found).1
    exact ⟨new, List.mem_of_getElem? (List.getElem?_set_self inside), stays stuck⟩
  · exact ⟨j, List.mem_of_getElem? ((List.getElem?_set_ne same).trans here), stuck⟩

theorem Lingering.setActiveJob (lingers : Lingering jobs)
    (changed : setActiveJob newJobId coreId jobs = some jobs') : Lingering jobs' := by
  induction jobs generalizing jobs' with
  | nil => cases changed
  | cons head jobs ih =>
    obtain ⟨j, member, stuck⟩ := lingers
    rw [OsLabs.Scheduler.setActiveJob] at changed
    split at changed
    · next named =>
      cases changed
      rcases List.mem_cons.mp member with rfl | inRest
      · exact ⟨_, List.mem_cons_self, .inl (stuck.negative (.inl named.2))⟩
      · exact ⟨j, List.mem_cons_of_mem _ inRest, stuck⟩
    · obtain ⟨rest, tail, rfl⟩ := Option.map_eq_some_iff.mp changed
      rcases List.mem_cons.mp member with rfl | inRest
      · exact ⟨j, List.mem_cons_self, stuck⟩
      · obtain ⟨j', member', stuck'⟩ := ih ⟨j, inRest, stuck⟩ tail
        exact ⟨j', List.mem_cons_of_mem _ member', stuck'⟩

theorem Lingering.setNewJob (lingers : Lingering jobs)
    (changed : setNewJob newJobId coreId jobs = .ok jobs') : Lingering jobs' := by
  rw [OsLabs.Scheduler.setNewJob] at changed
  split at changed
  · cases changed
    exact lingers
  · cases active : OsLabs.Scheduler.setActiveJob newJobId coreId jobs with
    | none =>
      rw [active] at changed
      cases changed
    | some rest =>
      rw [active] at changed
      cases changed
      exact lingers.setActiveJob active

theorem Lingering.runJobs (lingers : Lingering jobs) {cores : ℕ} {working working' : List ℤ}
    {quantumClock quantumClock' : ℤ → ℤ}
    (ran : runJobs cores jobs working quantumClock = .ok (jobs', working', quantumClock')) : Lingering jobs' := by
  induction jobs generalizing jobs' working quantumClock working' quantumClock' with
  | nil =>
    obtain ⟨j, member, -⟩ := lingers
    cases member
  | cons head jobs ih =>
    obtain ⟨j, member, stuck⟩ := lingers
    -- the rest of the array, whichever clocks the loop hands to it
    have rest {w w' : List ℤ} {q q' : ℤ → ℤ} {l : List SimJob} (inRest : j ∈ jobs)
        (ran : OsLabs.Scheduler.runJobs cores jobs w q = .ok (l, w', q')) : Lingering l :=
      ih ⟨j, inRest, stuck⟩ ran
    rw [OsLabs.Scheduler.runJobs] at ran
    split at ran
    · next onCore =>
      split at ran
      · cases ran
      · split at ran
        · cases ran
        · cases tail : OsLabs.Scheduler.runJobs cores jobs (head.coreId :: working)
              (Function.update quantumClock head.coreId (quantumClock head.coreId - 1)) with
          | error fault =>
            rw [tail] at ran
            cases ran
          | ok r =>
            obtain ⟨l, w, q⟩ := r
            rw [tail] at ran
            cases ran
            rcases List.mem_cons.mp member with rfl | inRest
            · have negative := stuck.negative (.inr onCore)
              exact ⟨_, List.mem_cons_self, .inl (by change j.runTime - 1 < 0; omega)⟩
            · obtain ⟨j', member', stuck'⟩ := rest inRest tail
              exact ⟨j', List.mem_cons_of_mem _ member', stuck'⟩
    · cases tail : OsLabs.Scheduler.runJobs cores jobs working quantumClock with
      | error fault =>
        rw [tail] at ran
        cases ran
      | ok r =>
        obtain ⟨l, w, q⟩ := r
        rw [tail] at ran
        cases ran
        rcases List.mem_cons.mp member with rfl | inRest
        · exact ⟨_, List.mem_cons_self, stuck⟩
        · obtain ⟨j', member', stuck'⟩ := rest inRest tail
          exact ⟨j', List.mem_cons_of_mem _ member', stuck'⟩

/-! ## The loop -/

/-- A simulation with a job that keeps the loop alive. -/
structure Endless (s : Sim) : Prop where
  time : 0 ≤ s.time
  lingers : Lingering s.jobs
  goes : s.phase ≠ .done

theorem Lingering.length_pos (lingers : Lingering jobs) : 0 < jobs.length := by
  obtain ⟨j, member, -⟩ := lingers
  exact List.length_pos_of_mem member

theorem Endless.finishJob (endless : Endless s) (found : s.jobs[i]? = some job) (finished : job.runTime = 0)
    (taken : finishJob o s i job = .ok s') : Endless s' := by
  rw [OsLabs.Scheduler.finishJob] at taken
  cases called : callScheduler (schedulerJobFinished s.globals job.coreId job.jobId s.time) with
  | error fault =>
    rw [called] at taken
    cases taken
  | ok r =>
    cases changed : setNewJob r.2 job.coreId (deleteJob s.jobs i) with
    | error fault =>
      rw [called] at taken
      simp only [bind, Except.bind, changed] at taken
      cases taken
    | ok jobs =>
      rw [called] at taken
      simp only [bind, Except.bind, changed] at taken
      cases taken
      exact ⟨endless.time, (endless.lingers.deleteJob found finished).setNewJob changed, endless.goes⟩

theorem Endless.expireQuantum (endless : Endless s) (found : s.jobs[i]? = some job) (onCore : job.coreId ≠ -1)
    (taken : expireQuantum o s i job = .ok s') : Endless s' := by
  rw [OsLabs.Scheduler.expireQuantum] at taken
  have vacated : Lingering (s.jobs.set i (job.setCore (-1))) := by
    apply endless.lingers.set found
    intro stuck
    exact .inl (stuck.negative (.inr onCore))
  cases called : callScheduler (schedulerQuantumExpired s.globals job.coreId s.time) with
  | error fault =>
    rw [called] at taken
    cases taken
  | ok r =>
    cases changed : setNewJob r.2 job.coreId (s.jobs.set i (job.setCore (-1))) with
    | error fault =>
      rw [called] at taken
      simp only [bind, Except.bind, changed] at taken
      cases taken
    | ok jobs =>
      rw [called] at taken
      simp only [bind, Except.bind, changed] at taken
      cases taken
      exact ⟨endless.time, vacated.setNewJob changed, endless.goes⟩

/-- Only a job whose arrival is not before time 0 arrives. -/
theorem Endless.arriveJob (endless : Endless s) (found : s.jobs[i]? = some job)
    (arrives : job.arrivalTime = s.time) (taken : arriveJob o s i job = .ok s') : Endless s' := by
  have negative (stuck : job.Stuck) : job.runTime < 0 := by
    have time := endless.time
    rcases stuck with negative | ⟨-, before, -⟩
    · exact negative
    · omega
  have arrived : Lingering (s.jobs.set i { job with arrived := true }) :=
    endless.lingers.set found fun stuck => .inl (negative stuck)
  rw [OsLabs.Scheduler.arriveJob] at taken
  cases called : callScheduler (schedulerNewJob s.globals job.jobId s.time job.runTime job.priority) with
  | error fault =>
    rw [called] at taken
    cases taken
  | ok r =>
    rw [called] at taken
    simp only [bind, Except.bind] at taken
    split at taken
    · cases taken
      refine ⟨endless.time, ?_, endless.goes⟩
      have released : Lingering ((s.jobs.set i { job with arrived := true }).map (SimJob.release r.2)) := by
        apply arrived.map
        intro j stuck
        rw [SimJob.release]
        split
        · rcases stuck with negative | ⟨nonzero, before, waits, -⟩
          · exact .inl negative
          · exact .inr ⟨nonzero, before, waits, rfl⟩
        · exact stuck
      have here : ((s.jobs.set i { job with arrived := true }).map (SimJob.release r.2))[i]? =
          some (SimJob.release r.2 { job with arrived := true }) := by
        have inside := (List.getElem?_eq_some_iff.mp found).1
        rw [List.getElem?_map, List.getElem?_set_self inside]
        rfl
      apply released.set here
      intro stuck
      have units : (SimJob.release r.2 { job with arrived := true }).runTime = job.runTime ∧
          (SimJob.release r.2 { job with arrived := true }).arrived = true := by
        rw [SimJob.release]
        split <;> exact ⟨rfl, rfl⟩
      exact .inl (units.1 ▸ stuck.negative (.inl units.2))
    · split at taken
      · cases taken
        exact ⟨endless.time, arrived, endless.goes⟩
      · cases taken

theorem Endless.runUnit (endless : Endless s) (taken : runUnit o s = .ok s') : Endless s' := by
  rw [OsLabs.Scheduler.runUnit] at taken
  cases ran : runJobs o.cores s.jobs [] s.quantumClock with
  | error fault =>
    rw [ran] at taken
    cases taken
  | ok r =>
    rw [ran] at taken
    simp only [bind, Except.bind] at taken
    split at taken
    · cases taken
    · cases taken
      have time := endless.time
      exact ⟨by change 0 ≤ s.time + 1; omega, endless.lingers.runJobs ran, endless.goes⟩

theorem Endless.goto (endless : Endless s) {phase : Phase} (goes : phase ≠ .done) : Endless { s with phase } :=
  ⟨endless.time, endless.lingers, goes⟩

theorem Endless.next (endless : Endless s) (taken : step o s = .ok s') : Endless s' := by
  have nonempty := endless.lingers.length_pos
  rw [step] at taken
  split at taken
  · rw [if_pos nonempty] at taken
    cases taken
    exact endless.goto (by simp)
  · split at taken
    · next found =>
      split at taken
      · next finished => exact endless.finishJob found finished taken
      · cases taken
        exact endless.goto (by simp)
    · rw [if_neg (by omega)] at taken
      cases taken
      exact endless.goto (by simp)
  · next k _ =>
    split at taken
    · split at taken
      · split at taken
        · next j located =>
          cases found : s.jobs[j]? with
          | none =>
            rw [found] at taken
            cases taken
            exact endless.goto (by simp)
          | some job =>
            rw [found] at taken
            have onCore : job.coreId = (k : ℤ) := by
              obtain ⟨inside, holds, -⟩ := List.findIdx?_eq_some_iff_getElem.mp located
              rw [(List.getElem?_eq_some_iff.mp found).2] at holds
              exact of_decide_eq_true holds
            have goes : Endless { s with phase := .quantum (k + 1) } := endless.goto (by simp)
            exact goes.expireQuantum found (by omega) taken
        · cases taken
          exact endless.goto (by simp)
      · cases taken
        exact endless.goto (by simp)
    · cases taken
      exact endless.goto (by simp)
  · next k _ =>
    split at taken
    · next found =>
      split at taken
      · next arrives =>
        have goes : Endless { s with phase := .arrive (k + 1) } := endless.goto (by simp)
        exact goes.arriveJob found arrives taken
      · cases taken
        exact endless.goto (by simp)
    · cases taken
      exact endless.goto (by simp)
  · have goes : Endless { s with phase := .head } := endless.goto (by simp)
    exact goes.runUnit taken
  · next done => exact (endless.goes done).elim

/-- A simulation with such a job does not end. -/
theorem Endless.not_done (endless : Endless s) {n : ℕ} (ran : run (step o) n s = .ok s') : s'.phase ≠ .done :=
  (run_keeps (fun _ _ taken endless => endless.next taken) n endless ran).goes

end OsLabs.Scheduler
