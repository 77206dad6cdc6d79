import OsLabs.Proofs.Scheduler.Steps
import OsLabs.ToMathlib.DeterministicRun

/-! # Whole simulations

The invariant holds along the whole run of the simulator, and the measure brings the run to its end.
So the simulator and the library agree in every state, no check of the simulator fails, every job
gets its units, and under the preemptive schemes every time unit runs the jobs with the least keys.
-/

namespace OsLabs.Scheduler

open Globals DeterministicRun

variable {o : Options} {lines : List JobLine} {s : Sim}

/-- Simulator and library agree on who runs where and on who waits. -/
structure InStep (o : Options) (s : Sim) : Prop where
  cores : ∀ j ∈ s.jobs, ∀ c, 0 ≤ c →
    (j.coreId = c ↔ c ∉ s.globals.idle ∧ ∃ r, s.globals.load c = some r ∧ Record j r)
  inRange : ∀ j ∈ s.jobs, j.coreId = -1 ∨ 0 ≤ j.coreId ∧ j.coreId < o.cores
  queue : (s.globals.queue.map JobT.jobId).Perm
    ((s.jobs.filter fun j => j.arrived ∧ j.coreId = -1).map SimJob.jobId)
  records : ∀ r ∈ s.globals.queue, ∃ j ∈ s.jobs, Record j r

/-- The simulation is over, and every job ran its units, on one core at a time. -/
structure Completed (lines : List JobLine) (s : Sim) : Prop where
  done : s.phase = .done
  jobs : s.jobs = []
  units : ∀ (k : ℕ) line, lines[k]? = some line → unitsRun k s.snapshots = line.runTime
  exclusive : ∀ snapshot ∈ s.snapshots, Exclusive snapshot

theorem Inv.inStep (inv : Inv o lines s) : InStep o s where
  cores j member c nonneg := by
    constructor
    · rintro rfl
      obtain ⟨_, isCore, notIdle, r, running, runs⟩ := inv.agree.onCore j member (by omega)
      exact ⟨notIdle, r, (load_eq isCore).trans running, runs.toRecord⟩
    · rintro ⟨notIdle, r, loaded, record⟩
      obtain ⟨isCore, running⟩ := Option.ite_none_right_eq_some.mp loaded
      obtain ⟨j', member', here⟩ := inv.agree.busy c isCore notIdle nofun
      obtain ⟨_, _, _, r', running', runs⟩ := inv.agree.onCore j' member' (by omega)
      rw [here] at running'
      obtain rfl := Option.some.inj (running'.symm.trans running)
      rwa [eq_of_jobId inv.agree.ids member member' (record.jobId.symm.trans runs.jobId)]
  inRange j member := by
    refine or_iff_not_imp_left.mpr fun onCore => ?_
    rw [← inv.fixed.totalCores]
    exact (inv.agree.onCore j member onCore).2.1
  queue := by
    refine (List.perm_ext_iff_of_nodup inv.agree.queueIds ?_).mpr fun jobId => ?_
    · exact (List.filter_sublist.map SimJob.jobId).nodup inv.agree.ids
    · simp only [List.mem_map, List.mem_filter, decide_eq_true_iff]
      constructor
      · rintro ⟨r, inQueue, rfl⟩
        obtain ⟨j, member, arrived, off, waits⟩ := inv.agree.queued r inQueue
        exact ⟨j, ⟨member, arrived, off⟩, waits.jobId.symm⟩
      · rintro ⟨j, ⟨member, arrived, off⟩, rfl⟩
        exact inv.agree.waiting j member arrived off nofun
  records r inQueue := by
    obtain ⟨j, member, _, _, waits⟩ := inv.agree.queued r inQueue
    exact ⟨j, member, waits.toRecord⟩

theorem Inv.completed (inv : Inv o lines s) (done : s.phase = .done) : Completed lines s := by
  have empty := inv.entries.admits
  rw [done] at empty
  refine ⟨done, empty, fun k line inLines => ?_, inv.exclusive⟩
  have total := inv.history.units k
  have found : (loadJobs lines)[k]? = some _ := (loadJobs_getElem? lines k).trans (congrArg _ inLines)
  have left := unitsLeft_of_mem (loadJobs_nodup lines) (List.mem_of_getElem? found)
  rw [show s.jobs = [] from empty] at total
  exact (Int.zero_add _).symm.trans (total.trans left)

/-- Every state of a simulation satisfies the invariant. -/
theorem simulation_inv (o : Options) (malloc : Malloc) (valid : ∀ line ∈ lines, line.Valid) (n : ℕ) :
    ∃ s, run (step o) n (initial o malloc lines) = .ok s ∧ Inv o lines s := by
  refine run_inv (fun s inv => ?_) n _ (Inv.initial malloc o valid)
  by_cases done : s.phase = .done
  · exact ⟨s, by simp only [step, done], inv⟩
  · obtain ⟨s', taken, inv', _⟩ := inv.steps done
    exact ⟨s', taken, inv'⟩

/-- Simulator and library agree in every state of a simulation, and the simulation completes. -/
theorem simulation_agrees (o : Options) (malloc : Malloc) (lines : List JobLine)
    (valid : ∀ line ∈ lines, line.Valid) :
    (∀ n, ∃ s, run (step o) n (initial o malloc lines) = .ok s ∧ InStep o s) ∧
      ∃ n s, run (step o) n (initial o malloc lines) = .ok s ∧ Completed lines s := by
  constructor
  · intro n
    obtain ⟨s, ran, inv⟩ := simulation_inv o malloc valid n
    exact ⟨s, ran, inv.inStep⟩
  · obtain ⟨n, s, ran, inv, done⟩ := exists_final (Inv o lines) (fun s => s.phase = .done)
      (Sim.measure o) (fun s inv notDone => inv.steps notDone) _ (Inv.initial malloc o valid)
    exact ⟨n, s, ran, inv.completed done⟩

theorem simulation_agrees_coinciding :
    let o : Options := ⟨2, .ppri, 1, by decide, nofun⟩
    let lines : List JobLine := [⟨0, 3, 2⟩, ⟨0, 2, 1⟩, ⟨1, 1, 0⟩, ⟨1, 2, 2⟩]
    let malloc : Malloc := ⟨fun _ _ => newJob 0 0 0 0, fun _ _ => 0, fun _ => none⟩
    (∀ n, ∃ s, run (step o) n (initial o malloc lines) = .ok s ∧ InStep o s) ∧
      ∃ n s, run (step o) n (initial o malloc lines) = .ok s ∧ Completed lines s :=
  simulation_agrees _ _ _ (by decide)

/-- Under PSJF and PPRI no time unit leaves a job waiting that has a smaller key than one it runs. -/
theorem preemptive_optimal (o : Options) (malloc : Malloc) (lines : List JobLine)
    (valid : ∀ line ∈ lines, line.Valid) (scheme : o.scheme = .psjf ∨ o.scheme = .ppri)
    (fits : o.scheme = .ppri → ∀ line ∈ lines, ∀ line' ∈ lines, FitsInt line.priority line'.priority)
    (n : ℕ) :
    ∃ s, run (step o) n (initial o malloc lines) = .ok s ∧
      ∀ snapshot ∈ s.snapshots, Optimal o.scheme snapshot := by
  obtain ⟨s, ran, inv⟩ := simulation_inv o malloc valid n
  refine ⟨s, ran, inv.optimal ⟨?_, fun byPriority j member j' member' => ?_⟩⟩
  · rcases scheme with is | is <;> rw [is] <;> rfl
  · have isPpri : o.scheme = .ppri := by
      rcases scheme with is | is
      · rw [is] at byPriority
        exact (Bool.false_ne_true byPriority).elim
      · exact is
    obtain ⟨_, _, line, inLines, _, _, same⟩ := mem_loadJobs member
    obtain ⟨_, _, line', inLines', _, _, same'⟩ := mem_loadJobs member'
    rw [← same, ← same']
    exact fits isPpri line inLines line' inLines'

theorem preemptive_optimal_replaced :
    let o : Options := ⟨1, .ppri, 1, by decide, nofun⟩
    let lines : List JobLine := [⟨0, 3, 2⟩, ⟨1, 2, 1⟩, ⟨1, 1, 0⟩]
    let malloc : Malloc := ⟨fun _ _ => newJob 0 0 0 0, fun _ _ => 0, fun _ => none⟩
    ∃ s, run (step o) 40 (initial o malloc lines) = .ok s ∧
      ∀ snapshot ∈ s.snapshots, Optimal .ppri snapshot :=
  preemptive_optimal _ _ _ (by decide) (.inr rfl) (fun _ => by decide) 40

end OsLabs.Scheduler
