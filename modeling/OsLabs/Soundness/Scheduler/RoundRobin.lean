import OsLabs.Proofs.Scheduler.RoundRobin
import OsLabs.Soundness.Scheduler.Simulation

/-! # Round robin

In every state of a simulation: jobs have left the queue in the order of the calls that put them there,
a job whose quantum expires waits for all that wait already, a job that gets a core keeps it for its
quantum or its units, and no quantum expires on a core on which a job just finished.
-/

namespace OsLabs.Scheduler

open DeterministicRun

variable {o : Options} {lines : List JobLine} {s : Sim} {output : Output}

/-- What the output shows in a state, and what comes after it. -/
structure RoundRobin (o : Options) (s : Sim) (output : Output) : Prop where
  waiting : s.globals.queueIds.Perm ((s.jobs.filter fun j => j.arrived ∧ j.coreId = -1).map SimJob.jobId)
  order : putLog output = takenLog output ++ s.globals.queueIds
  requeued : ∀ jobId coreId newJobId, printed o s = some (.quantumExpired jobId coreId newJobId) →
    ∀ n, ∃ s' later, run (tracedStep o) n (s, output) = .ok (s', output ++ later) ∧
      (jobId ∈ takenLog later → s.globals.queueIds ++ [jobId] <+: takenLog later)
  stints : ∀ m, printed o s = some m → ∀ jobId ∈ m.dispatched,
    ∃ s₁ output₁, tracedStep o (s, output) = .ok (s₁, output₁) ∧
      ∃ j ∈ s₁.jobs, j.jobId = jobId ∧ j.coreId = m.coreId ∧
        ∃ n s₂ later newJobId, run (tracedStep o) n (s₁, output₁) = .ok (s₂, output₁ ++ later) ∧
          Stint jobId m.coreId (min o.quantum j.runTime) s₁ s₂ later ∧
          printed o s₂ = some (stintEnd j o.quantum newJobId)
  apart : ∀ time coreId jobId newJobId oldJobId newJobId', (time, .finished jobId coreId newJobId) ∈ output →
    (time, .quantumExpired oldJobId coreId newJobId') ∉ output

/-- By induction on the run, with the clocks and queue times in view. -/
theorem round_robin (o : Options) (malloc : Malloc) (lines : List JobLine)
    (valid : ∀ line ∈ lines, line.Valid) (scheme : o.scheme = .rr) (n : ℕ) :
    ∃ s output, run (tracedStep o) n (initial o malloc lines, []) = .ok (s, output) ∧ RoundRobin o s output := by
  have inv := Inv.initial malloc o valid
  have empty : (initial o malloc lines).globals.queue = [] :=
    (schedulerStartUp_spec malloc o.cores o.scheme).2.1
  have byQueueTime : ByQueueTime o := ⟨scheme ▸ rfl, scheme ▸ rfl⟩
  have before : QueuedBefore (initial o malloc lines) := fun r inQueue =>
    (List.not_mem_nil (empty ▸ inQueue)).elim
  obtain ⟨s, output, ran, inv', before', order⟩ := fifo_run byQueueTime inv before [] n
  rw [Globals.queueIds, empty] at order
  obtain ⟨s', output', ran', _, apart⟩ := traced_run (P := Apart o)
    (fun _ _ _ _ _ apart taken => apart.transition scheme taken) inv (.start o _) n
  obtain ⟨rfl, rfl⟩ := Prod.mk.inj (Except.ok.inj (ran'.symm.trans ran))
  refine ⟨s', output', ran, inv'.inStep.queue, order, fun jobId coreId newJobId shown => ?_,
    fun m shown jobId named => ?_, apart.apart⟩
  · exact requeued byQueueTime inv' before' shown output'
  · exact stint_of_dispatch scheme inv' shown named output'

/-- Two quanta expire and a job arrives in the same time unit. -/
theorem round_robin_coinciding :
    let o : Options := ⟨2, .rr, 2, by decide, fun _ => by decide⟩
    let lines : List JobLine := [⟨0, 3, 0⟩, ⟨0, 5, 0⟩, ⟨1, 2, 0⟩, ⟨2, 4, 0⟩]
    let malloc : Malloc := ⟨fun _ _ => newJob 0 0 0 0, fun _ _ => 0, fun _ => none⟩
    ∃ s output, run (tracedStep o) 40 (initial o malloc lines, []) = .ok (s, output) ∧ RoundRobin o s output :=
  round_robin _ _ _ (by decide) rfl 40

end OsLabs.Scheduler
