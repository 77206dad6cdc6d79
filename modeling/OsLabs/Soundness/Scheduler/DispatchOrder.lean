import OsLabs.Proofs.Scheduler.DispatchOrder
import OsLabs.Soundness.Scheduler.Simulation

/-! # First come first served, shortest job first, and priorities

Under the schemes without preemption a job keeps its core until it finishes, and the job that then gets
the core is the first of the least that wait. Under first come first served, jobs start in the order in
which they arrive.
-/

namespace OsLabs.Scheduler

open DeterministicRun StableInsert

variable {o : Options} {lines : List JobLine}

/-- What the output shows in a state, and what comes after it. -/
structure DispatchOrder (o : Options) (lines : List JobLine) (s : Sim) (output : Output) : Prop where
  waiting : (waitingJobs output).Perm ((s.jobs.filter fun j => j.arrived ∧ j.coreId = -1).map SimJob.jobId)
  least : ∀ jobId coreId newJobId, printed o s = some (.finished jobId coreId newJobId) → newJobId ≠ -1 →
    First (Precedes o.scheme lines) newJobId (waitingJobs output)
  keepsCore : ∀ j ∈ s.jobs, j.coreId ≠ -1 → ∀ n, ∃ s' later,
    run (tracedStep o) n (s, output) = .ok (s', output ++ later) ∧ KeepsCore j.jobId j.coreId s' later
  arrivals : o.scheme = .fcfs → (arrivalLog output).Pairwise (StartsBefore s.snapshots)
  arrivalTimes : o.scheme = .fcfs → ∀ j ∈ loadJobs lines, ∀ j' ∈ loadJobs lines,
    j.arrivalTime < j'.arrivalTime → StartsBefore s.snapshots j.jobId j'.jobId

theorem StablyQueued.least {s : Sim} {output : Output} {jobId coreId newJobId : ℤ}
    (queued : StablyQueued o lines s output) (ledger : Ledger o lines s) (inv : Inv o lines s)
    (nonPreemptive : NonPreemptive o.scheme) (fits : Fits o.scheme (loadJobs lines))
    (shown : printed o s = some (.finished jobId coreId newJobId)) (some : newJobId ≠ -1) :
    First (Precedes o.scheme lines) newJobId (waitingJobs output) := by
  obtain ⟨s', _, transition⟩ := inv.takes (notDone_of_printed shown)
  have first := (queued.transition ledger inv nonPreemptive fits transition).2 newJobId
  rw [shown] at first
  have named : newJobId ∈ (Message.finished jobId coreId newJobId).taken := mem_dispatched_iff.mpr ⟨some, rfl⟩
  exact List.append_nil (waitingJobs output) ▸ first (List.mem_flatMap.mpr ⟨_, List.mem_singleton_self _, named⟩)

/-- By induction on the run, with the queue and the accounts in view. -/
theorem dispatch_order (o : Options) (malloc : Malloc) (lines : List JobLine)
    (valid : ∀ line ∈ lines, line.Valid) (nonPreemptive : NonPreemptive o.scheme)
    (fits : Fits o.scheme (loadJobs lines)) (n : ℕ) :
    ∃ s output, run (tracedStep o) n (initial o malloc lines, []) = .ok (s, output) ∧
      DispatchOrder o lines s output := by
  have empty : (initial o malloc lines).globals.queue = [] :=
    (schedulerStartUp_spec malloc o.cores o.scheme).2.1
  have queued : StablyQueued o lines (initial o malloc lines) [] := by
    refine ⟨fun r inQueue => (List.not_mem_nil (empty ▸ inQueue)).elim, ?_⟩
    rw [Globals.queueIds, empty]
    exact .nil
  obtain ⟨s, output, ran, inv, ledger, queued, inOrder⟩ := traced_run (P := fun s output =>
    Ledger o lines s ∧ StablyQueued o lines s output ∧ (o.scheme = .fcfs → InOrder lines s output))
    (fun s output message s' inv holds taken => by
      obtain ⟨ledger, queued, inOrder⟩ := holds
      refine ⟨ledger.transition inv taken, (queued.transition ledger inv nonPreemptive fits taken).1, ?_⟩
      exact fun scheme => (inOrder scheme).transition ledger inv scheme taken)
    (.initial malloc o valid) ⟨.initial malloc o valid, queued, fun _ => .initial malloc o lines⟩ n
  refine ⟨s, output, ran, ?_, ?_, ?_, ?_, ?_⟩
  · exact queued.stable.perm.symm.trans inv.inStep.queue
  · exact fun jobId coreId newJobId shown some => queued.least ledger inv nonPreemptive fits shown some
  · exact fun j member onCore => keepsCore_run nonPreemptive inv member onCore output
  · exact fun scheme => (inOrder scheme).arrivals
  · exact fun scheme j loaded j' loaded' => (inOrder scheme).arrivalTimes ledger inv loaded loaded'

/-- Three jobs wait for the core of the first, two of them with the same priority and arrival. -/
theorem dispatch_order_tied :
    let o : Options := ⟨1, .pri, 1, by decide, nofun⟩
    let lines : List JobLine := [⟨0, 3, 9⟩, ⟨1, 2, 4⟩, ⟨1, 5, 4⟩, ⟨2, 1, -3⟩]
    let malloc : Malloc := ⟨fun _ _ => newJob 0 0 0 0, fun _ _ => 0, fun _ => none⟩
    ∃ s output, run (tracedStep o) 30 (initial o malloc lines, []) = .ok (s, output) ∧
      DispatchOrder o lines s output :=
  dispatch_order _ _ _ (by decide) (by decide) (fun _ => by decide) 30

end OsLabs.Scheduler
