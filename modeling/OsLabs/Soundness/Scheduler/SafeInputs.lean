import OsLabs.Proofs.Scheduler.Endless
import OsLabs.Soundness.Scheduler.Simulation

/-! # The inputs that the simulator is safe on

The simulator checks no number of the job file. Exactly when every job arrives at time 0 or later and
has a unit to run, its calls about running jobs name a job on its core and its loop ends. A job
without units is reported finished before it arrives, on core -1; any other job with a wrong number
stays in the array for ever.
-/

namespace OsLabs.Scheduler

open Globals DeterministicRun

variable {o : Options} {malloc : Malloc} {lines : List JobLine} {s s' : Sim} {job : SimJob}

/-- The job that the next step hands to `scheduler_job_finished`, or whose core it hands to
`scheduler_quantum_expired`. -/
def reported (o : Options) (s : Sim) : Option SimJob :=
  match s.phase with
  | .finish i => s.jobs[i]?.filter fun job => job.runTime = 0
  | .quantum i =>
    if (o.scheme = .rr ∧ i < o.cores) ∧ s.quantumClock i = 0 then
      (s.jobs.findIdx? fun job => job.coreId = (i : ℤ)).bind (s.jobs[·]?)
    else none
  | _ => none

/-- An arrived job on one of the cores, which the library runs there too. -/
structure Running (o : Options) (s : Sim) (job : SimJob) : Prop where
  arrived : job.arrived = true
  core : 0 ≤ job.coreId ∧ job.coreId < o.cores
  busy : job.coreId ∉ s.globals.idle
  loaded : ∃ r, s.globals.load job.coreId = some r ∧ Record job r

/-- Every call about a running job is about one, and the loop ends. -/
structure Safe (o : Options) (malloc : Malloc) (lines : List JobLine) : Prop where
  calls : ∀ n s job, run (step o) n (initial o malloc lines) = .ok s → reported o s = some job → Running o s job
  ends : ∃ n s, run (step o) n (initial o malloc lines) = .ok s ∧ s.phase = .done

/-- Who is reported is on a core. -/
theorem Inv.reported_onCore (inv : Inv o lines s) (is : reported o s = some job) :
    job ∈ s.jobs ∧ job.coreId ≠ -1 := by
  rw [reported] at is
  split at is
  · obtain ⟨found, finished⟩ := Option.filter_eq_some_iff.mp is
    exact ⟨List.mem_of_getElem? found, (inv.entries.finished _ job found (of_decide_eq_true finished)).1⟩
  · next i _ =>
    split at is
    · obtain ⟨j, located, found⟩ := Option.bind_eq_some_iff.mp is
      obtain ⟨inside, holds, -⟩ := List.findIdx?_eq_some_iff_getElem.mp located
      rw [(List.getElem?_eq_some_iff.mp found).2] at holds
      have onCore : job.coreId = (i : ℤ) := of_decide_eq_true holds
      exact ⟨List.mem_of_getElem? found, by omega⟩
    · cases is
  · cases is

theorem Inv.running (inv : Inv o lines s) (is : reported o s = some job) : Running o s job := by
  obtain ⟨member, onCore⟩ := inv.reported_onCore is
  obtain ⟨arrived, isCore, notIdle, r, running, runs⟩ := inv.agree.onCore job member onCore
  refine ⟨arrived, ?_, notIdle, r, (load_eq isCore).trans running, runs.toRecord⟩
  rw [← inv.fixed.totalCores]
  exact isCore

theorem safe_of_valid (valid : ∀ line ∈ lines, line.Valid) : Safe o malloc lines where
  calls n s job ran is := by
    obtain ⟨s', ran', inv⟩ := simulation_inv o malloc valid n
    cases ran.symm.trans ran'
    exact inv.running is
  ends := by
    obtain ⟨n, s, ran, completed⟩ := (simulation_agrees o malloc lines valid).2
    exact ⟨n, s, ran, completed.done⟩

/-- The loop over finished jobs passes jobs with units left. -/
theorem finish_skips (n k : ℕ) (left : ∀ m < n, ∃ job, s.jobs[k + m]? = some job ∧ job.runTime ≠ 0) :
    run (step o) n { s with phase := .finish k } = .ok { s with phase := .finish (k + n) } := by
  induction n generalizing k with
  | zero => rfl
  | succ n ih =>
    obtain ⟨job, here, unfinished⟩ := left 0 (Nat.succ_pos n)
    have taken : step o { s with phase := .finish k } = .ok { s with phase := .finish (k + 1) } := by
      rw [step]
      simp only [Nat.add_zero] at here
      simp only [here, if_neg unfinished]
    rw [run_succ taken, ih (k + 1), Nat.add_assoc, Nat.add_comm 1 n]
    intro m below
    have next := left (m + 1) (Nat.succ_lt_succ below)
    rwa [Nat.add_comm m 1, ← Nat.add_assoc] at next

/-- The first job without units is reported, while it is on no core. -/
theorem Safe.no_zero (safe : Safe o malloc lines) {line : JobLine} (member : line ∈ lines) : line.runTime ≠ 0 := by
  intro zero
  have exists_zero : ∃ k : ℕ, ∃ line : JobLine, lines[k]? = some line ∧ line.runTime = 0 := by
    obtain ⟨k, found⟩ := List.mem_iff_getElem?.mp member
    exact ⟨k, line, found, zero⟩
  classical
  let k := Nat.find exists_zero
  obtain ⟨first, found, units⟩ : ∃ line : JobLine, lines[k]? = some line ∧ line.runTime = 0 := Nat.find_spec exists_zero
  let s := initial o malloc lines
  have here : s.jobs[k]? = some ⟨k, first.arrivalTime, first.runTime, first.priority, -1, false⟩ := by
    change (loadJobs lines)[k]? = _
    rw [loadJobs_getElem?, found]
    rfl
  have enters : step o s = .ok { s with phase := .finish 0 } := by
    have inside : 0 < s.jobs.length := Nat.zero_lt_of_lt (List.getElem?_eq_some_iff.mp here).1
    change Except.ok { s with phase := if s.jobs.length > 0 then _ else _ } = _
    rw [if_pos inside]
  have skips : run (step o) k { s with phase := .finish 0 } = .ok { s with phase := .finish (0 + k) } := by
    apply finish_skips
    intro m below
    have inside : k < lines.length := (List.getElem?_eq_some_iff.mp found).1
    have earlier : lines[m]? = some lines[m] := List.getElem?_eq_getElem (below.trans inside)
    refine ⟨⟨m, lines[m].arrivalTime, lines[m].runTime, lines[m].priority, -1, false⟩, ?_, ?_⟩
    · change (loadJobs lines)[0 + m]? = _
      rw [Nat.zero_add, loadJobs_getElem?, earlier]
      rfl
    · intro none
      exact Nat.find_min exists_zero below ⟨lines[m], earlier, none⟩
  have ran : run (step o) (k + 1) s = .ok { s with phase := .finish (0 + k) } := (run_succ enters k).trans skips
  have said : reported o { s with phase := .finish (0 + k) } =
      some ⟨k, first.arrivalTime, first.runTime, first.priority, -1, false⟩ := by
    simp only [reported, Nat.zero_add, here, Option.filter_some, units, decide_true, if_true]
  have core : (0 : ℤ) ≤ -1 := (safe.calls _ _ _ ran said).core.1
  omega

theorem Safe.valid (safe : Safe o malloc lines) (line : JobLine) (member : line ∈ lines) : line.Valid := by
  have units := safe.no_zero member
  by_contra invalid
  have endless : Endless (initial o malloc lines) := by
    refine ⟨le_rfl, ?_, by simp [initial]⟩
    obtain ⟨k, found⟩ := List.mem_iff_getElem?.mp member
    have loaded : (loadJobs lines)[k]? = some ⟨k, line.arrivalTime, line.runTime, line.priority, -1, false⟩ := by
      rw [loadJobs_getElem?, found]
      rfl
    refine ⟨_, List.mem_of_getElem? loaded, ?_⟩
    by_cases negative : line.runTime < 0
    · exact .inl negative
    · refine .inr ⟨units, ?_, rfl, rfl⟩
      rw [JobLine.Valid] at invalid
      change line.arrivalTime < 0
      omega
  obtain ⟨n, s, ran, done⟩ := safe.ends
  exact endless.not_done ran done

/-- The simulator is safe exactly on the files whose jobs all arrive at time 0 or later with at
least one unit to run. -/
theorem safe_iff_valid (o : Options) (malloc : Malloc) (lines : List JobLine) :
    Safe o malloc lines ↔ ∀ line ∈ lines, line.Valid :=
  ⟨fun safe => safe.valid, safe_of_valid⟩

/-- A job of no units that is to arrive at time 5 is reported at time 0. -/
theorem unsafe_without_units :
    let o : Options := ⟨1, .fcfs, 1, by decide, by decide⟩
    let malloc : Malloc := ⟨fun _ _ => newJob 0 0 0 0, fun _ _ => 0, fun _ => none⟩
    ¬ Safe o malloc [⟨5, 0, 1⟩] :=
  fun safe => safe.no_zero (List.mem_singleton_self _) rfl

end OsLabs.Scheduler
