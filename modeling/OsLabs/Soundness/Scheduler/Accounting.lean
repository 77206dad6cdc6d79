import OsLabs.Model.Scheduler.MachinePriqueue
import OsLabs.Soundness.Scheduler.Simulation
import OsLabs.Soundness.Scheduler.Turnaround

/-! # The totals at the end of a simulation

When the loop ends, the totals of the library are sums over the jobs of what the snapshots of the
time units say: when a job executed first and last, and in how many units it did not. They are as long as
the sum of the turnaround times is an `int`; the other two are never greater.
-/

namespace OsLabs.Scheduler

open DeterministicRun

variable {o : Options} {lines : List JobLine} {s : Sim} {snapshots : List (List SimJob)} {j : SimJob}

/-- Every job executed, and the totals are those of the units. -/
structure Accounted (lines : List JobLine) (s : Sim) : Prop where
  executes : ∀ j ∈ loadJobs lines, executed j.jobId s.snapshots ≠ []
  totalJobs : s.globals.totalJobs = lines.length
  totalTurnaroundTime : s.globals.totalTurnaroundTime = ((loadJobs lines).map (turnaround s.snapshots)).sum
  totalWaitingTime : s.globals.totalWaitingTime = ((loadJobs lines).map (waited s.snapshots)).sum
  totalResponseTime : s.globals.totalResponseTime = ((loadJobs lines).map (response s.snapshots)).sum

/-- The totals of the library, in `int`. -/
structure Wrapped (lines : List JobLine) (s : Sim) : Prop where
  totalJobs : s.globals.totalJobs = (lines.length : ℤ).bmod (2 ^ 32)
  totalTurnaroundTime : s.globals.totalTurnaroundTime =
    ((loadJobs lines).map (turnaround s.snapshots)).sum.bmod (2 ^ 32)
  totalWaitingTime : s.globals.totalWaitingTime = ((loadJobs lines).map (waited s.snapshots)).sum.bmod (2 ^ 32)
  totalResponseTime : s.globals.totalResponseTime = ((loadJobs lines).map (response s.snapshots)).sum.bmod (2 ^ 32)

theorem Ledger.wrapped (ledger : Ledger o lines s) (empty : s.jobs = []) : Wrapped lines s := by
  obtain ⟨gone, settled⟩ := ledger.settled
  have keys := settled.jobs
  rw [empty, List.append_nil] at keys
  -- what a job adds depends on its id and its arrival alone
  have sums (charge : ℤ × ℤ → ℤ) : (gone.map fun j => charge (j.jobId, j.arrivalTime)).sum =
      ((loadJobs lines).map fun j => charge (j.jobId, j.arrivalTime)).sum := by
    have same := (keys.map charge).sum_eq
    rwa [List.map_map, List.map_map] at same
  have length : gone.length = lines.length := by
    have same := keys.length_eq
    rwa [List.length_map, List.length_map, loadJobs, List.length_mapIdx] at same
  let job (key : ℤ × ℤ) : SimJob := ⟨key.1, key.2, 0, 0, -1, false⟩
  refine ⟨?_, ?_, ?_, ?_⟩
  · rw [settled.totalJobs, length]
  · exact settled.totalTurnaroundTime.trans (congrArg (Int.bmod · _) (sums fun key => turnaround s.snapshots (job key)))
  · exact settled.totalWaitingTime.trans (congrArg (Int.bmod · _) (sums fun key => waited s.snapshots (job key)))
  · exact settled.totalResponseTime.trans (congrArg (Int.bmod · _) (sums fun key => response s.snapshots (job key)))

/-! ## Single jobs -/

/-- What the units of a job add to the totals. -/
structure Charges (snapshots : List (List SimJob)) (j : SimJob) : Prop where
  executes : executed j.jobId snapshots ≠ []
  turnaround : 1 ≤ turnaround snapshots j
  waited : 0 ≤ waited snapshots j ∧ waited snapshots j ≤ Scheduler.turnaround snapshots j
  response : 0 ≤ response snapshots j ∧ response snapshots j ≤ Scheduler.turnaround snapshots j

theorem charges_of_after (executes : executed j.jobId snapshots ≠ [])
    (after : ∀ t ∈ executed j.jobId snapshots, j.arrivalTime ≤ t) : Charges snapshots j := by
  have last := getLastD_executed executes
  have ends := after _ (List.getLast_mem executes)
  have early : (executed j.jobId snapshots).headD 0 ≤ (executed j.jobId snapshots).getLast executes := by
    rw [List.headD_eq_head?_getD, List.head?_eq_some_head executes, Option.getD_some]
    exact List.Pairwise.rel_getLast_of_rel_getLast_getLast ((executed_increasing j.jobId snapshots).imp le_of_lt)
      (List.head_mem executes) le_rfl
  have starts : j.arrivalTime ≤ (executed j.jobId snapshots).headD 0 := by
    rw [List.headD_eq_head?_getD, List.head?_eq_some_head executes, Option.getD_some]
    exact after _ (List.head_mem executes)
  refine ⟨executes, ?_, ⟨Int.natCast_nonneg _, ?_⟩, ?_, ?_⟩
  · rw [turnaround, completion]
    omega
  · have most := List.countP_le_length (p := fun t => decide (t ∉ executed j.jobId snapshots))
      (l := unitsFrom j.arrivalTime (completion snapshots j))
    rw [unitsFrom, List.length_map, List.length_range] at most
    rw [waited, turnaround]
    rw [completion] at most ⊢
    rw [unitsFrom]
    omega
  · rw [response]
    omega
  · rw [response, turnaround, completion]
    omega

theorem AllShown.charges (all : AllShown o lines snapshots) (valid : ∀ line ∈ lines, line.Valid)
    (complete : ∀ (k : ℕ) line, lines[k]? = some line → unitsRun k snapshots = line.runTime)
    (member : j ∈ loadJobs lines) : Charges snapshots j := by
  obtain ⟨k, found⟩ := List.mem_iff_getElem?.mp member
  rw [loadJobs_getElem?] at found
  obtain ⟨line, inFile, rfl⟩ := Option.map_eq_some_iff.mp found
  have executes := all.executes (complete k line inFile) (valid line (List.mem_of_getElem? inFile))
  exact charges_of_after executes fun t isUnit => all.arrival_le inFile isUnit

/-! ## Sums -/

/-- No job takes longer than all units in the file. -/
theorem AllShown.sum_turnaround_le (all : AllShown o lines snapshots) (valid : ∀ line ∈ lines, line.Valid)
    (complete : ∀ (k : ℕ) line, lines[k]? = some line → unitsRun k snapshots = line.runTime) :
    ((loadJobs lines).map (turnaround snapshots)).sum ≤ lines.length * (lines.map JobLine.runTime).sum := by
  have positive : (1 : ℤ) ≤ o.cores := by exact_mod_cast o.coresPos
  have each (x : ℤ) (isCharge : x ∈ (loadJobs lines).map (turnaround snapshots)) : x ≤ (lines.map JobLine.runTime).sum := by
    obtain ⟨j, member, rfl⟩ := List.mem_map.mp isCharge
    obtain ⟨k, found⟩ := List.mem_iff_getElem?.mp member
    rw [loadJobs_getElem?] at found
    obtain ⟨line, inFile, rfl⟩ := Option.map_eq_some_iff.mp found
    have bound := all.turnaround_le valid complete inFile
    have own : line.runTime ≤ (lines.map JobLine.runTime).sum := by
      refine List.single_le_sum (fun x isTime => ?_) _ (List.mem_map_of_mem (List.mem_of_getElem? inFile))
      obtain ⟨line', inFile', rfl⟩ := List.mem_map.mp isTime
      exact Int.le_of_lt (valid line' inFile').2
    change (executed k snapshots).getLastD 0 + 1 - line.arrivalTime ≤ _
    nlinarith
  have most := List.sum_le_card_nsmul _ _ each
  rwa [List.length_map, loadJobs, List.length_mapIdx, nsmul_eq_mul] at most

theorem Wrapped.turnaround_le (wrapped : Wrapped lines s) : s.globals.totalTurnaroundTime ≤ intMax := by
  have below := Int.bmod_lt (x := ((loadJobs lines).map (turnaround s.snapshots)).sum) (m := 2 ^ 32) (by decide)
  rw [← wrapped.totalTurnaroundTime] at below
  rw [intMax]
  omega

/-- The totals are exact if and only if the sum of the turnaround times is an `int`. -/
theorem Wrapped.accounted_iff (wrapped : Wrapped lines s) (charges : ∀ j ∈ loadJobs lines, Charges s.snapshots j) :
    Accounted lines s ↔ ((loadJobs lines).map (turnaround s.snapshots)).sum ≤ intMax := by
  set total := ((loadJobs lines).map (turnaround s.snapshots)).sum with total_def
  constructor
  · intro accounted
    exact accounted.totalTurnaroundTime.ge.trans wrapped.turnaround_le
  · intro small
    rw [intMax] at small
    have fits {n : ℤ} (nonneg : 0 ≤ n) (le : n ≤ total) : n.bmod (2 ^ 32) = n := Int.bmod_eq_of_le (by omega) (by omega)
    have jobs : (lines.length : ℤ) ≤ total := by
      have each := List.card_nsmul_le_sum ((loadJobs lines).map (turnaround s.snapshots)) 1 fun x isCharge => by
        obtain ⟨j, member, rfl⟩ := List.mem_map.mp isCharge
        exact (charges j member).turnaround
      rwa [List.length_map, loadJobs, List.length_mapIdx, nsmul_one] at each
    have sums (f : SimJob → ℤ) (bounds : ∀ j ∈ loadJobs lines, 0 ≤ f j ∧ f j ≤ turnaround s.snapshots j) :
        ((loadJobs lines).map f).sum.bmod (2 ^ 32) = ((loadJobs lines).map f).sum := by
      refine fits (List.sum_nonneg fun x isCharge => ?_) (List.sum_le_sum fun j member => (bounds j member).2)
      obtain ⟨j, member, rfl⟩ := List.mem_map.mp isCharge
      exact (bounds j member).1
    refine ⟨fun j member => (charges j member).executes, ?_, ?_, ?_, ?_⟩
    · rw [wrapped.totalJobs, fits (Int.natCast_nonneg _) jobs]
    · exact wrapped.totalTurnaroundTime.trans
        (sums _ fun j member => ⟨by have some := (charges j member).turnaround; omega, le_rfl⟩)
    · exact wrapped.totalWaitingTime.trans (sums _ fun j member => (charges j member).waited)
    · exact wrapped.totalResponseTime.trans (sums _ fun j member => (charges j member).response)

/-! ## Runs -/

/-- The simulation that draws its diagram is the simulation. -/
theorem run_of_drawn {n : ℕ} {x : Sim × Diagram} {d : Diagram} (ran : run (drawnStep o) n x = .ok (s, d)) :
    run (step o) n x.1 = .ok s := by
  refine run_map Prod.fst (fun y y' taken => ?_) ran
  cases stepped : step o y.1 with
  | error fault =>
    rw [drawnStep, stepped] at taken
    cases taken
  | ok s' =>
    by_cases here : y.1.phase = .run
    · cases drew : y.2.draw y.1.jobs with
      | error fault =>
        simp only [drawnStep, stepped, if_pos here, drew, bind, Except.bind] at taken
        cases taken
      | ok d' =>
        simp only [drawnStep, stepped, if_pos here, drew, bind, Except.bind, pure, Except.pure] at taken
        cases taken
        rfl
    · simp only [drawnStep, stepped, if_neg here, bind, Except.bind, pure, Except.pure] at taken
      cases taken
      rfl

/-- The loop ends, and then the totals are exact if and only if the sum of the turnaround times in the schedule
is an `int`. It is one if the number of jobs times all units in the file is one. -/
theorem accounting_exact_iff (o : Options) (malloc : Malloc) (lines : List JobLine)
    (valid : ∀ line ∈ lines, line.Valid) :
    ∃ n s, run (step o) n (initial o malloc lines) = .ok s ∧ s.phase = .done ∧
      (Accounted lines s ↔ ((loadJobs lines).map (turnaround s.snapshots)).sum ≤ intMax) ∧
      (lines.length * (lines.map JobLine.runTime).sum ≤ intMax → Accounted lines s) := by
  obtain ⟨n, s, d, ran, done, inv, ledger, drawn⟩ := drawn_ends o malloc lines valid
  have complete (k : ℕ) (line : JobLine) (inFile : lines[k]? = some line) := inv.unitsRun_eq done inFile
  have exact := (ledger.wrapped (inv.completed done).jobs).accounted_iff
    fun j member => drawn.shown.charges valid complete member
  refine ⟨n, s, run_of_drawn ran, done, exact, fun small => exact.mpr ?_⟩
  exact (drawn.shown.sum_turnaround_le valid complete).trans small

/-- The first job is put on the core and preempted before it executes. -/
theorem accounting_exact_preempted :
    let o : Options := ⟨1, .ppri, 1, by decide, nofun⟩
    let lines : List JobLine := [⟨0, 3, 2⟩, ⟨0, 2, 1⟩]
    let malloc : Malloc := ⟨fun _ _ => newJob 0 0 0 0, fun _ _ => 0, fun _ => none⟩
    ∃ n s, run (step o) n (initial o malloc lines) = .ok s ∧ s.phase = .done ∧
      (Accounted lines s ↔ ((loadJobs lines).map (turnaround s.snapshots)).sum ≤ intMax) ∧
      (lines.length * (lines.map JobLine.runTime).sum ≤ intMax → Accounted lines s) :=
  accounting_exact_iff _ _ _ (by decide)

/-- Jobs that all arrive at once on one core: the turnaround times are at least 1, 2, 3 and so on. -/
theorem AllShown.sum_turnaround_ge (all : AllShown o lines snapshots) (single : o.cores = 1)
    (atOnce : ∀ line ∈ lines, line.arrivalTime = 0) (executes : ∀ k < lines.length, executed k snapshots ≠ []) :
    lines.length * (lines.length + 1) ≤ 2 * ((loadJobs lines).map (turnaround snapshots)).sum := by
  have jobs : (loadJobs lines).map (turnaround snapshots) =
      (List.range lines.length).map fun k : ℕ => (executed k snapshots).getLastD 0 + 1 := by
    refine List.ext_getElem? fun k => ?_
    rw [List.getElem?_map, loadJobs_getElem?, List.getElem?_map, Option.map_map]
    rcases Nat.lt_or_ge k lines.length with inside | outside
    · rw [List.getElem?_eq_getElem inside, List.getElem?_range inside, Option.map_some, Option.map_some]
      have zero := atOnce lines[k] (List.getElem_mem inside)
      change some ((executed k snapshots).getLastD 0 + 1 - lines[k].arrivalTime) = _
      rw [zero, Int.sub_zero]
    · rw [List.getElem?_eq_none outside, List.getElem?_eq_none (by rwa [List.length_range])]
      rfl
  have ends := all.sum_last_le single executes
  have gauss := Finset.sum_range_id_mul_two lines.length
  have sum : ((loadJobs lines).map (turnaround snapshots)).sum =
      ∑ k ∈ Finset.range lines.length, ((executed k snapshots).getLastD 0 + 1) := by
    rw [jobs]
    rfl
  rw [Finset.sum_add_distrib, Finset.sum_const, Finset.card_range, nsmul_one] at sum
  have square : (∑ i ∈ Finset.range lines.length, i) * 2 + 2 * lines.length = lines.length * (lines.length + 1) := by
    rw [gauss]
    cases lines.length with
    | zero => rfl
    | succ n =>
      rw [Nat.add_sub_cancel]
      ring
  zify at square
  linarith

/-- 65536 jobs of one unit, all there from the start, on one core: the turnaround times add up to 2147516416. -/
theorem accounting_overflows :
    let o : Options := ⟨1, .fcfs, 1, by decide, nofun⟩
    let lines : List JobLine := List.replicate 65536 ⟨0, 1, 0⟩
    let malloc : Malloc := ⟨fun _ _ => newJob 0 0 0 0, fun _ _ => 0, fun _ => none⟩
    ∃ n s, run (step o) n (initial o malloc lines) = .ok s ∧ s.phase = .done ∧ ¬ Accounted lines s := by
  intro o lines malloc
  have valid : ∀ line ∈ lines, line.Valid := fun line member => by
    rw [List.eq_of_mem_replicate member]
    decide
  obtain ⟨n, s, d, ran, done, inv, ledger, drawn⟩ := drawn_ends o malloc lines valid
  have complete (k : ℕ) (line : JobLine) (inFile : lines[k]? = some line) := inv.unitsRun_eq done inFile
  refine ⟨n, s, run_of_drawn ran, done, fun accounted => ?_⟩
  have small := ((ledger.wrapped (inv.completed done).jobs).accounted_iff
    fun j member => drawn.shown.charges valid complete member).mp accounted
  have large := drawn.shown.sum_turnaround_ge rfl (fun line member => by rw [List.eq_of_mem_replicate member])
    fun k inside => drawn.shown.executes (complete k _ (List.getElem?_eq_getElem inside))
      (valid _ (List.getElem_mem inside))
  have length : lines.length = 65536 := List.length_replicate
  rw [length] at large
  rw [intMax] at small
  omega

end OsLabs.Scheduler
