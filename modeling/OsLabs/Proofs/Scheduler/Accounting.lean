import OsLabs.Proofs.Scheduler.Records
import OsLabs.Proofs.Scheduler.Steps
import OsLabs.Proofs.Scheduler.Units

/-! # The accounts of the library

`Ledger` relates the start times of the records and the totals to the units in which the jobs
executed. A record on a core that has not executed yet was put there in this time unit; the job of a
record in the queue without a start time has never executed.
-/

namespace OsLabs.Scheduler

open Globals

variable {o : Options} {lines : List JobLine} {s s' : Sim} {time c : ℤ} {jobs jobs' gone : List SimJob}
  {snapshots : List (List SimJob)} {g g' : Globals} {job j : SimJob} {r : JobT} {i k : ℕ}
  {f : SimJob → SimJob} {message : Option Message}

/-! ## Totals -/

def Globals.totals (g : Globals) : ℤ × ℤ × ℤ × ℤ :=
  (g.totalJobs, g.totalTurnaroundTime, g.totalWaitingTime, g.totalResponseTime)

theorem NextJob.totals (next : NextJob time c jobs g jobs' g') : g'.totals = g.totals := by
  cases next <;> rfl

theorem NewJob.totals {coreId : ℤ} (new : NewJob time jobs g job coreId jobs' g') : g'.totals = g.totals := by
  cases new with
  | idle => rfl
  | preempt => rfl
  | wait _ current => obtain ⟨_, rfl⟩ | ⟨_, rfl, _⟩ := current <;> rfl

theorem foldl_offerCore_totals (cores : List ℕ) (g : Globals) :
    (cores.foldl (fun g i => g.offerCore (i : ℕ)) g).totals = g.totals := by
  induction cores generalizing g with
  | nil => rfl
  | cons core cores ih => exact ih (g.offerCore core)

/-! ## The jobs on cores after a call -/

/-- A job on another core than the vacant one was there before. -/
theorem NextJob.onCore (next : NextJob time c jobs g jobs' g') (member : j ∈ jobs') :
    j.coreId = c ∨ j ∈ jobs := by
  cases next with
  | idle => exact .inr member
  | dispatch =>
    rcases mem_alter.mp member with ⟨k, _, _, rfl⟩ | ⟨old, _⟩
    · exact .inl rfl
    · exact .inr old

/-- A job on another core than the one the new job got was there before. -/
theorem NewJob.onCore {coreId : ℤ} (new : NewJob time jobs g job coreId jobs' g')
    (agree : Agree time none none jobs g) (found : job ∈ jobs) (notArrived : job.arrived = false)
    (member : j ∈ jobs') (onCore : j.coreId ≠ -1) : j.coreId = coreId ∨ j ∈ jobs := by
  cases new with
  | idle =>
    rcases mem_alter.mp member with ⟨k, _, _, rfl⟩ | ⟨old, _⟩
    · exact .inl rfl
    · exact .inr old
  | preempt =>
    rcases mem_alter.mp member with ⟨k, _, _, rfl⟩ | ⟨was, _⟩
    · exact .inl rfl
    · rcases mem_alter.mp was with ⟨k, _, _, rfl⟩ | ⟨old, _⟩
      · exact (onCore rfl).elim
      · exact .inr old
  | wait =>
    rcases mem_alter.mp member with ⟨k, inJobs, same, rfl⟩ | ⟨old, _⟩
    · have whole : k = job := eq_of_jobId agree.ids inJobs found same
      have off : k.coreId = -1 := agree.core_of_notArrived inJobs (whole ▸ notArrived)
      exact (onCore off).elim
    · exact .inr old

/-! ## Records -/

/-- The units of a job in the file. -/
def runTimeOf (lines : List JobLine) (jobId : ℤ) : ℤ := unitsLeft jobId (loadJobs lines)

/-- What a record says of the job: its first unit, or `fresh` if there is none yet. -/
structure Opened (lines : List JobLine) (snapshots : List (List SimJob)) (fresh : ℤ) (r : JobT) : Prop where
  runningTime : r.runningTime = runTimeOf lines r.jobId
  startTime : r.startTime = (executed r.jobId snapshots).headD fresh

theorem executed_head {first : ℤ} {rest : List ℤ} {jobId : ℤ} (units : executed jobId snapshots = first :: rest) :
    0 ≤ first ∧ first < snapshots.length := by
  have member : first ∈ executed jobId snapshots := units ▸ List.mem_cons_self ..
  exact executed_range member

/-- A waiting record that is put on a core. -/
theorem Opened.scheduled (opened : Opened lines snapshots (-1) r) (time : ℤ) :
    Opened lines snapshots time (r.scheduled time) where
  runningTime := opened.runningTime
  startTime := by
    have start := opened.startTime
    change (if r.startTime = -1 then time else r.startTime) = (executed r.jobId snapshots).headD time
    cases units : executed r.jobId snapshots with
    | nil =>
      rw [units] at start
      exact if_pos start
    | cons first rest =>
      have range := executed_head units
      rw [units] at start
      change r.startTime = first at start
      rw [if_neg (by omega), start]
      rfl

/-- A record that loses its core before the job executed forgets its start. -/
theorem Opened.unscheduled (clock : time = snapshots.length) (opened : Opened lines snapshots time r) :
    Opened lines snapshots (-1) (r.unscheduled time) where
  runningTime := opened.runningTime
  startTime := by
    have start := opened.startTime
    change (if r.startTime = time then -1 else r.startTime) = (executed r.jobId snapshots).headD (-1)
    cases units : executed r.jobId snapshots with
    | nil =>
      rw [units] at start
      exact if_pos start
    | cons first rest =>
      have range := executed_head units
      rw [units] at start
      change r.startTime = first at start
      rw [if_neg (by omega), start]
      rfl

/-- Once the job has executed, the time of the record's unit does not matter. -/
theorem Opened.of_executed {fresh : ℤ} (opened : Opened lines snapshots time r)
    (executes : executed r.jobId snapshots ≠ []) : Opened lines snapshots fresh r where
  runningTime := opened.runningTime
  startTime := by
    have start := opened.startTime
    cases units : executed r.jobId snapshots with
    | nil => exact (executes units).elim
    | cons first rest =>
      rw [units] at start
      exact start

/-! ## The relation -/

/-- The totals add up over the jobs that are gone, as far as an `int` can hold them. -/
structure Settled (lines : List JobLine) (s : Sim) (gone : List SimJob) : Prop where
  jobs : ((gone ++ s.jobs).map fun j => (j.jobId, j.arrivalTime)).Perm
    ((loadJobs lines).map fun j => (j.jobId, j.arrivalTime))
  executes : ∀ j ∈ gone, executed j.jobId s.snapshots ≠ []
  totalJobs : s.globals.totalJobs = (gone.length : ℤ).bmod (2 ^ 32)
  totalTurnaroundTime : s.globals.totalTurnaroundTime = (gone.map (turnaround s.snapshots)).sum.bmod (2 ^ 32)
  totalWaitingTime : s.globals.totalWaitingTime = (gone.map (waited s.snapshots)).sum.bmod (2 ^ 32)
  totalResponseTime : s.globals.totalResponseTime = (gone.map (response s.snapshots)).sum.bmod (2 ^ 32)

structure Ledger (o : Options) (lines : List JobLine) (s : Sim) : Prop where
  clock : s.time = s.snapshots.length
  arrivals : ∀ j ∈ s.jobs, ∀ t ∈ executed j.jobId s.snapshots, j.arrivalTime ≤ t
  latest : ∀ j ∈ s.jobs, j.runTime = 0 → (executed j.jobId s.snapshots).getLast? = some (s.time - 1)
  fullQuantum : o.scheme = .rr → ∀ j ∈ s.jobs, j.coreId ≠ -1 → executed j.jobId s.snapshots = [] →
    s.quantumClock j.coreId = o.quantum
  records : Records (Opened lines s.snapshots s.time) (Opened lines s.snapshots (-1)) s.globals
  settled : ∃ gone, Settled lines s gone

namespace Ledger

theorem move (ledger : Ledger o lines s) (phase : Phase) : Ledger o lines { s with phase } where
  clock := ledger.clock
  arrivals := ledger.arrivals
  latest := ledger.latest
  fullQuantum := ledger.fullQuantum
  records := ledger.records
  settled := by
    obtain ⟨gone, settled⟩ := ledger.settled
    exact ⟨gone, { settled with }⟩

/-- Entries that come from old ones by moves. -/
theorem of_moves (ledger : Ledger o lines s) (moves : Moves f) (subset : jobs ⊆ s.jobs)
    (changed : jobs' = jobs.map f) :
    (∀ j ∈ jobs', ∀ t ∈ executed j.jobId s.snapshots, j.arrivalTime ≤ t) ∧
      ∀ j ∈ jobs', j.runTime = 0 → (executed j.jobId s.snapshots).getLast? = some (s.time - 1) := by
  rw [changed]
  constructor
  · intro j' member
    obtain ⟨j, old, rfl⟩ := List.mem_map.mp member
    rw [moves.jobId, moves.arrivalTime]
    exact ledger.arrivals j (subset old)
  · intro j' member
    obtain ⟨j, old, rfl⟩ := List.mem_map.mp member
    rw [moves.jobId, moves.runTime]
    exact ledger.latest j (subset old)

/-- The clock of the core that gets a job is reset. -/
theorem of_reset (ledger : Ledger o lines s) (c : ℤ) (old : ∀ j ∈ jobs', j.coreId ≠ -1 → j.coreId = c ∨ j ∈ s.jobs)
    (scheme : o.scheme = .rr) (member : j ∈ jobs') (onCore : j.coreId ≠ -1)
    (none : executed j.jobId s.snapshots = []) : o.resetClock s.quantumClock c j.coreId = o.quantum := by
  rw [Options.resetClock, if_pos scheme]
  by_cases here : j.coreId = c
  · rw [here, Function.update_self]
  · rw [Function.update_of_ne here]
    exact ledger.fullQuantum scheme j ((old j member onCore).resolve_left here) onCore none

theorem map_key (moves : Moves f) (jobs : List SimJob) :
    ((jobs.map f).map fun j => (j.jobId, j.arrivalTime)) = jobs.map fun j => (j.jobId, j.arrivalTime) := by
  rw [List.map_map]
  refine List.map_congr_left fun j _ => ?_
  rw [Function.comp_apply, moves.jobId, moves.arrivalTime]

/-- What the library adds to its totals is what the finished job's units say. -/
theorem closing (ledger : Ledger o lines s) (inv : Inv o lines s) (member : job ∈ s.jobs)
    (finished : job.runTime = 0) (onCore : job.coreId ≠ -1) (running : s.globals.runningJobs job.coreId = some r) :
    executed job.jobId s.snapshots ≠ [] ∧ turnaround s.snapshots job = s.time - r.arrivalTime ∧
      waited s.snapshots job = s.time - r.arrivalTime - r.runningTime ∧
      response s.snapshots job = r.startTime - r.arrivalTime := by
  obtain ⟨_, hasCore, busy, r', running', runs⟩ := inv.agree.onCore job member onCore
  obtain rfl := Option.some.inj (running'.symm.trans running)
  have opened := ledger.records.running job.coreId r' hasCore busy running
  have finishedAt := ledger.latest job member finished
  have executes : executed job.jobId s.snapshots ≠ [] := fun none => by
    rw [none] at finishedAt
    cases finishedAt
  have turnsAround : turnaround s.snapshots job = s.time - r'.arrivalTime := by
    rw [turnaround, completion, List.getLastD_eq_getLast?, finishedAt, Option.getD_some, runs.arrivalTime,
      Int.sub_add_cancel]
  have length : ((executed job.jobId s.snapshots).length : ℤ) = r'.runningTime := by
    have units := inv.history.units job.jobId
    rw [unitsLeft_of_mem inv.agree.ids member, finished, zero_add] at units
    rw [executed_length fun snapshot taken => (inv.exclusive snapshot taken).jobs job.jobId, units,
      opened.runningTime, runs.jobId, runTimeOf]
  refine ⟨executes, turnsAround, ?_, ?_⟩
  · rw [waited_eq (ledger.arrivals job member) executes, turnsAround, length]
  · have start := opened.startTime
    rw [runs.jobId] at start
    rw [response, start, runs.arrivalTime]
    cases units : executed job.jobId s.snapshots with
    | nil => exact (executes units).elim
    | cons => rfl

theorem finish {jobsAlive : ℤ} (ledger : Ledger o lines s) (inv : Inv o lines s) (found : s.jobs[i]? = some job)
    (finished : job.runTime = 0) (onCore : job.coreId ≠ -1) (running : s.globals.runningJobs job.coreId = some r)
    (next : NextJob s.time job.coreId (deleteJob s.jobs i) (s.globals.finished job.coreId r s.time) jobs' g') :
    Ledger o lines { s with
      jobs := jobs'
      globals := g'
      quantumClock := o.resetClock s.quantumClock job.coreId
      jobsAlive } := by
  have member := List.mem_of_getElem? found
  have perm := deleteJob_perm found
  have subset : deleteJob s.jobs i ⊆ s.jobs := fun j kept => perm.mem_iff.mpr (List.mem_cons_of_mem _ kept)
  obtain ⟨f, moves, _, _, changed⟩ := next.moves onCore
  obtain ⟨arrivals, latest⟩ := ledger.of_moves moves subset changed
  obtain ⟨executes, turnsAround, waits, responds⟩ := ledger.closing inv member finished onCore running
  obtain ⟨gone, settled⟩ := ledger.settled
  have totals := next.totals
  simp only [Globals.totals, Globals.finished, Prod.mk.injEq] at totals
  obtain ⟨totalJobs, totalTurnaroundTime, totalWaitingTime, totalResponseTime⟩ := totals
  refine ⟨ledger.clock, arrivals, latest, fun scheme j inJobs isOn none => ?_, ?_, job :: gone, ?_⟩
  · refine ledger.of_reset job.coreId (fun k kept _ => ?_) scheme inJobs isOn none
    exact next.onCore kept |>.imp_right (@subset k)
  · exact (ledger.records.finished job.coreId r s.time).next next fun r waiting => waiting.scheduled s.time
  · refine ⟨?_, List.forall_mem_cons.mpr ⟨executes, settled.executes⟩, ?_, ?_, ?_, ?_⟩
    · refine List.Perm.trans ?_ settled.jobs
      rw [changed, List.map_append, map_key moves, ← List.map_append]
      exact (List.perm_middle.symm.trans (perm.symm.append_left gone)).map _
    · rw [totalJobs, settled.totalJobs, intAdd, Int.bmod_add_bmod, List.length_cons, Nat.cast_succ]
    · rw [totalTurnaroundTime, settled.totalTurnaroundTime, intAdd, Int.bmod_add_bmod, List.map_cons, List.sum_cons,
        turnsAround, Int.add_comm]
    · rw [totalWaitingTime, settled.totalWaitingTime, intAdd, Int.bmod_add_bmod, List.map_cons, List.sum_cons, waits,
        Int.add_comm]
    · rw [totalResponseTime, settled.totalResponseTime, intAdd, Int.bmod_add_bmod, List.map_cons, List.sum_cons,
        responds, Int.add_comm]

/-- The accounts of a call that finishes no job. -/
theorem settled_of_moves {phase : Phase} {quantumClock : ℤ → ℤ} {jobsAlive : ℤ} (ledger : Ledger o lines s)
    (moves : Moves f) (changed : jobs' = s.jobs.map f) (totals : g'.totals = s.globals.totals) :
    ∃ gone, Settled lines { s with phase, jobs := jobs', globals := g', quantumClock, jobsAlive } gone := by
  obtain ⟨gone, settled⟩ := ledger.settled
  simp only [Globals.totals, Prod.mk.injEq] at totals
  obtain ⟨totalJobs, totalTurnaroundTime, totalWaitingTime, totalResponseTime⟩ := totals
  refine ⟨gone, ?_, settled.executes, totalJobs.trans settled.totalJobs,
    totalTurnaroundTime.trans settled.totalTurnaroundTime, totalWaitingTime.trans settled.totalWaitingTime,
    totalResponseTime.trans settled.totalResponseTime⟩
  refine List.Perm.trans ?_ settled.jobs
  rw [changed, List.map_append, map_key moves, List.map_append]

theorem expire {jobsAlive : ℤ} (ledger : Ledger o lines s) (inv : Inv o lines s) (scheme : o.scheme = .rr)
    (expired : s.quantumClock i = 0) (found : s.jobs[k]? = some job) (isCore : job.coreId = i)
    (running : s.globals.runningJobs job.coreId = some r)
    (next : NextJob s.time job.coreId (s.jobs.set k (job.setCore (-1)))
      ((s.globals.setRunning job.coreId none).offerJob { r with latestQueueTime := s.time }) jobs' g') :
    Ledger o lines { s with
      phase := .quantum (i + 1)
      jobs := jobs'
      globals := g'
      quantumClock := o.resetClock s.quantumClock job.coreId
      jobsAlive } := by
  have member := List.mem_of_getElem? found
  have onCore : job.coreId ≠ -1 := by omega
  obtain ⟨f, moves, _, _, changed⟩ := next.moves onCore
  have lose := (Moves.setCore (-1)).alter job.jobId
  have released : s.jobs.set k (job.setCore (-1)) = s.jobs.map (alter job.jobId (·.setCore (-1))) :=
    set_eq_alter (·.setCore (-1)) inv.agree.ids found
  rw [released, List.map_map] at changed
  obtain ⟨arrivals, latest⟩ := ledger.of_moves (lose.comp moves) (List.Subset.refl _) changed
  obtain ⟨_, hasCore, busy, r', running', runs⟩ := inv.agree.onCore job member onCore
  obtain rfl := Option.some.inj (running'.symm.trans running)
  have executes : executed r'.jobId s.snapshots ≠ [] := fun none => by
    rw [runs.jobId] at none
    have full := ledger.fullQuantum scheme job member onCore none
    have positive := o.quantumPos scheme
    rw [isCore] at full
    omega
  have opened : Opened lines s.snapshots (-1) r' :=
    (ledger.records.running job.coreId r' hasCore busy running).of_executed executes
  refine ⟨ledger.clock, arrivals, latest, fun scheme j inJobs isOn none => ?_, ?_,
    ledger.settled_of_moves (lose.comp moves) changed next.totals⟩
  · refine ledger.of_reset job.coreId (fun k kept onCore' => ?_) scheme inJobs isOn none
    refine (next.onCore kept).imp_right fun was => ?_
    rw [released] at was
    rcases mem_alter.mp was with ⟨k', _, _, rfl⟩ | ⟨old, _⟩
    · exact (onCore' rfl).elim
    · exact old
  · refine ((ledger.records.vacate job.coreId).offerJob (r := { r' with latestQueueTime := s.time }) ?_).next next
      fun r waiting => waiting.scheduled s.time
    exact ⟨opened.runningTime, opened.startTime⟩

/-- A job that arrives now has not executed. -/
theorem executed_nil (ledger : Ledger o lines s) (member : job ∈ s.jobs) (now : job.arrivalTime = s.time) :
    executed job.jobId s.snapshots = [] := by
  refine List.eq_nil_iff_forall_not_mem.mpr fun t executes => ?_
  have after := ledger.arrivals job member t executes
  have before := (executed_range executes).2
  have clock := ledger.clock
  omega

/-- A job that arrives now has all its units left. -/
theorem runTime_eq (ledger : Ledger o lines s) (inv : Inv o lines s) (member : job ∈ s.jobs)
    (now : job.arrivalTime = s.time) : job.runTime = runTimeOf lines job.jobId := by
  have units := inv.history.units job.jobId
  rw [unitsLeft_of_mem inv.agree.ids member,
    ← executed_length fun snapshot taken => (inv.exclusive snapshot taken).jobs job.jobId,
    ledger.executed_nil member now] at units
  exact (Int.add_zero _).symm.trans units

theorem arrive {coreId jobsAlive : ℤ} (ledger : Ledger o lines s) (inv : Inv o lines s)
    (found : s.jobs[i]? = some job) (now : job.arrivalTime = s.time) (notArrived : job.arrived = false)
    (new : NewJob s.time s.jobs s.globals job coreId jobs' g') : Ledger o lines { s with
      phase := .arrive (i + 1)
      jobs := jobs'
      globals := g'
      quantumClock := if coreId = -1 then s.quantumClock else o.resetClock s.quantumClock coreId
      jobsAlive } := by
  have member := List.mem_of_getElem? found
  obtain ⟨f, moves, _, changed⟩ := new.moves
  obtain ⟨arrivals, latest⟩ := ledger.of_moves moves (List.Subset.refl _) changed
  have none := ledger.executed_nil member now
  have runTime := ledger.runTime_eq inv member now
  have waits : Opened lines s.snapshots (-1)
      { newJob job.jobId job.priority s.time job.runTime with latestQueueTime := s.time } :=
    ⟨runTime, (congrArg (List.headD · (-1)) none).symm⟩
  have runs : Opened lines s.snapshots s.time ((newJob job.jobId job.priority s.time job.runTime).scheduled s.time) :=
    ⟨runTime, (congrArg (List.headD · s.time) none).symm⟩
  refine ⟨ledger.clock, arrivals, latest, fun scheme j inJobs isOn none => ?_, ?_,
    ledger.settled_of_moves moves changed new.totals⟩
  · have old (k : SimJob) (kept : k ∈ jobs') (onCore : k.coreId ≠ -1) : k.coreId = coreId ∨ k ∈ s.jobs :=
      new.onCore inv.agree member notArrived kept onCore
    by_cases waits : coreId = -1
    · change (if coreId = -1 then s.quantumClock else _) j.coreId = o.quantum
      rw [if_pos waits]
      exact ledger.fullQuantum scheme j ((old j inJobs isOn).resolve_left (waits ▸ isOn)) isOn none
    · change (if coreId = -1 then _ else o.resetClock s.quantumClock coreId) j.coreId = o.quantum
      rw [if_neg waits]
      exact ledger.of_reset coreId old scheme inJobs isOn none
  · exact ledger.records.new inv.agree new runs waits (fun r opened => ⟨opened.runningTime, opened.startTime⟩)
      fun r opened => opened.unscheduled ledger.clock

/-- A job that is gone executes no more. -/
theorem executed_gone (settled : Settled lines s gone) (member : j ∈ gone) :
    executed j.jobId (s.jobs :: s.snapshots) = executed j.jobId s.snapshots := by
  refine executed_cons_of_off fun k inJobs same => ?_
  have ids : ((gone ++ s.jobs).map SimJob.jobId).Perm ((loadJobs lines).map SimJob.jobId) := by
    have keys := settled.jobs.map Prod.fst
    rwa [List.map_map, List.map_map] at keys
  have once := ids.nodup_iff.mpr (loadJobs_nodup lines)
  rw [List.map_append] at once
  refine (List.disjoint_of_nodup_append once (List.mem_map_of_mem member) ?_).elim
  exact same ▸ List.mem_map_of_mem inJobs

/-- The units of a job decide what it adds to the totals. -/
theorem charges_congr {snapshots' : List (List SimJob)}
    (same : executed j.jobId snapshots' = executed j.jobId snapshots) :
    turnaround snapshots' j = turnaround snapshots j ∧ waited snapshots' j = waited snapshots j ∧
      response snapshots' j = response snapshots j := by
  simp only [turnaround, waited, response, completion, same, and_self]

theorem tick (ledger : Ledger o lines s) (inv : Inv o lines s) (here : s.phase = .run) :
    Ledger o lines { s with
      phase := .head
      jobs := s.jobs.map SimJob.worked
      quantumClock := tickClock s.jobs s.quantumClock
      time := s.time + 1
      snapshots := s.jobs :: s.snapshots } := by
  have entries := inv.entries
  rw [here] at entries
  have clock := ledger.clock
  have offCore {j : SimJob} (inJobs : j ∈ s.jobs) (off : j.coreId = -1) :
      executed j.jobId (s.jobs :: s.snapshots) = executed j.jobId s.snapshots := by
    refine executed_cons_of_off fun k inJobs' same => ?_
    rw [eq_of_jobId inv.agree.ids inJobs' inJobs same, off]
  have onCore {j : SimJob} (inJobs : j ∈ s.jobs) (isOn : j.coreId ≠ -1) :
      executed j.jobId (s.jobs :: s.snapshots) = executed j.jobId s.snapshots ++ [s.time] := by
    rw [executed_cons_of_onCore inJobs isOn, clock]
  refine ⟨?_, fun j' changed => ?_, fun j' changed zero => ?_, fun scheme j' changed isOn none => ?_, ?_, ?_⟩
  · rw [List.length_cons, Nat.cast_succ, clock]
  · obtain ⟨j, member, rfl⟩ := List.mem_map.mp changed
    obtain ⟨k, found⟩ := List.mem_iff_getElem?.mp member
    have times := j.worked_times.1
    rw [j.worked_jobId, times]
    intro t executes
    by_cases isOn : j.coreId = -1
    · rw [offCore member isOn] at executes
      exact ledger.arrivals j member t executes
    · rw [onCore member isOn, List.mem_append, List.mem_singleton] at executes
      rcases executes with before | rfl
      · exact ledger.arrivals j member t before
      · have arrived := (inv.agree.onCore j member isOn).1
        rcases (entries.arrivals k j found).mp arrived with early | ⟨now, _⟩
        · exact early.le
        · exact now.le
  · obtain ⟨j, member, rfl⟩ := List.mem_map.mp changed
    have positive := entries.positive (fun _ => id) member
    have isOn : j.coreId ≠ -1 := fun off => by
      rw [j.worked_times.2.2.1 off] at zero
      omega
    rw [j.worked_jobId, onCore member isOn, List.getLast?_concat]
    exact congrArg some (Int.add_sub_cancel s.time 1).symm
  · obtain ⟨j, member, rfl⟩ := List.mem_map.mp changed
    rw [j.worked_jobId, j.worked_coreId] at *
    rw [onCore member isOn] at none
    exact (List.append_ne_nil_of_right_ne_nil _ (List.cons_ne_nil _ _) none).elim
  · refine ledger.records.imp (fun c r hasCore busy running opened => ?_) fun r inQueue opened => ?_
    · obtain ⟨j, member, rfl⟩ := inv.agree.busy c hasCore busy nofun
      have isOn : j.coreId ≠ -1 := by
        have nonneg := hasCore.1
        omega
      obtain ⟨_, _, _, r', running', runs⟩ := inv.agree.onCore j member isOn
      obtain rfl := Option.some.inj (running'.symm.trans running)
      refine ⟨opened.runningTime, ?_⟩
      have start := opened.startTime
      rw [runs.jobId] at start ⊢
      rw [onCore member isOn, start]
      cases executed j.jobId s.snapshots <;> rfl
    · obtain ⟨j, member, _, off, waits⟩ := inv.agree.queued r inQueue
      refine ⟨opened.runningTime, ?_⟩
      rw [opened.startTime, waits.jobId, offCore member off]
  · obtain ⟨gone, settled⟩ := ledger.settled
    have same {j : SimJob} (member : j ∈ gone) := charges_congr (executed_gone settled member)
    refine ⟨gone, ?_, fun j member => ?_, settled.totalJobs, ?_, ?_, ?_⟩
    · refine List.Perm.trans (List.Perm.of_eq ?_) settled.jobs
      rw [List.map_append, List.map_append, List.map_map]
      refine congrArg _ (List.map_congr_left fun j _ => ?_)
      rw [Function.comp_apply, j.worked_jobId, j.worked_times.1]
    · rw [executed_gone settled member]
      exact settled.executes j member
    · rw [settled.totalTurnaroundTime, List.map_congr_left fun j member => (same member).1]
    · rw [settled.totalWaitingTime, List.map_congr_left fun j member => (same member).2.1]
    · rw [settled.totalResponseTime, List.map_congr_left fun j member => (same member).2.2]

/-- A transition keeps the accounts. -/
theorem transition (ledger : Ledger o lines s) (inv : Inv o lines s) (taken : Transition o s message s') :
    Ledger o lines s' := by
  cases taken with
  | move => exact ledger.move _
  | finish _ found finished onCore running _ next => exact ledger.finish inv found finished onCore running next
  | expire here more expired found isCore running _ next =>
    exact ledger.expire inv more.1 expired found isCore running next
  | arrive here found now notArrived new => exact ledger.arrive inv found now notArrived new
  | run here => exact ledger.tick inv here

theorem initial (malloc : Malloc) (o : Options) (valid : ∀ line ∈ lines, line.Valid) :
    Ledger o lines (initial o malloc lines) := by
  have inv := Inv.initial malloc o valid
  obtain ⟨_, queue, _⟩ := schedulerStartUp_spec malloc o.cores o.scheme
  refine ⟨rfl, fun _ _ _ => nofun, fun j member zero => ?_, fun _ j member onCore => ?_, ⟨?_, ?_⟩, [], ?_⟩
  · obtain ⟨_, _, line, inLines, _, runTime, _⟩ := mem_loadJobs member
    have positive := (valid line inLines).2
    omega
  · exact (onCore (mem_loadJobs member).1).elim
  · intro c r hasCore busy
    obtain ⟨j, member, here⟩ := inv.agree.busy c hasCore busy nofun
    have nonneg := hasCore.1
    have off := (mem_loadJobs member).1
    omega
  · exact fun r inQueue => (List.not_mem_nil (queue ▸ inQueue)).elim
  · have totals : (schedulerStartUp malloc o.cores o.scheme).totals = (0, 0, 0, 0) :=
      foldl_offerCore_totals (List.range o.cores) _
    simp only [Globals.totals, Prod.mk.injEq] at totals
    obtain ⟨totalJobs, totalTurnaroundTime, totalWaitingTime, totalResponseTime⟩ := totals
    exact ⟨List.Perm.refl _, nofun, totalJobs, totalTurnaroundTime, totalWaitingTime, totalResponseTime⟩

end Ledger

end OsLabs.Scheduler
