import OsLabs.Proofs.Scheduler.Accounting
import OsLabs.Proofs.Scheduler.Fifo
import OsLabs.Proofs.Scheduler.Stints

/-! # The order of the non-preemptive schemes

Without preemption a record waits as it was made, so the queue is a stable priority queue under a key
of the job's line in the file. Under first come first served it is first in, first out as well, and so
no job executes before one that arrived earlier.
-/

namespace OsLabs.Scheduler

open Globals StableInsert Priqueue DeterministicRun

variable {o : Options} {lines : List JobLine} {s s' : Sim} {message : Option Message} {output later : Output}
  {j job : SimJob} {r r' : JobT} {scheme : Scheme}

/-! ## Keys -/

/-- The line of a job in the file. -/
def lineOf (lines : List JobLine) (jobId : ℤ) : JobLine := lines.getD jobId.toNat ⟨0, 0, 0⟩

/-- What waiting jobs are ordered by. -/
def JobLine.key (line : JobLine) : Scheme → ℤ ×ₗ ℤ
  | .fcfs | .rr => toLex (line.arrivalTime, 0)
  | .sjf | .psjf => toLex (line.runTime, line.arrivalTime)
  | .pri | .ppri => toLex (line.priority, line.arrivalTime)

/-- A job is to be dispatched before another. -/
def Precedes (scheme : Scheme) (lines : List JobLine) (jobId jobId' : ℤ) : Prop :=
  (lineOf lines jobId).key scheme < (lineOf lines jobId').key scheme

instance (scheme : Scheme) (lines : List JobLine) : DecidableRel (Precedes scheme lines) :=
  fun _ _ => inferInstanceAs (Decidable (_ < _))

instance (scheme : Scheme) (lines : List JobLine) : IsStrictWeakOrder ℤ (Precedes scheme lines) :=
  isStrictWeakOrder_key fun jobId => (lineOf lines jobId).key scheme

theorem lineOf_jobId (member : j ∈ loadJobs lines) :
    lineOf lines j.jobId = ⟨j.arrivalTime, j.runTime, j.priority⟩ := by
  obtain ⟨k, found⟩ := List.mem_iff_getElem?.mp member
  rw [loadJobs_getElem?] at found
  obtain ⟨line, inLines, rfl⟩ := Option.map_eq_some_iff.mp found
  rw [lineOf, Int.toNat_natCast, List.getD_eq_getElem?_getD, inLines]
  rfl

/-- The record of a job that waits since it arrived. -/
structure Untouched (j : SimJob) (r : JobT) : Prop extends Record j r where
  remainingTime : r.remainingTime = j.runTime
  latestQueueTime : r.latestQueueTime = j.arrivalTime

/-- The record waits as it was made from a line of the file. -/
def Lined (lines : List JobLine) (r : JobT) : Prop := ∃ j ∈ loadJobs lines, Untouched j r

/-- First come first served, shortest job first, or by priority. -/
def NonPreemptive (scheme : Scheme) : Prop := scheme = .fcfs ∨ scheme = .sjf ∨ scheme = .pri

instance : DecidablePred NonPreemptive := fun _ => inferInstanceAs (Decidable (_ ∨ _))

theorem NonPreemptive.patient (nonPreemptive : NonPreemptive scheme) : scheme.preempts = false := by
  obtain rfl | rfl | rfl := nonPreemptive <;> rfl

theorem NonPreemptive.ne_rr (nonPreemptive : NonPreemptive scheme) : scheme ≠ .rr := by
  rintro rfl
  exact absurd nonPreemptive (by decide)

/-- The comparers compare the keys of the lines. -/
theorem Lined.compares (nonPreemptive : NonPreemptive scheme) (fits : Fits scheme (loadJobs lines))
    (lined : Lined lines r) (lined' : Lined lines r') :
    Less scheme.comparer r r' ↔ Precedes scheme lines r.jobId r'.jobId := by
  obtain ⟨j, loaded, untouched⟩ := lined
  obtain ⟨j', loaded', untouched'⟩ := lined'
  rw [Less, Precedes, untouched.jobId, untouched'.jobId, lineOf_jobId loaded, lineOf_jobId loaded']
  obtain rfl | rfl | rfl := nonPreemptive
  · change jobCompareFcfs r r' < 0 ↔ toLex (j.arrivalTime, (0 : ℤ)) < toLex (j'.arrivalTime, 0)
    rw [jobCompareFcfs, untouched.latestQueueTime, untouched'.latestQueueTime, Prod.Lex.toLex_lt_toLex]
    split <;> omega
  · have compared := (lexSub_iff r.remainingTime r.arrivalTime r'.remainingTime r'.arrivalTime).1
    rw [untouched.remainingTime, untouched'.remainingTime, untouched.arrivalTime, untouched'.arrivalTime] at compared
    change jobCompareSjf r r' < 0 ↔ _
    rw [jobCompareSjf, untouched.remainingTime, untouched'.remainingTime, untouched.arrivalTime,
      untouched'.arrivalTime]
    exact compared
  · have compared := (lexSub_iff r.priority r.arrivalTime r'.priority r'.arrivalTime).1
    have difference : intSub r.priority r'.priority = r.priority - r'.priority := by
      rw [untouched.priority, untouched'.priority]
      exact intSub_eq (fits rfl j loaded j' loaded')
    rw [← difference, untouched.priority, untouched'.priority, untouched.arrivalTime,
      untouched'.arrivalTime] at compared
    change jobComparePri r r' < 0 ↔ _
    rw [jobComparePri, untouched.priority, untouched'.priority, untouched.arrivalTime, untouched'.arrivalTime]
    exact compared

/-! ## The queue -/

/-- A job that arrives now makes a record of its line. -/
theorem Ledger.lined (ledger : Ledger o lines s) (inv : Inv o lines s) (member : job ∈ s.jobs)
    (now : job.arrivalTime = s.time) :
    Lined lines { newJob job.jobId job.priority s.time job.runTime with latestQueueTime := s.time } := by
  obtain ⟨j, loaded, sameId, sameArrival, samePriority⟩ := inv.history.loaded job member
  refine ⟨j, loaded, ⟨sameId.symm, samePriority.symm, ?_⟩, ?_, ?_⟩
  · exact now.symm.trans sameArrival.symm
  · change job.runTime = j.runTime
    rw [ledger.runTime_eq inv member now, runTimeOf, ← sameId, unitsLeft_of_mem (loadJobs_nodup lines) loaded]
  · exact now.symm.trans sameArrival.symm

theorem waitingJobs_after (output : Output) (time : ℤ) (message : Option Message) :
    waitingJobs (output.after time message) = (waitingJobs output ++ message.toList.flatMap Message.put).diff
      (message.toList.flatMap Message.taken) := by
  cases message with
  | none => simp [waitingJobs, Output.after]
  | some message => simp [waitingJobs, Output.after]

/-- The records that wait are those of the lines, in a stable priority queue. -/
structure StablyQueued (o : Options) (lines : List JobLine) (s : Sim) (output : Output) : Prop where
  lined : ∀ r ∈ s.globals.queue, Lined lines r
  stable : Stable (Precedes o.scheme lines) s.globals.queueIds (waitingJobs output)

theorem StablyQueued.transition (queued : StablyQueued o lines s output) (ledger : Ledger o lines s)
    (inv : Inv o lines s) (nonPreemptive : NonPreemptive o.scheme) (fits : Fits o.scheme (loadJobs lines))
    (taken : Transition o s message s') :
    StablyQueued o lines s' (output.after s.time message) ∧ ∀ jobId ∈ message.toList.flatMap Message.taken,
      First (Precedes o.scheme lines) jobId (waitingJobs output ++ message.toList.flatMap Message.put) := by
  obtain ⟨entered, gone, step, enters⟩ := taken.queue (Lined lines) inv nonPreemptive.patient
    (fun job member now _ => ledger.lined inv member now) (fun scheme => (nonPreemptive.ne_rr scheme).elim)
  obtain ⟨first, stable⟩ := step.stable (fun r isEntered r' inQueue => by
    rw [inv.fixed.comparer]
    exact (enters r isEntered).compares nonPreemptive fits (queued.lined r' inQueue)) queued.stable
  exact ⟨⟨step.waiting enters queued.lined, waitingJobs_after .. ▸ stable⟩, first⟩

/-! ## Cores -/

/-- A job is on a core, or it has finished there. -/
def KeepsCore (jobId coreId : ℤ) (s : Sim) (output : Output) : Prop :=
  (∃ j ∈ s.jobs, j.jobId = jobId ∧ j.coreId = coreId) ∨
    ∃ time newJobId, (time, .finished jobId coreId newJobId) ∈ output

theorem keepsCore_run (nonPreemptive : NonPreemptive o.scheme) (inv : Inv o lines s) (member : j ∈ s.jobs)
    (onCore : j.coreId ≠ -1) (output : Output) (n : ℕ) :
    ∃ s' later, run (tracedStep o) n (s, output) = .ok (s', output ++ later) ∧
      KeepsCore j.jobId j.coreId s' later := by
  obtain ⟨s', output', ran, _, later, rfl, keeps⟩ := traced_run (P := fun s' output' =>
    ∃ later, output' = output ++ later ∧ KeepsCore j.jobId j.coreId s' later)
    (fun s₁ output₁ message s₂ inv₁ holds transition => by
      obtain ⟨later, rfl, keeps⟩ := holds
      refine ⟨later ++ message.toList.map (s₁.time, ·), List.append_assoc .., ?_⟩
      rcases keeps with ⟨job, member, isJob, isCore⟩ | ⟨time, newJobId, finished⟩
      · have fate := transition.fate inv₁ nonPreemptive.patient member (isCore ▸ onCore)
        rw [← isJob, ← isCore]
        cases fate with
        | finishes => exact .inr ⟨s₁.time, _, List.mem_append_right _ (List.mem_singleton_self _)⟩
        | expires scheme => exact (nonPreemptive.ne_rr scheme).elim
        | stays _ member => exact .inl ⟨job, member, rfl, rfl⟩
        | works _ member => exact .inl ⟨job.worked, member, job.worked_jobId, job.worked_coreId⟩
      · exact .inr ⟨time, newJobId, List.mem_append_left _ finished⟩)
    inv ⟨[], (List.append_nil output).symm, .inl ⟨j, member, rfl, rfl⟩⟩ n
  exact ⟨s', later, ran, keeps⟩

/-! ## First come, first served -/

theorem arrivalLog_after (output : Output) (time : ℤ) (message : Option Message) :
    arrivalLog (output.after time message) = arrivalLog output ++ message.toList.flatMap Message.arrivals := by
  rw [arrivalLog, Output.after, List.flatMap_append, List.flatMap_map]
  rfl

theorem dispatchLog_after (output : Output) (time : ℤ) (message : Option Message) :
    dispatchLog (output.after time message) =
      dispatchLog output ++ message.toList.flatMap Message.dispatched := by
  rw [dispatchLog, Output.after, List.flatMap_append, List.flatMap_map]
  rfl

/-- Jobs that arrive come last, jobs that get a core were first. -/
theorem Transition.arrivals (transition : Transition o s message s') (inv : Inv o lines s)
    (scheme : o.scheme = .fcfs) (before : QueuedBefore s) :
    s.globals.queueIds ++ message.toList.flatMap Message.arrivals =
      message.toList.flatMap Message.dispatched ++ s'.globals.queueIds := by
  have moved := (transition.fifo inv ⟨scheme ▸ rfl, scheme ▸ rfl⟩ before).2
  cases transition with
  | move => exact moved
  | finish => exact moved
  | expire _ more => exact nomatch scheme.symm.trans more.1
  | run => exact moved
  | @arrive i job coreId jobs' g' here found now notArrived new =>
    simp only [Option.toList_some, List.flatMap_singleton, Message.put, Message.taken, Message.arrivals,
      Message.dispatched] at moved ⊢
    by_cases waits : coreId = -1
    · rw [if_pos waits] at moved ⊢
      exact moved
    · cases new with
      | idle head =>
        have noQueue : s.globals.queue = [] :=
          inv.conserving.resolve_right fun none => List.cons_ne_nil _ _ (head.symm.trans none)
        rw [if_neg waits] at moved ⊢
        rw [List.append_nil, List.nil_append] at moved
        rw [← moved, queueIds, noQueue]
        rfl
      | preempt _ preempts => exact (inv.notPreempts (scheme ▸ rfl) preempts).elim
      | wait => exact (waits rfl).elim

/-- A job on a core was on one before, or the message put it there. -/
theorem Transition.onCore (transition : Transition o s message s') (inv : Inv o lines s)
    (nonPreemptive : NonPreemptive o.scheme) (member : j ∈ s'.jobs) (onCore : j.coreId ≠ -1) :
    (∃ j₀ ∈ s.jobs, j₀.jobId = j.jobId ∧ j₀.coreId ≠ -1) ∨
      j.jobId ∈ message.toList.flatMap Message.dispatched := by
  cases transition with
  | move => exact .inl ⟨j, member, rfl, onCore⟩
  | @finish i job r newJobId jobs' g' here found finished isOn running called next =>
    obtain ⟨_, hasCore, _⟩ := inv.agree.onCore job (List.mem_of_getElem? found) isOn
    have old {k : SimJob} (kept : k ∈ deleteJob s.jobs i) : k ∈ s.jobs :=
      (deleteJob_perm found).mem_iff.mpr (List.mem_cons_of_mem _ kept)
    cases next with
    | idle => exact .inl ⟨j, old member, rfl, onCore⟩
    | @dispatch r' rest job' head kept _ _ waits =>
      rw [scheduleNextJob_cons (g := s.globals.finished job.coreId r s.time) hasCore head] at called
      obtain rfl : r'.jobId = newJobId := (Prod.mk.inj (Option.some.inj called)).2
      rcases mem_alter.mp member with ⟨k, _, same, rfl⟩ | ⟨stays, _⟩
      · refine .inr (List.mem_flatMap.mpr ⟨_, List.mem_singleton_self _, mem_dispatched_iff.mpr ⟨?_, ?_⟩⟩)
        · intro minus
          exact inv.agree.named (minus ▸ waits.jobId ▸ List.mem_map_of_mem (old kept))
        · exact same.trans waits.jobId.symm
      · exact .inl ⟨j, old stays, rfl, onCore⟩
  | expire _ more => exact (nonPreemptive.ne_rr more.1).elim
  | @arrive i job coreId jobs' g' here found now notArrived new =>
    have inJobs := List.mem_of_getElem? found
    cases new with
    | idle =>
      rcases mem_alter.mp member with ⟨k, _, same, rfl⟩ | ⟨stays, _⟩
      · refine .inr (List.mem_flatMap.mpr ⟨_, List.mem_singleton_self _, ?_⟩)
        change k.jobId ∈ if coreId = -1 then [] else [job.jobId]
        rw [if_neg (show coreId ≠ -1 from onCore), same]
        exact List.mem_singleton_self _
      · exact .inl ⟨j, stays, rfl, onCore⟩
    | preempt _ preempts => exact (inv.notPreempts nonPreemptive.patient preempts).elim
    | wait =>
      rcases mem_alter.mp member with ⟨k, was, _, rfl⟩ | ⟨stays, _⟩
      · exact .inl ⟨k, was, rfl, onCore⟩
      · exact .inl ⟨j, stays, rfl, onCore⟩
  | run =>
    obtain ⟨k, was, rfl⟩ := List.mem_map.mp member
    exact .inl ⟨k, was, k.worked_jobId.symm, k.worked_coreId ▸ onCore⟩

/-- A job on a core stays on one, or it has executed. -/
theorem Transition.stillOnCore (transition : Transition o s message s') (ledger : Ledger o lines s)
    (inv : Inv o lines s) (nonPreemptive : NonPreemptive o.scheme) (member : j ∈ s.jobs)
    (onCore : j.coreId ≠ -1) :
    executed j.jobId s.snapshots ≠ [] ∨ ∃ j' ∈ s'.jobs, j'.jobId = j.jobId ∧ j'.coreId ≠ -1 := by
  have fate := transition.fate inv nonPreemptive.patient member onCore
  cases fate with
  | finishes finished =>
    refine .inl fun none => ?_
    have latest := ledger.latest j member finished
    rw [none] at latest
    cases latest
  | expires scheme => exact (nonPreemptive.ne_rr scheme).elim
  | stays _ member => exact .inr ⟨j, member, rfl, onCore⟩
  | works _ member => exact .inr ⟨j.worked, member, j.worked_jobId, j.worked_coreId.symm ▸ onCore⟩

/-- A job that arrives with a message arrives now, and has not executed. -/
theorem Transition.arriving {jobId : ℤ} (transition : Transition o s message s') (ledger : Ledger o lines s)
    (inv : Inv o lines s) (arrives : jobId ∈ message.toList.flatMap Message.arrivals) :
    executed jobId s.snapshots = [] ∧ (lineOf lines jobId).arrivalTime = s.time := by
  cases transition with
  | move => cases arrives
  | finish => cases arrives
  | expire => cases arrives
  | run => cases arrives
  | @arrive i job coreId jobs' g' here found now =>
    obtain rfl : jobId = job.jobId := List.mem_singleton.mp arrives
    have member := List.mem_of_getElem? found
    obtain ⟨j, loaded, sameId, sameArrival, _⟩ := inv.history.loaded job member
    refine ⟨ledger.executed_nil member now, ?_⟩
    rw [← sameId, lineOf_jobId loaded]
    exact sameArrival.trans now

/-- One job executes first no later than another. -/
def StartsBefore (snapshots : List (List SimJob)) (jobId jobId' : ℤ) : Prop :=
  ∀ t ∈ executed jobId' snapshots, ∃ t' ∈ executed jobId snapshots, t' ≤ t

/-- The jobs that arrived were dispatched in their order or wait, and executed in this order. -/
structure InOrder (lines : List JobLine) (s : Sim) (output : Output) : Prop where
  fifo : arrivalLog output = dispatchLog output ++ s.globals.queueIds
  before : QueuedBefore s
  unstarted : ∀ jobId ∈ s.globals.queueIds, executed jobId s.snapshots = []
  running : ∀ j ∈ s.jobs, j.coreId ≠ -1 → j.jobId ∈ dispatchLog output
  dispatched : ∀ jobId ∈ dispatchLog output,
    executed jobId s.snapshots ≠ [] ∨ ∃ j ∈ s.jobs, j.jobId = jobId ∧ j.coreId ≠ -1
  started : ∀ jobId, executed jobId s.snapshots ≠ [] → jobId ∈ dispatchLog output
  starts : (dispatchLog output).Pairwise (StartsBefore s.snapshots)
  past : ∀ jobId ∈ arrivalLog output, (lineOf lines jobId).arrivalTime ≤ s.time
  increasing : (arrivalLog output).Pairwise fun jobId jobId' =>
    (lineOf lines jobId).arrivalTime ≤ (lineOf lines jobId').arrivalTime

namespace InOrder

/-- A step that runs no time unit. -/
theorem call (inOrder : InOrder lines s output) (ledger : Ledger o lines s) (inv : Inv o lines s)
    (scheme : o.scheme = .fcfs) (taken : Transition o s message s') (snapshots : s'.snapshots = s.snapshots)
    (time : s'.time = s.time) : InOrder lines s' (output.after s.time message) := by
  have nonPreemptive : NonPreemptive o.scheme := .inl scheme
  have moved := taken.arrivals inv scheme inOrder.before
  have fresh {jobId : ℤ} (waits : jobId ∈ s.globals.queueIds ++ message.toList.flatMap Message.arrivals) :
      executed jobId s.snapshots = [] := by
    rcases List.mem_append.mp waits with inQueue | arrives
    · exact inOrder.unstarted jobId inQueue
    · exact (taken.arriving ledger inv arrives).1
  constructor
  · rw [arrivalLog_after, dispatchLog_after, inOrder.fifo, List.append_assoc, moved, List.append_assoc]
  · exact (taken.fifo inv ⟨scheme ▸ rfl, scheme ▸ rfl⟩ inOrder.before).1
  · intro jobId inQueue
    rw [snapshots]
    exact fresh (moved ▸ List.mem_append_right _ inQueue)
  · intro j member onCore
    rw [dispatchLog_after]
    rcases taken.onCore inv nonPreemptive member onCore with ⟨j₀, was, same, wasOn⟩ | now
    · exact List.mem_append_left _ (same ▸ inOrder.running j₀ was wasOn)
    · exact List.mem_append_right _ now
  · intro jobId member
    rw [dispatchLog_after] at member
    rw [snapshots]
    rcases List.mem_append.mp member with old | now
    · rcases inOrder.dispatched jobId old with executes | ⟨j, was, rfl, wasOn⟩
      · exact .inl executes
      · exact taken.stillOnCore ledger inv nonPreemptive was wasOn
    · obtain ⟨m, isMessage, named⟩ := List.mem_flatMap.mp now
      obtain rfl := Option.mem_toList.mp isMessage
      obtain ⟨j, dispatched, same⟩ := taken.dispatched inv nonPreemptive.patient named
      exact .inr ⟨j, dispatched.member, same, dispatched.here ▸ dispatched.onCore⟩
  · intro jobId executes
    rw [dispatchLog_after]
    exact List.mem_append_left _ (inOrder.started jobId (snapshots ▸ executes))
  · rw [dispatchLog_after, snapshots]
    have none {jobId : ℤ} (now : jobId ∈ message.toList.flatMap Message.dispatched) :
        executed jobId s.snapshots = [] := fresh (moved ▸ List.mem_append_left _ now)
    have first (jobId : ℤ) {jobId' : ℤ} (now : jobId' ∈ message.toList.flatMap Message.dispatched) :
        StartsBefore s.snapshots jobId jobId' := fun t executes =>
      (List.not_mem_nil (none now ▸ executes)).elim
    refine List.pairwise_append.mpr ⟨inOrder.starts, ?_, fun jobId _ jobId' now => first jobId now⟩
    exact List.pairwise_of_forall_mem_list fun jobId _ jobId' now => first jobId now
  · intro jobId member
    rw [arrivalLog_after] at member
    rw [time]
    rcases List.mem_append.mp member with old | now
    · exact inOrder.past jobId old
    · exact (taken.arriving ledger inv now).2.le
  · rw [arrivalLog_after]
    refine List.pairwise_append.mpr ⟨inOrder.increasing, ?_, fun jobId old jobId' now => ?_⟩
    · refine List.pairwise_of_forall_mem_list fun jobId now jobId' now' => ?_
      rw [(taken.arriving ledger inv now).2, (taken.arriving ledger inv now').2]
    · rw [(taken.arriving ledger inv now).2]
      exact inOrder.past jobId old

/-- A time unit. A job that executes first in it was dispatched after those before it in the log. -/
theorem tick (inOrder : InOrder lines s output) (inv : Inv o lines s) :
    InOrder lines { s with
      phase := .head
      jobs := s.jobs.map SimJob.worked
      quantumClock := tickClock s.jobs s.quantumClock
      time := s.time + 1
      snapshots := s.jobs :: s.snapshots } output := by
  have grows {jobId t : ℤ} (executes : t ∈ executed jobId s.snapshots) :
      t ∈ executed jobId (s.jobs :: s.snapshots) := mem_executed_cons.mpr (.inl executes)
  have works {j : SimJob} (member : j ∈ s.jobs) (onCore : j.coreId ≠ -1) :
      (s.snapshots.length : ℤ) ∈ executed j.jobId (s.jobs :: s.snapshots) :=
    mem_executed_cons.mpr (.inr ⟨rfl, j, member, rfl, onCore⟩)
  constructor
  · exact inOrder.fifo
  · exact fun r inQueue => (inOrder.before r inQueue).trans (Int.lt_succ s.time).le
  · intro jobId inQueue
    have none := inOrder.unstarted jobId inQueue
    refine List.eq_nil_iff_forall_not_mem.mpr fun t executes => ?_
    rcases mem_executed_cons.mp executes with old | ⟨_, j, member, rfl, onCore⟩
    · exact List.not_mem_nil (none ▸ old)
    · exact inv.notQueued member onCore inQueue
  · intro j' changed onCore
    obtain ⟨j, member, rfl⟩ := List.mem_map.mp changed
    rw [j.worked_jobId]
    exact inOrder.running j member (j.worked_coreId ▸ onCore)
  · intro jobId member
    rcases inOrder.dispatched jobId member with executes | ⟨j, inJobs, rfl, onCore⟩
    · obtain ⟨t, executes⟩ := List.exists_mem_of_ne_nil _ executes
      exact .inl (List.ne_nil_of_mem (grows executes))
    · exact .inl (List.ne_nil_of_mem (works inJobs onCore))
  · intro jobId executes
    obtain ⟨t, executes⟩ := List.exists_mem_of_ne_nil _ executes
    rcases mem_executed_cons.mp executes with old | ⟨_, j, member, rfl, onCore⟩
    · exact inOrder.started jobId (List.ne_nil_of_mem old)
    · exact inOrder.running j member onCore
  · refine inOrder.starts.imp_of_mem fun {jobId jobId'} member _ starts t executes => ?_
    rcases mem_executed_cons.mp executes with old | ⟨rfl, _⟩
    · obtain ⟨t', executes', le⟩ := starts t old
      exact ⟨t', grows executes', le⟩
    · rcases inOrder.dispatched jobId member with executes' | ⟨j, inJobs, rfl, onCore⟩
      · obtain ⟨t', executes'⟩ := List.exists_mem_of_ne_nil _ executes'
        have earlier := (executed_range executes').2
        exact ⟨t', grows executes', by omega⟩
      · exact ⟨s.snapshots.length, works inJobs onCore, le_rfl⟩
  · exact fun jobId member => (inOrder.past jobId member).trans (Int.lt_succ s.time).le
  · exact inOrder.increasing

theorem transition (inOrder : InOrder lines s output) (ledger : Ledger o lines s) (inv : Inv o lines s)
    (scheme : o.scheme = .fcfs) (taken : Transition o s message s') :
    InOrder lines s' (output.after s.time message) := by
  cases taken with
  | move move => exact inOrder.call ledger inv scheme (.move move) rfl rfl
  | finish here found finished onCore running called next agree conserving =>
    exact inOrder.call ledger inv scheme
      (.finish here found finished onCore running called next agree conserving) rfl rfl
  | expire _ more => exact nomatch scheme.symm.trans more.1
  | arrive here found now notArrived new agree conserving =>
    exact inOrder.call ledger inv scheme (.arrive here found now notArrived new agree conserving) rfl rfl
  | run =>
    rw [Output.after_none]
    exact inOrder.tick inv

theorem initial (malloc : Malloc) (o : Options) (lines : List JobLine) :
    InOrder lines (initial o malloc lines) [] := by
  have empty : (Scheduler.initial o malloc lines).globals.queue = [] :=
    (schedulerStartUp_spec malloc o.cores o.scheme).2.1
  constructor
  · rw [queueIds, empty]
    rfl
  · exact fun r inQueue => (List.not_mem_nil (empty ▸ inQueue)).elim
  · exact fun _ _ => rfl
  · exact fun j member onCore => (onCore (mem_loadJobs member).1).elim
  · exact fun _ member => (List.not_mem_nil member).elim
  · exact fun _ executes => (executes rfl).elim
  · exact List.Pairwise.nil
  · exact fun _ member => (List.not_mem_nil member).elim
  · exact List.Pairwise.nil

/-- Jobs start in the order of their arrivals. -/
theorem arrivals (inOrder : InOrder lines s output) : (arrivalLog output).Pairwise (StartsBefore s.snapshots) := by
  have last (jobId : ℤ) {jobId' : ℤ} (inQueue : jobId' ∈ s.globals.queueIds) :
      StartsBefore s.snapshots jobId jobId' := fun t executes =>
    (List.not_mem_nil (inOrder.unstarted jobId' inQueue ▸ executes)).elim
  rw [inOrder.fifo]
  refine List.pairwise_append.mpr ⟨inOrder.starts, ?_, fun jobId _ jobId' inQueue => last jobId inQueue⟩
  exact List.pairwise_of_forall_mem_list fun jobId _ jobId' inQueue => last jobId inQueue

/-- A job whose arrival time is past is in the log. -/
theorem arrived (inOrder : InOrder lines s output) (ledger : Ledger o lines s) (inv : Inv o lines s)
    (loaded : j ∈ loadJobs lines) (past : j.arrivalTime < s.time) : j.jobId ∈ arrivalLog output := by
  rw [inOrder.fifo]
  obtain ⟨gone, settled⟩ := ledger.settled
  obtain ⟨k, member, same⟩ := List.mem_map.mp
    (settled.jobs.mem_iff.mpr (List.mem_map_of_mem (f := fun j => (j.jobId, j.arrivalTime)) loaded))
  obtain ⟨sameId, sameArrival⟩ := Prod.mk.inj same
  rw [← sameId]
  rcases List.mem_append.mp member with isGone | inJobs
  · exact List.mem_append_left _ (inOrder.started k.jobId (settled.executes k isGone))
  · obtain ⟨i, found⟩ := List.mem_iff_getElem?.mp inJobs
    have isArrived : k.arrived = true := (inv.entries.arrivals i k found).mpr (.inl (sameArrival ▸ past))
    by_cases off : k.coreId = -1
    · obtain ⟨r, inQueue, isJob⟩ := inv.agree.waiting k inJobs isArrived off nofun
      exact List.mem_append_right _ (isJob ▸ List.mem_map_of_mem inQueue)
    · exact List.mem_append_left _ (inOrder.running k inJobs off)

/-- A job with an earlier arrival time starts no later. -/
theorem arrivalTimes {j' : SimJob} (inOrder : InOrder lines s output) (ledger : Ledger o lines s)
    (inv : Inv o lines s) (loaded : j ∈ loadJobs lines) (loaded' : j' ∈ loadJobs lines)
    (earlier : j.arrivalTime < j'.arrivalTime) : StartsBefore s.snapshots j.jobId j'.jobId := by
  intro t executes
  have second : j'.jobId ∈ arrivalLog output := by
    rw [inOrder.fifo]
    exact List.mem_append_left _ (inOrder.started j'.jobId (List.ne_nil_of_mem executes))
  have past := inOrder.past j'.jobId second
  rw [lineOf_jobId loaded'] at past
  have first := inOrder.arrived ledger inv loaded (earlier.trans_le past)
  obtain ⟨i, inside, isFirst⟩ := List.mem_iff_getElem.mp first
  obtain ⟨k, inside', isSecond⟩ := List.mem_iff_getElem.mp second
  rcases Nat.lt_trichotomy i k with before | same | after
  · have starts := List.pairwise_iff_getElem.mp inOrder.arrivals i k inside inside' before
    rw [isFirst, isSecond] at starts
    exact starts t executes
  · subst same
    obtain rfl := eq_of_jobId (loadJobs_nodup lines) loaded loaded' (isFirst.symm.trans isSecond)
    exact (lt_irrefl _ earlier).elim
  · have le := List.pairwise_iff_getElem.mp inOrder.increasing k i inside' inside after
    rw [isFirst, isSecond, lineOf_jobId loaded, lineOf_jobId loaded'] at le
    exact (not_lt.mpr le earlier).elim

end InOrder

end OsLabs.Scheduler
