import OsLabs.Proofs.Scheduler.Traces
import OsLabs.Proofs.Scheduler.Waiting

/-! # First in, first out

Under round robin and first come first served the queue is ordered by queue times, which only grow. So
what waited and what was put comes out in this order along every run.
-/

namespace OsLabs.Scheduler

open Globals DeterministicRun

variable {o : Options} {lines : List JobLine} {s s' : Sim} {message : Option Message} {j : SimJob}

/-! ## Logs -/

theorem putLog_append (output later : Output) : putLog (output ++ later) = putLog output ++ putLog later :=
  List.flatMap_append ..

theorem takenLog_append (output later : Output) :
    takenLog (output ++ later) = takenLog output ++ takenLog later := List.flatMap_append ..

theorem putLog_message (time : ℤ) (message : Option Message) :
    putLog (message.toList.map (time, ·)) = message.toList.flatMap Message.put := List.flatMap_map ..

theorem takenLog_message (time : ℤ) (message : Option Message) :
    takenLog (message.toList.map (time, ·)) = message.toList.flatMap Message.taken := List.flatMap_map ..

theorem Transition.time_le (transition : Transition o s message s') : s.time ≤ s'.time := by
  cases transition with
  | run => exact (Int.lt_succ s.time).le
  | _ => exact le_rfl

/-! ## The queue -/

/-- No record in the queue has a queue time that is still to come. -/
def QueuedBefore (s : Sim) : Prop := ∀ r ∈ s.globals.queue, r.latestQueueTime ≤ s.time

/-- The scheme compares queue times. -/
structure ByQueueTime (o : Options) : Prop where
  patient : o.scheme.preempts = false
  comparer : o.scheme.comparer = jobCompareFcfs

/-- What a step puts into the queue comes last, what it takes was first. -/
theorem Transition.fifo (transition : Transition o s message s') (inv : Inv o lines s) (scheme : ByQueueTime o)
    (before : QueuedBefore s) :
    QueuedBefore s' ∧ s.globals.queueIds ++ message.toList.flatMap Message.put =
      message.toList.flatMap Message.taken ++ s'.globals.queueIds := by
  obtain ⟨entered, gone, step, enters⟩ := transition.queue (fun r => r.latestQueueTime = s.time) inv
    scheme.patient (fun _ _ _ _ => rfl) (fun _ _ => rfl)
  constructor
  · intro r inQueue
    have le := step.waiting (fun r isEntered => (enters r isEntered).le) before r inQueue
    exact le.trans transition.time_le
  · exact step.fifo (inv.fixed.comparer.trans scheme.comparer) enters before

/-- Along a run, what waited and what was put comes out in order, and the rest waits. -/
theorem fifo_run (scheme : ByQueueTime o) (inv : Inv o lines s) (before : QueuedBefore s) (output : Output)
    (n : ℕ) : ∃ s' later, run (tracedStep o) n (s, output) = .ok (s', output ++ later) ∧
      Inv o lines s' ∧ QueuedBefore s' ∧
      s.globals.queueIds ++ putLog later = takenLog later ++ s'.globals.queueIds := by
  obtain ⟨s', output', ran, inv', before', later, rfl, order⟩ := traced_run (P := fun s' output' =>
    QueuedBefore s' ∧ ∃ later, output' = output ++ later ∧
      s.globals.queueIds ++ putLog later = takenLog later ++ s'.globals.queueIds)
    (fun s₁ output₁ message s₂ inv₁ holds transition => by
      obtain ⟨before₁, later, rfl, order⟩ := holds
      obtain ⟨before₂, moved⟩ := transition.fifo inv₁ scheme before₁
      refine ⟨before₂, later ++ message.toList.map (s₁.time, ·), List.append_assoc .., ?_⟩
      rw [putLog_append, takenLog_append, putLog_message, takenLog_message, ← List.append_assoc, order,
        List.append_assoc, moved, List.append_assoc])
    inv ⟨before, [], (List.append_nil output).symm, List.append_nil _⟩ n
  exact ⟨s', later, ran, inv', before', order⟩

/-- An entry of the queue leaves it after all that were in front of it. -/
theorem prefix_of_mem {α : Type*} {x : α} {front taken rest rest' : List α}
    (order : front ++ [x] ++ rest = taken ++ rest') (fresh : x ∉ front) (member : x ∈ taken) :
    front ++ [x] <+: taken := by
  have whole : taken <+: front ++ [x] ++ rest := order ▸ List.prefix_append taken rest'
  rcases List.prefix_or_prefix_of_prefix (List.prefix_append (front ++ [x]) rest) whole with short | long
  · exact short
  · rcases List.prefix_concat_iff.mp long with same | inFront
    · exact same ▸ List.prefix_rfl
    · exact (fresh (inFront.subset member)).elim

/-- A job on a core is not in the queue. -/
theorem Inv.notQueued (inv : Inv o lines s) (member : j ∈ s.jobs) (onCore : j.coreId ≠ -1) :
    j.jobId ∉ s.globals.queueIds := by
  intro queued
  obtain ⟨r, inQueue, same⟩ := List.mem_map.mp queued
  obtain ⟨j', inJobs, _, off, waits⟩ := inv.agree.queued r inQueue
  obtain rfl := eq_of_jobId inv.agree.ids inJobs member (waits.jobId.symm.trans same)
  exact onCore off

/-- A job whose quantum expired comes out after all that waited. -/
theorem requeued {jobId coreId newJobId : ℤ} (scheme : ByQueueTime o) (inv : Inv o lines s)
    (before : QueuedBefore s) (shown : printed o s = some (.quantumExpired jobId coreId newJobId))
    (output : Output) (n : ℕ) : ∃ s' later, run (tracedStep o) n (s, output) = .ok (s', output ++ later) ∧
      (jobId ∈ takenLog later → s.globals.queueIds ++ [jobId] <+: takenLog later) := by
  cases n with
  | zero => exact ⟨s, [], traced_run_zero o s output, nofun⟩
  | succ n =>
    obtain ⟨s₁, taken, transition, closer⟩ := inv.traced (notDone_of_printed shown) output
    rw [shown] at taken transition
    obtain ⟨before₁, moved⟩ := transition.fifo inv scheme before
    obtain ⟨s₂, later, ran, _, _, order⟩ := fifo_run scheme closer.inv before₁
      (output.after s.time (some (.quantumExpired jobId coreId newJobId))) n
    refine ⟨s₂, [(s.time, .quantumExpired jobId coreId newJobId)] ++ later, ?_, fun member => ?_⟩
    · rw [run_succ taken, ran, Output.after, List.append_assoc]
      rfl
    · have fresh : jobId ∉ s.globals.queueIds := by
        cases transition with
        | expire here more expired found isCore =>
          exact inv.notQueued (List.mem_of_getElem? found) (by omega)
      have first : s.globals.queueIds ++ [jobId] =
          takenLog [(s.time, Message.quantumExpired jobId coreId newJobId)] ++ s₁.globals.queueIds := moved
      have whole : s.globals.queueIds ++ [jobId] ++ putLog later =
          takenLog ([(s.time, .quantumExpired jobId coreId newJobId)] ++ later) ++ s₂.globals.queueIds := by
        rw [first, List.append_assoc, order, takenLog_append, List.append_assoc]
      exact prefix_of_mem whole fresh member

end OsLabs.Scheduler
