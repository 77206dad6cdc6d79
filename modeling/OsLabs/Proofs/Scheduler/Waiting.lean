import OsLabs.Proofs.Scheduler.Transitions
import OsLabs.ToMathlib.StableQueue

/-! # The queue and the messages

Without preemption a step does to the job queue what its message says: a record enters, then the head
leaves. With increasing queue times the queue is first in, first out; in general it is a stable
priority queue of the job numbers.
-/

namespace OsLabs.Scheduler

open Globals StableInsert Priqueue

variable {o : Options} {lines : List JobLine} {s s' : Sim} {message : Option Message} {g g' : Globals}
  {c time newJobId : ℤ} {r : JobT} {entered gone : Option JobT} {queued : JobT → Prop}

/-- The numbers of the waiting jobs, from the head of the queue. -/
def Globals.queueIds (g : Globals) : List ℤ := g.queue.map JobT.jobId

/-- What a step with a message does to the queue. -/
structure QueueStep (message : Option Message) (entered gone : Option JobT) (g g' : Globals) : Prop where
  put : (entered.map JobT.jobId).toList = message.toList.flatMap Message.put
  taken : (gone.map JobT.jobId).toList = message.toList.flatMap Message.taken
  queue : (entered.elim g g.offerJob).queue = gone.toList ++ g'.queue

theorem QueueStep.stays (put : message.toList.flatMap Message.put = [])
    (taken : message.toList.flatMap Message.taken = []) (same : g'.queue = g.queue) :
    QueueStep message none none g g' := ⟨put.symm, taken.symm, same.symm⟩

/-- The head of the queue leaves it for the vacant core. -/
theorem scheduleNextJob_queue (hasCore : g.HasCore c) (named : -1 ∉ g.queueIds)
    (called : scheduleNextJob g c time = some (g', newJobId)) :
    ∃ gone : Option JobT, (gone.map JobT.jobId).toList = (if newJobId = -1 then [] else [newJobId]) ∧
      g.queue = gone.toList ++ g'.queue := by
  cases head : g.queue with
  | nil =>
    rw [scheduleNextJob_nil head] at called
    cases called
    exact ⟨none, rfl, head.symm⟩
  | cons r rest =>
    rw [scheduleNextJob_cons hasCore head] at called
    cases called
    have isNamed : r.jobId ≠ -1 := fun minus => by
      rw [queueIds, head, List.map_cons, minus] at named
      exact named (List.mem_cons_self ..)
    refine ⟨some r, (if_neg isNamed).symm, ?_⟩
    rw [setRunning_queue, pollJob_queue, head]
    rfl

theorem Inv.queueIds_named (inv : Inv o lines s) : -1 ∉ s.globals.queueIds := by
  intro member
  obtain ⟨r, inQueue, minus⟩ := List.mem_map.mp member
  obtain ⟨j, inJobs, _, _, waits⟩ := inv.agree.queued r inQueue
  exact inv.agree.named (minus ▸ waits.jobId ▸ List.mem_map_of_mem inJobs)

/-- Every step of a scheme without preemption is such a step. -/
theorem Transition.queue (queued : JobT → Prop) (transition : Transition o s message s') (inv : Inv o lines s)
    (patient : o.scheme.preempts = false)
    (waits : ∀ job ∈ s.jobs, job.arrivalTime = s.time → job.arrived = false →
      queued { newJob job.jobId job.priority s.time job.runTime with latestQueueTime := s.time })
    (stops : o.scheme = .rr → ∀ r : JobT, queued { r with latestQueueTime := s.time }) :
    ∃ entered gone, QueueStep message entered gone s.globals s'.globals ∧ ∀ r ∈ entered, queued r := by
  cases transition with
  | move => exact ⟨none, none, .stays rfl rfl rfl, by simp⟩
  | run => exact ⟨none, none, .stays rfl rfl rfl, by simp⟩
  | @finish i job r newJobId jobs' g' here found finished onCore running called =>
    obtain ⟨_, hasCore, _⟩ := inv.agree.onCore job (List.mem_of_getElem? found) onCore
    obtain ⟨gone, taken, queue⟩ := scheduleNextJob_queue (g := s.globals.finished job.coreId r s.time)
      hasCore inv.queueIds_named called
    refine ⟨none, gone, ⟨rfl, ?_, queue⟩, by simp⟩
    rw [Option.toList_some, List.flatMap_singleton]
    exact taken
  | @expire i k job r newJobId jobs' g' here more expired found isCore running called =>
    have member := List.mem_of_getElem? found
    obtain ⟨_, hasCore, _, r', running', runs⟩ := inv.agree.onCore job member (by omega)
    obtain rfl := Option.some.inj (running'.symm.trans running)
    let offered := (s.globals.setRunning job.coreId none).offerJob { r' with latestQueueTime := s.time }
    have named : -1 ∉ offered.queueIds := by
      rw [queueIds, ((offerJob_perm _ _).map JobT.jobId).mem_iff, List.map_cons, List.mem_cons, not_or]
      refine ⟨fun minus => inv.agree.named ?_, inv.queueIds_named⟩
      rw [minus, runs.jobId]
      exact List.mem_map_of_mem member
    obtain ⟨gone, taken, queue⟩ := scheduleNextJob_queue (g := offered) hasCore named called
    refine ⟨some { r' with latestQueueTime := s.time }, gone, ⟨?_, ?_, queue⟩, ?_⟩
    · exact congrArg (· :: []) runs.jobId
    · rw [Option.toList_some, List.flatMap_singleton]
      exact taken
    · rintro _ ⟨⟩
      exact stops more.1 r'
  | @arrive i job coreId jobs' g' here found now notArrived new =>
    cases new with
    | idle head =>
      have isCore := (inv.agree.idleCore coreId (head ▸ List.mem_cons_self ..)).1.1
      refine ⟨none, none, .stays ?_ rfl rfl, by simp⟩
      have notMinus : coreId ≠ -1 := by omega
      simp only [Option.toList_some, List.flatMap_singleton, Message.put, if_neg notMinus]
    | preempt _ preempts => exact (inv.notPreempts patient preempts).elim
    | wait _ current =>
      obtain ⟨_, rfl⟩ | ⟨preempts, _⟩ := current
      · refine ⟨some _, none, ⟨rfl, rfl, rfl⟩, ?_⟩
        rintro _ ⟨⟩
        exact waits job (List.mem_of_getElem? found) now notArrived
      · exact (inv.notPreempts patient preempts).elim

namespace QueueStep

theorem waiting (step : QueueStep message entered gone g g') (enters : ∀ r ∈ entered, queued r)
    (waits : ∀ r ∈ g.queue, queued r) : ∀ r ∈ g'.queue, queued r := by
  intro r inQueue
  have old : r ∈ (entered.elim g g.offerJob).queue := step.queue ▸ List.mem_append_right _ inQueue
  cases entered with
  | none => exact waits r old
  | some r' =>
    rcases List.mem_cons.mp ((offerJob_perm g r').mem_iff.mp old) with rfl | old
    · exact enters r rfl
    · exact waits r old

/-- A record whose queue time is the latest goes to the end of the queue. -/
theorem fifo (step : QueueStep message entered gone g g') (comparer : g.jobQueue.comparer = jobCompareFcfs)
    (enters : ∀ r ∈ entered, r.latestQueueTime = time) (waits : ∀ r ∈ g.queue, r.latestQueueTime ≤ time) :
    g.queueIds ++ message.toList.flatMap Message.put = message.toList.flatMap Message.taken ++ g'.queueIds := by
  have queue := congrArg (List.map JobT.jobId) step.queue
  rw [List.map_append] at queue
  rw [← step.put, ← step.taken, Option.toList_map, Option.toList_map]
  refine Eq.trans ?_ queue
  cases entered with
  | none => exact List.append_nil _
  | some r =>
    have last : ∀ r' ∈ g.queue, ¬ Less g.jobQueue.comparer r r' := by
      intro r' inQueue
      have entersLast := enters r rfl
      have waited := waits r' inQueue
      rw [comparer, Less, jobCompareFcfs]
      split <;> omega
    change _ = (g.offerJob r).queue.map JobT.jobId
    rw [offerJob_queue, position_eq_length last, List.insertIdx_length_self, List.map_append]
    rfl

/-- A step of a stable priority queue of job numbers. -/
theorem stable {less : ℤ → ℤ → Prop} [DecidableRel less] [IsStrictWeakOrder ℤ less] {waiting : List ℤ}
    (step : QueueStep message entered gone g g')
    (compares : ∀ r ∈ entered, ∀ r' ∈ g.queue, Less g.jobQueue.comparer r r' ↔ less r.jobId r'.jobId)
    (stable : Stable less g.queueIds waiting) :
    (∀ x ∈ message.toList.flatMap Message.taken,
        First less x (waiting ++ message.toList.flatMap Message.put)) ∧
      Stable less g'.queueIds ((waiting ++ message.toList.flatMap Message.put).diff
        (message.toList.flatMap Message.taken)) := by
  have offered : Stable less (entered.elim g g.offerJob).queueIds
      (waiting ++ (entered.map JobT.jobId).toList) := by
    cases entered with
    | none => exact (List.append_nil waiting).symm ▸ stable
    | some r =>
      change Stable less ((g.offerJob r).queue.map JobT.jobId) (waiting ++ [r.jobId])
      have place : position (Less g.jobQueue.comparer) r g.queue = position less r.jobId g.queueIds :=
        (position_congr (compares r rfl)).trans (position_map JobT.jobId r g.queue).symm
      rw [offerJob_queue, List.map_insertIdx, place]
      exact stable.put r.jobId
  rw [queueIds, step.queue, List.map_append] at offered
  rw [← step.put, ← step.taken]
  cases gone with
  | none => exact ⟨nofun, offered⟩
  | some r =>
    change Stable less (r.jobId :: g'.queueIds) _ at offered
    refine ⟨fun x member => ?_, ?_⟩
    · obtain rfl := List.mem_singleton.mp member
      exact offered.first
    · change Stable less g'.queueIds ((_ : List ℤ).diff [r.jobId])
      rw [List.diff_cons, List.diff_nil]
      exact offered.take

end QueueStep

end OsLabs.Scheduler
