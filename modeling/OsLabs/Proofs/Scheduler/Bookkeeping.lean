import Mathlib.Data.List.Nodup
import OsLabs.Model.Scheduler.Client
import OsLabs.Proofs.Scheduler.Invariant

/-! # The books of the library

`Books` relates the globals to what a client knows. While a call is under way one core may be vacant:
it runs no job and is not on the idle list. Each call is put together from the parts below.
-/

namespace OsLabs.Scheduler

open Globals StableInsert Priqueue

variable {number : ℕ} {g g' : Globals} {client : Client} {vacant : Option ℤ} {c time n : ℤ} {r : JobT}

/-! ## Cores -/

/-- The entry of one core of a map over the cores. -/
theorem filterMap_update_perm {cores : List ℤ} (once : cores.Nodup) (member : c ∈ cores)
    (f : ℤ → Option ℤ) (n : ℤ) : (cores.filterMap (Function.update f c (some n))).Perm
      (n :: cores.filterMap (Function.update f c none)) := by
  obtain ⟨front, back, rfl⟩ := List.append_of_mem member
  have others {part : List ℤ} (x : Option ℤ) (absent : c ∉ part) :
      part.filterMap (Function.update f c x) = part.filterMap f :=
    List.filterMap_congr fun d inPart => Function.update_of_ne (fun same : d = c => absent (same ▸ inPart)) x f
  have twice := List.nodup_middle.mp once
  obtain ⟨absent, _⟩ := List.nodup_cons.mp twice
  have inFront : c ∉ front := fun inFront => absent (List.mem_append_left back inFront)
  have inBack : c ∉ back := fun inBack => absent (List.mem_append_right front inBack)
  rw [List.filterMap_append, List.filterMap_append, List.filterMap_cons_some (Function.update_self c _ f),
    List.filterMap_cons_none (Function.update_self c none f), others _ inFront, others _ inFront,
    others _ inBack, others _ inBack]
  exact List.perm_middle

theorem append_perm_cons_erase {l : List ℤ} (front : List ℤ) (member : n ∈ l) :
    (front ++ l).Perm (n :: (front ++ l.erase n)) :=
  ((List.perm_cons_erase member).append_left front).trans List.perm_middle

/-- A number moves to the end of the second list. -/
theorem cons_append_perm (front back : List ℤ) (n : ℤ) :
    (n :: front ++ back).Perm (front ++ (back ++ [n])) := by
  rw [← List.append_assoc]
  exact (List.perm_append_singleton n (front ++ back)).symm

instance : IsStrictWeakOrder ℤ (Less coreCompare) where
  irrefl := by simp only [Less, coreCompare]; omega
  trans := by simp only [Less, coreCompare]; omega
  incomp_trans := by simp only [Less, coreCompare]; omega

/-- An offer keeps the idle list in increasing order. -/
theorem offerCore_sorted (comparer : g.idleCores.comparer = coreCompare) (increasing : g.idle.Pairwise (· < ·))
    (busy : c ∉ g.idle) : (g.offerCore c).idle.Pairwise (· < ·) := by
  have sorted : Sorted (Less coreCompare) g.idle := increasing.imp fun {a b} below => by
    simp only [Less, coreCompare]
    omega
  have nodup : (g.offerCore c).idle.Nodup :=
    (offerCore_perm g c).nodup_iff.mpr (List.nodup_cons.mpr ⟨busy, increasing.imp ne_of_lt⟩)
  have inserted : (g.offerCore c).idle = StableInsert.insert (Less coreCompare) c g.idle := by
    rw [← insertIdx_eq_insert sorted, ← comparer]
    exact (priqueueOffer_spec g.idleCores c).2
  have sorted' : Sorted (Less coreCompare) (g.offerCore c).idle := inserted ▸ sorted.insert
  refine sorted'.imp₂ (fun {a b} notLess different => ?_) nodup
  simp only [Less, coreCompare] at notLess
  omega

/-! ## The relation -/

structure Books (number : ℕ) (vacant : Option ℤ) (client : Client) (g : Globals) : Prop where
  totalCores : g.totalCores = number
  comparer : g.idleCores.comparer = coreCompare
  increasing : g.idle.Pairwise (· < ·)
  idle : ∀ c, c ∈ g.idle ↔ g.HasCore c ∧ client.running c = none ∧ vacant ≠ some c
  vacantCore : ∀ c, vacant = some c → g.HasCore c ∧ client.running c = none
  running : ∀ c n, client.running c = some n →
    g.HasCore c ∧ ∃ r, g.runningJobs c = some r ∧ r.jobId = n
  waiting : (g.queue.map JobT.jobId).Perm client.waiting
  once : (g.cores.filterMap client.running ++ client.waiting).Perm client.alive

namespace Books

/-- With no core idle, every core runs a job. -/
theorem busy (books : Books number none client g) (none : g.idle = []) (hasCore : g.HasCore c) :
    ∃ n r, client.running c = some n ∧ g.runningJobs c = some r ∧ r.jobId = n := by
  cases running : client.running c with
  | none =>
    have isIdle := (books.idle c).mpr ⟨hasCore, running, nofun⟩
    exact (List.not_mem_nil (none ▸ isIdle)).elim
  | some n =>
    obtain ⟨_, r, isRunning, same⟩ := books.running c n running
    exact ⟨n, r, rfl, isRunning, same⟩

/-- A job is taken off its core; where it goes is the caller's business. -/
theorem vacate (books : Books number none client g) (running : client.running c = some n) :
    (g.cores.filterMap client.running).Perm
      (n :: g.cores.filterMap (Function.update client.running c none)) := by
  have same : Function.update client.running c (some n) = client.running := by
    rw [← running, Function.update_eq_self]
  have moved := filterMap_update_perm (cores_nodup g) (mem_cores.mpr (books.running c n running).1)
    client.running n
  rwa [same] at moved

/-- Cores other than the vacant one keep their jobs. -/
theorem remove (books : Books number none client g) (running : client.running c = some n) {client' : Client}
    (idleCores : g'.idleCores = g.idleCores) (totalCores : g'.totalCores = g.totalCores)
    (slots : g'.runningJobs = Function.update g.runningJobs c none)
    (known : client'.running = Function.update client.running c none)
    (waiting : (g'.queue.map JobT.jobId).Perm client'.waiting)
    (once : (g.cores.filterMap client'.running ++ client'.waiting).Perm client'.alive) :
    Books number (some c) client' g' := by
  have hasCore {d : ℤ} : g'.HasCore d ↔ g.HasCore d := by rw [HasCore, HasCore, totalCores]
  have idle : g'.idle = g.idle := congrArg toList idleCores
  have isCore := (books.running c n running).1
  refine ⟨totalCores.trans books.totalCores, idleCores ▸ books.comparer, idle ▸ books.increasing, fun d => ?_, ?_, fun d m runs => ?_, waiting, ?_⟩
  · rw [idle, books.idle, hasCore, known]
    by_cases here : d = c
    · subst here
      simp only [running, reduceCtorEq, false_and, and_false, ne_eq, not_true_eq_false]
    · rw [Function.update_of_ne here]
      refine and_congr_right fun _ => and_congr_right fun _ => iff_of_true (Option.some_ne_none d).symm ?_
      exact fun same => here (Option.some.inj same).symm
  · rintro _ ⟨⟩
    rw [known, Function.update_self]
    exact ⟨hasCore.mpr isCore, rfl⟩
  · rw [known] at runs
    by_cases here : d = c
    · rw [here, Function.update_self] at runs
      cases runs
    · rw [Function.update_of_ne here] at runs
      rw [hasCore, slots, Function.update_of_ne here]
      exact books.running d m runs
  · have same : g'.cores = g.cores := by rw [cores, cores, totalCores]
    rw [same]
    exact once

/-- The vacant core becomes idle. -/
theorem offerCore (books : Books number (some c) client g) : Books number none client (g.offerCore c) := by
  have busy : c ∉ g.idle := fun isIdle => ((books.idle c).mp isIdle).2.2 rfl
  refine ⟨books.totalCores, ?_, offerCore_sorted books.comparer books.increasing busy, fun d => ?_, nofun, books.running,
    books.waiting, books.once⟩
  · exact (priqueueOffer_comparer _ _).trans books.comparer
  · rw [(offerCore_perm g c).mem_iff, List.mem_cons, books.idle]
    obtain ⟨hasCore, running⟩ := books.vacantCore c rfl
    constructor
    · rintro (rfl | ⟨hasCore', running', _⟩)
      · exact ⟨hasCore, running, nofun⟩
      · exact ⟨hasCore', running', nofun⟩
    · rintro ⟨hasCore', running', _⟩
      refine or_iff_not_imp_left.mpr fun other => ⟨hasCore', running', fun same => other ?_⟩
      exact (Option.some.inj same).symm

/-- The first idle core becomes vacant. -/
theorem pollCore {cores : List ℤ} (books : Books number none client g) (head : g.idle = c :: cores) :
    Books number (some c) client g.pollCore := by
  have tail : g.pollCore.idle = cores := by rw [pollCore_idle, head, List.tail_cons]
  have increasing := books.increasing
  rw [head, List.pairwise_cons] at increasing
  have isIdle := (books.idle c).mp (head ▸ List.mem_cons_self ..)
  refine ⟨books.totalCores, (priqueuePoll_comparer _).trans books.comparer, tail ▸ increasing.2, fun d => ?_, ?_,
    books.running, books.waiting, books.once⟩
  · have old := books.idle d
    rw [head, List.mem_cons] at old
    rw [tail]
    constructor
    · intro member
      obtain ⟨hasCore, running, _⟩ := old.mp (.inr member)
      exact ⟨hasCore, running, fun same => (increasing.1 d member).ne (Option.some.inj same)⟩
    · rintro ⟨hasCore, running, other⟩
      refine (old.mpr ⟨hasCore, running, nofun⟩).resolve_left fun same => other ?_
      rw [same]
  · rintro _ ⟨⟩
    exact ⟨isIdle.1, isIdle.2.1⟩

/-- A job is put on the vacant core; where it comes from is the caller's business. -/
theorem place (books : Books number (some c) client g) {client' : Client}
    (known : client'.running = Function.update client.running c (some r.jobId))
    (waiting : (g.queue.map JobT.jobId).Perm client'.waiting)
    (once : (r.jobId :: g.cores.filterMap client.running ++ client'.waiting).Perm client'.alive) :
    Books number none client' (g.setRunning c (some r)) := by
  obtain ⟨hasCore, free⟩ := books.vacantCore c rfl
  refine ⟨books.totalCores, books.comparer, books.increasing, fun d => ?_, nofun, fun d m runs => ?_, waiting, ?_⟩
  · rw [setRunning_idle, books.idle, known]
    by_cases here : d = c
    · subst here
      simp only [Function.update_self, reduceCtorEq, false_and, and_false, ne_eq, not_true_eq_false]
    · rw [Function.update_of_ne here]
      refine and_congr_right fun _ => and_congr_right fun _ => iff_of_true ?_ nofun
      exact fun same => here (Option.some.inj same).symm
  · rw [known] at runs
    by_cases here : d = c
    · rw [here, Function.update_self] at runs
      obtain rfl := Option.some.inj runs
      rw [here]
      exact ⟨hasCore, r, setRunning_self g c (some r), rfl⟩
    · rw [Function.update_of_ne here] at runs
      rw [setRunning_of_ne g (some r) here]
      exact books.running d m runs
  · have moved := filterMap_update_perm (cores_nodup g) (mem_cores.mpr hasCore) client.running r.jobId
    rw [← known, ← free, Function.update_eq_self] at moved
    exact (moved.append_right _).trans once

/-- A record enters the queue. -/
theorem enqueue (books : Books number vacant client g) (r : JobT) {client' : Client}
    (known : client'.running = client.running)
    (waiting : (r.jobId :: client.waiting).Perm client'.waiting)
    (once : (g.cores.filterMap client.running ++ client'.waiting).Perm client'.alive) :
    Books number vacant client' (g.offerJob r) where
  totalCores := books.totalCores
  comparer := books.comparer
  increasing := books.increasing
  idle := known ▸ books.idle
  vacantCore := known ▸ books.vacantCore
  running := known ▸ books.running
  waiting := (((offerJob_perm g r).map JobT.jobId).trans (books.waiting.cons r.jobId)).trans waiting
  once := known ▸ once

/-- Bringing the records on the cores up to date changes nothing. -/
theorem updated (books : Books number vacant client g) (time : ℤ) :
    Books number vacant client (g.updatedTo time g.totalCores) where
  __ := books
  running d m runs := by
    obtain ⟨hasCore, r, running, same⟩ := books.running d m runs
    exact ⟨hasCore, _, updatedTo_below running hasCore.1 hasCore.2, same⟩

/-- The head of the queue leaves it. -/
theorem dequeue {rest : List JobT} (books : Books number vacant client g) (head : g.queue = r :: rest) :
    Books number vacant { client with
      waiting := client.waiting.erase r.jobId
      alive := client.alive.erase r.jobId } g.pollJob := by
  have waiting := books.waiting
  rw [head, List.map_cons] at waiting
  have tail : g.pollJob.queue = rest := by rw [pollJob_queue, head, List.tail_cons]
  have member : r.jobId ∈ client.waiting := waiting.mem_iff.mp (List.mem_cons_self ..)
  refine { books with waiting := ?_, once := ?_ }
  · have erased := waiting.erase r.jobId
    rw [List.erase_cons_head] at erased
    rwa [tail]
  · have erased := ((append_perm_cons_erase _ member).symm.trans books.once).erase r.jobId
    rwa [List.erase_cons_head] at erased

/-! ## The calls -/

/-- `schedule_next_job` on a vacant core. -/
theorem next (books : Books number (some c) client g) (few : g.queue.tail = [] ∨ g.idle = []) (time : ℤ) :
    ∃ g' result, scheduleNextJob g c time = some (g', result) ∧ Books number none (client.next c result) g' ∧
      Conserving g' := by
  have waiting := books.waiting
  cases head : g.queue with
  | nil =>
    rw [head, List.map_nil, List.nil_perm] at waiting
    refine ⟨_, _, scheduleNextJob_nil head, ?_, .inl head⟩
    rw [Client.next, if_pos waiting]
    exact books.offerCore
  | cons r rest =>
    rw [head, List.map_cons] at waiting
    have waits : client.waiting ≠ [] := fun none => (List.cons_ne_nil _ _) (none ▸ waiting).eq_nil
    have member : r.jobId ∈ client.waiting := waiting.mem_iff.mp (List.mem_cons_self ..)
    have polled := books.dequeue head
    refine ⟨_, _, scheduleNextJob_cons (books.vacantCore c rfl).1 head, ?_, ?_⟩
    · rw [Client.next, if_neg waits]
      exact polled.place rfl polled.waiting ((append_perm_cons_erase _ member).symm.trans books.once)
    · rw [head, List.tail_cons] at few
      refine few.imp (fun empty => ?_) id
      change g.pollJob.queue = []
      rw [pollJob_queue, head, List.tail_cons, empty]

theorem jobFinished (books : Books number none client g) (conserving : Conserving g)
    (running : client.running c = some n) (jobNumber time : ℤ) :
    ∃ g' result, schedulerJobFinished g c jobNumber time = some (g', result) ∧
      Books number none (client.after result (.jobFinished c jobNumber)) g' ∧ Conserving g' := by
  obtain ⟨hasCore, r, isRunning, _⟩ := books.running c n running
  have finished : Books number (some c) { client with
      running := Function.update client.running c none
      alive := client.alive.erase n } (g.finished c r time) := by
    refine books.remove running rfl rfl rfl rfl books.waiting ?_
    have erased := (((books.vacate running).append_right _).symm.trans books.once).erase n
    rwa [List.cons_append, List.erase_cons_head] at erased
  rw [schedulerJobFinished_eq hasCore isRunning]
  simp only [Client.after, running, Option.elim_some]
  exact finished.next (conserving.imp_left (congrArg List.tail)) time

theorem quantumExpired (books : Books number none client g) (conserving : Conserving g)
    (running : client.running c = some n) (time : ℤ) :
    ∃ g' result, schedulerQuantumExpired g c time = some (g', result) ∧
      Books number none (client.after result (.quantumExpired c)) g' ∧ Conserving g' := by
  obtain ⟨hasCore, r, isRunning, same⟩ := books.running c n running
  let r' := { r with latestQueueTime := time }
  have queued : ((g.setRunning c none).offerJob r').queue.Perm (r' :: g.queue) := offerJob_perm _ r'
  have expired : Books number (some c) { client with
      running := Function.update client.running c none
      waiting := client.waiting ++ [n] } ((g.setRunning c none).offerJob r') := by
    refine books.remove running rfl rfl rfl rfl ?_ ?_
    · refine (queued.map JobT.jobId).trans ((books.waiting.cons _).trans ?_)
      change (r.jobId :: client.waiting).Perm _
      rw [same]
      exact (List.perm_append_singleton n client.waiting).symm
    · have moved := ((books.vacate running).append_right client.waiting).symm.trans books.once
      exact (cons_append_perm _ _ n).symm.trans moved
  rw [schedulerQuantumExpired_eq hasCore isRunning]
  simp only [Client.after, running, Option.toList_some]
  refine expired.next (conserving.imp_left fun empty => List.length_eq_zero_iff.mp ?_) time
  rw [List.length_tail, queued.length_eq, empty]
  rfl

/-- The new job waits. -/
theorem wait (books : Books number none client g) (job : JobT) (time : ℤ) : Books number none { client with
      waiting := client.waiting ++ [job.jobId]
      alive := job.jobId :: client.alive } (enqueueNew g job time).1 := by
  refine books.enqueue { job with latestQueueTime := time } rfl ?_ ?_
  · exact (List.perm_append_singleton job.jobId client.waiting).symm
  · exact (cons_append_perm _ _ job.jobId).symm.trans (books.once.cons job.jobId)

theorem newJob (books : Books number none client g) (conserving : Conserving g) (positive : 0 < number)
    (jobNumber runningTime priority time : ℤ) :
    ∃ g' result, schedulerNewJob g jobNumber time runningTime priority = some (g', result) ∧
      Books number none (client.after result (.newJob jobNumber runningTime priority)) g' ∧ Conserving g' ∧
      (g.idle ≠ [] → g.idle.head? = some result) := by
  let job := Scheduler.newJob jobNumber priority time runningTime
  cases idle : g.idle with
  | cons c cores =>
    have polled := books.pollCore idle
    obtain ⟨isCore, free⟩ := polled.vacantCore c rfl
    have hasCore : g.HasCore c := isCore
    have notMinus : c ≠ -1 := fun minus => by
      have nonneg := hasCore.1
      omega
    have noQueue : g.queue = [] :=
      conserving.resolve_right fun none => List.cons_ne_nil c cores (idle.symm.trans none)
    refine ⟨_, _, schedulerNewJob_idle hasCore idle .., ?_, .inl noQueue, fun _ => rfl⟩
    simp only [Client.after, if_neg notMinus, free, Option.toList_none, List.append_nil]
    exact polled.place (r := job.scheduled time) rfl polled.waiting (polled.once.cons jobNumber)
  | nil =>
    cases preempts : g.scheme.preempts with
    | false =>
      refine ⟨_, _, schedulerNewJob_waits idle preempts .., ?_, .inr idle, fun some => (some rfl).elim⟩
      exact books.wait job time
    | true =>
      have busy : ∀ core, g.HasCore core → ∃ r, g.runningJobs core = some r := by
        intro core hasCore
        obtain ⟨_, r, _, running, _⟩ := books.busy idle hasCore
        exact ⟨r, running⟩
      obtain ⟨least, victim, hasLeast, running, _, called⟩ := schedulerNewJob_preempts time idle
        preempts (books.totalCores ▸ positive) busy jobNumber runningTime priority
      rw [called]
      have updated := books.updated time
      split
      · obtain ⟨m, r, knows, running', same⟩ := updated.busy idle hasLeast
        obtain rfl := Option.some.inj (running.symm.trans running')
        have notMinus : least ≠ -1 := fun minus => by
          have nonneg := hasLeast.1
          omega
        refine ⟨_, _, rfl, ?_, .inr idle, fun some => (some rfl).elim⟩
        simp only [Client.after, if_neg notMinus, knows, Option.toList_some]
        have queued : Books number (some least) { client with
            running := Function.update client.running least none
            waiting := client.waiting ++ [m] }
            (((g.updatedTo time g.totalCores).setRunning least none).offerJob (victim.unscheduled time)) := by
          refine updated.remove knows rfl rfl rfl rfl ?_ ?_
          · refine ((offerJob_perm _ _).map JobT.jobId).trans ((updated.waiting.cons _).trans ?_)
            change (victim.jobId :: client.waiting).Perm _
            rw [same]
            exact (List.perm_append_singleton m client.waiting).symm
          · have moved := ((updated.vacate knows).append_right client.waiting).symm.trans books.once
            exact (cons_append_perm _ _ m).symm.trans moved
        refine queued.place ?_ queued.waiting (queued.once.cons jobNumber)
        exact (Function.update_idem ..).symm
      · refine ⟨_, _, rfl, ?_, .inr idle, fun some => (some rfl).elim⟩
        exact updated.wait job time

/-! ## Start -/

/-- `scheduler_start_up` offers the cores one after the other. -/
theorem foldl_offerCore_sorted {cores : List ℕ} (once : cores.Nodup) (comparer : g.idleCores.comparer = coreCompare)
    (increasing : g.idle.Pairwise (· < ·)) (busy : ∀ core ∈ cores, (core : ℤ) ∉ g.idle) :
    let g' := cores.foldl (fun g i => g.offerCore (i : ℕ)) g
    g'.idleCores.comparer = coreCompare ∧ g'.idle.Pairwise (· < ·) := by
  induction cores generalizing g with
  | nil => exact ⟨comparer, increasing⟩
  | cons core cores ih =>
    obtain ⟨fresh, once⟩ := List.nodup_cons.mp once
    have here := busy core (List.mem_cons_self ..)
    refine ih once ((priqueueOffer_comparer _ _).trans comparer)
      (offerCore_sorted comparer increasing here) fun other member => ?_
    rw [(offerCore_perm g core).mem_iff, List.mem_cons, not_or]
    refine ⟨fun same => fresh ?_, busy other (List.mem_cons_of_mem _ member)⟩
    exact Int.ofNat_inj.mp same ▸ member

theorem start (malloc : Malloc) (cores : ℕ) (scheme : Scheme) :
    Books cores none Client.start (schedulerStartUp malloc cores scheme) := by
  obtain ⟨idle, queue, _, totalCores, _⟩ := schedulerStartUp_spec malloc cores scheme
  obtain ⟨comparer, increasing⟩ : (schedulerStartUp malloc cores scheme).idleCores.comparer = coreCompare ∧
      (schedulerStartUp malloc cores scheme).idle.Pairwise (· < ·) :=
    foldl_offerCore_sorted List.nodup_range rfl List.Pairwise.nil fun _ _ => List.not_mem_nil
  refine ⟨totalCores, comparer, increasing, fun c => ?_, ?_, ?_, ?_, ?_⟩
  · have isCore := mem_cores (g := schedulerStartUp malloc cores scheme) (c := c)
    rw [Globals.cores, totalCores] at isCore
    rw [idle.mem_iff, isCore]
    exact ⟨fun hasCore => ⟨hasCore, rfl, (Option.some_ne_none c).symm⟩, fun both => both.1⟩
  · intro c vacant
    cases vacant
  · intro c n running
    cases running
  · rw [queue]
    exact List.Perm.refl []
  · refine List.Perm.of_eq ((List.append_nil _).trans ?_)
    exact List.filterMap_eq_nil_iff.mpr fun _ _ => rfl

end Books

end OsLabs.Scheduler
