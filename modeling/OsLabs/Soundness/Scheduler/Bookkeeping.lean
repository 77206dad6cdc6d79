import OsLabs.Proofs.Scheduler.Bookkeeping

/-! # Any sequence of calls

Whatever calls are made after start-up, with whatever times, the library keeps its books, and every
further call that a client may make returns.
-/

namespace OsLabs.Scheduler

open Globals

variable {malloc : Malloc} {cores : ℕ} {scheme : Scheme} {g : Globals} {client : Client}

/-- The globals with NULL in the slots that hold no job. Dereferencing one of them fails. -/
def Globals.cleared (g : Globals) (client : Client) : Globals :=
  { g with runningJobs := fun c => if client.running c = none then none else g.runningJobs c }

/-- The number of the job on a core. -/
def Globals.jobNumber (g : Globals) (c : ℤ) : Option ℤ := (g.load c).map JobT.jobId

/-- The idle list and the queue match what the client knows, and no core is idle while a job waits. -/
structure Bookkeeping (cores : ℕ) (client : Client) (g : Globals) : Prop where
  increasing : g.idle.Pairwise (· < ·)
  idle : ∀ c, c ∈ g.idle ↔ (0 ≤ c ∧ c < cores) ∧ client.running c = none
  conserving : g.queue = [] ∨ g.idle = []
  running : ∀ c n, client.running c = some n → (0 ≤ c ∧ c < cores) ∧ g.jobNumber c = some n
  once : ((g.cores.filter (· ∉ g.idle)).filterMap g.jobNumber ++ g.queue.map JobT.jobId).Perm client.alive

theorem Books.bookkeeping (books : Books cores none client g) (conserving : Conserving g) :
    Bookkeeping cores client g := by
  have hasCore (c : ℤ) : g.HasCore c ↔ 0 ≤ c ∧ c < cores := by rw [HasCore, books.totalCores]
  have running (c n : ℤ) (runs : client.running c = some n) : g.HasCore c ∧ g.jobNumber c = some n := by
    obtain ⟨isCore, r, isRunning, same⟩ := books.running c n runs
    refine ⟨isCore, ?_⟩
    rw [jobNumber, load_eq isCore, isRunning, Option.map_some, same]
  refine ⟨books.increasing, fun c => ?_, conserving, fun c n runs => ?_, ?_⟩
  · rw [books.idle, hasCore]
    exact and_congr_right fun _ => and_iff_left (Option.some_ne_none c).symm
  · rw [← hasCore]
    exact running c n runs
  · refine ((books.waiting.append_left _).trans ?_).trans books.once
    refine List.Perm.append_right _ (List.Perm.of_eq ?_)
    rw [List.filterMap_filter]
    refine List.filterMap_congr fun c isCore => ?_
    cases runs : client.running c with
    | none =>
      have isIdle : c ∈ g.idle := (books.idle c).mpr ⟨mem_cores.mp isCore, runs, (Option.some_ne_none c).symm⟩
      exact if_neg (by simpa using isIdle)
    | some n =>
      have busy : c ∉ g.idle := fun isIdle => Option.some_ne_none n (runs.symm.trans ((books.idle c).mp isIdle).2.1)
      exact (if_pos (by simpa using busy)).trans (running c n runs).2

/-- Slots that hold no job are not part of the books. -/
theorem Books.cleared (books : Books cores none client g) : Books cores none client (g.cleared client) where
  __ := books
  running c n runs := by
    obtain ⟨isCore, r, isRunning, same⟩ := books.running c n runs
    refine ⟨isCore, r, (if_neg ?_).trans isRunning, same⟩
    rw [runs]
    exact Option.some_ne_none n

/-- A call that the client may make returns and keeps the books. -/
theorem Books.perform (books : Books cores none client g) (conserving : Conserving g) (positive : 0 < cores)
    (time : ℤ) (call : SchedulerCall) (allowed : client.Allows call) :
    ∃ g' result, Scheduler.perform g time call = some (g', result) ∧
      Books cores none (client.after result call) g' ∧ Conserving g' := by
  cases call with
  | newJob jobNumber runningTime priority =>
    obtain ⟨g', result, called, books', conserving', _⟩ :=
      books.newJob conserving positive jobNumber runningTime priority time
    exact ⟨g', result, called, books', conserving'⟩
  | jobFinished coreId jobNumber =>
    obtain ⟨n, runs⟩ := Option.ne_none_iff_exists'.mp allowed
    exact books.jobFinished conserving runs jobNumber time
  | quantumExpired coreId =>
    obtain ⟨n, runs⟩ := Option.ne_none_iff_exists'.mp allowed
    exact books.quantumExpired conserving runs time

/-- By induction on the calls. -/
theorem Called.books (positive : 0 < cores) (called : Called malloc cores scheme g client) :
    Books cores none client g ∧ Conserving g := by
  induction called with
  | start => exact ⟨.start malloc cores scheme, .inl (schedulerStartUp_spec malloc cores scheme).2.1⟩
  | call time call before allowed returned ih =>
    obtain ⟨g', result, called, kept⟩ := ih.1.perform ih.2 positive time call allowed
    cases called.symm.trans returned
    exact kept

/-- After any calls the books are right. Every further call returns, whatever the slots without a job
hold, and a new job that finds cores idle gets the one with the lowest id. -/
theorem scheduler_bookkeeping (positive : 0 < cores) (called : Called malloc cores scheme g client) :
    Bookkeeping cores client g ∧
      (∀ time call, client.Allows call → (perform g time call).isSome = true ∧
        (perform (g.cleared client) time call).isSome = true) ∧
      ∀ time jobNumber runningTime priority g' core,
        schedulerNewJob g jobNumber time runningTime priority = some (g', core) →
        g.idle ≠ [] → core ∈ g.idle ∧ ∀ c ∈ g.idle, core ≤ c := by
  obtain ⟨books, conserving⟩ := called.books positive
  refine ⟨books.bookkeeping conserving, fun time call allowed => ⟨?_, ?_⟩, ?_⟩
  · obtain ⟨g', result, returned, _⟩ := books.perform conserving positive time call allowed
    exact returned ▸ rfl
  · obtain ⟨g', result, returned, _⟩ := books.cleared.perform conserving positive time call allowed
    exact returned ▸ rfl
  · intro time jobNumber runningTime priority g' core returned some
    obtain ⟨_, _, returned', _, _, lowest⟩ :=
      books.newJob conserving positive jobNumber runningTime priority time
    cases returned'.symm.trans returned
    have increasing := books.increasing
    obtain ⟨rest, idle⟩ := List.head?_eq_some_iff.mp (lowest some)
    rw [idle, List.pairwise_cons] at increasing
    rw [idle]
    refine ⟨List.mem_cons_self .., List.forall_mem_cons.mpr ⟨le_rfl, fun c member => ?_⟩⟩
    exact (increasing.1 c member).le

/-- With twelve cores, in memory full of records, a job gets core 0. -/
theorem scheduler_bookkeeping_twelve :
    let malloc : Malloc := ⟨fun _ _ => newJob 0 0 0 0, fun _ _ => 7, fun _ => some (newJob 9 0 0 0)⟩
    ∃ g client, Called malloc 12 .rr g client ∧ client.running 0 = some 5 ∧ Bookkeeping 12 client g := by
  intro malloc
  have result : (perform (schedulerStartUp malloc 12 .rr) 0 (.newJob 5 3 0)).map Prod.snd = some 0 := by
    decide +kernel
  obtain ⟨⟨g, _⟩, returned, rfl⟩ := Option.map_eq_some_iff.mp result
  have called := Called.call 0 (.newJob 5 3 0) .start trivial returned
  exact ⟨g, _, called, rfl, (scheduler_bookkeeping (by decide) called).1⟩

end OsLabs.Scheduler
