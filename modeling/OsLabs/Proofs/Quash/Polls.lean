import OsLabs.Proofs.Quash.Scripts

/-! # Polls of the background jobs

A poll asks for the processes of each job in turn, up to the first that still runs. What it finds decides
which jobs stay; the commands of a script and its end do not ask again.
-/

namespace OsLabs.Quash

variable {kernel : Kernel} {exited : ℕ → ℕ → Prop} {s : Shell} {jobs kept done : List Job} {j : Job}
  {first : ℤ → ℕ} {low last : ℕ}

/-! ## What the system says -/

/-- No later one of the calls of `fork` returned the pid of call `n`. -/
def Kernel.Latest (kernel : Kernel) (forks n : ℕ) : Prop := ∀ m < forks, n < m → kernel.fork m ≠ kernel.fork n

instance (forks n : ℕ) : Decidable (kernel.Latest forks n) :=
  inferInstanceAs (Decidable (∀ m < forks, n < m → kernel.fork m ≠ kernel.fork n))

/-- A call of `waitpid` tells whether the last process with the pid has `exited` by then, once with the pid
and later with an error. -/
def Kernel.Answers (kernel : Kernel) (exited : ℕ → ℕ → Prop) (forks call : ℕ) : Prop :=
  ∀ n < forks, kernel.Latest forks n →
    (¬ exited n call → kernel.waitpid call (kernel.fork n) = 0) ∧
    (exited n call → kernel.waitpid call (kernel.fork n) = kernel.fork n ∨ kernel.waitpid call (kernel.fork n) = -1)

instance [∀ n call, Decidable (exited n call)] (forks call : ℕ) : Decidable (kernel.Answers exited forks call) :=
  inferInstanceAs (Decidable (∀ n < forks, kernel.Latest forks n → _ ∧ _))

/-- Every `fork` succeeds, and a process that has exited does not run again. -/
structure Kernel.Reports (kernel : Kernel) (exited : ℕ → ℕ → Prop) : Prop where
  forks : ∀ n, 0 < kernel.fork n
  still : ∀ n call, exited n call → exited n (call + 1)

theorem Kernel.Reports.mono (reports : kernel.Reports exited) {n call call' : ℕ} (le : call ≤ call')
    (ended : exited n call) : exited n call' := by
  induction le with
  | refl => exact ended
  | step _ ih => exact reports.still n _ ih

/-- The answer about process `n` is 0 as long as it runs. -/
def Kernel.Tells (kernel : Kernel) (exited : ℕ → ℕ → Prop) (n call : ℕ) : Prop :=
  kernel.waitpid call (kernel.fork n) = 0 ↔ ¬ exited n call

theorem Kernel.Answers.tells {forks n call : ℕ} (answers : kernel.Answers exited forks call)
    (reports : kernel.Reports exited) (made : n < forks) (latest : kernel.Latest forks n) :
    kernel.Tells exited n call := by
  obtain ⟨running, ended⟩ := answers n made latest
  have positive := reports.forks n
  constructor
  · intro zero isOver
    cases ended isOver with
    | inl answer => omega
    | inr answer => omega
  · exact running

/-! ## One poll -/

/-- What the calls from `low` to `last` find: the jobs with a process that runs, and those whose processes
are all over. -/
structure Poll (exited : ℕ → ℕ → Prop) (first : ℤ → ℕ) (low last : ℕ) (jobs kept done : List Job) : Prop where
  forward : low ≤ last
  each : (kept ++ done).Perm jobs
  keptOrder : kept.Sublist jobs
  doneOrder : done.Sublist jobs
  running : ∀ j ∈ kept, ∃ n ∈ j.processes first, ∃ call, low ≤ call ∧ call < last ∧ ¬ exited n call
  ended : ∀ j ∈ done, ∀ n ∈ j.processes first, ∃ call, low ≤ call ∧ call < last ∧ exited n call

theorem pollPids_mono (kernel : Kernel) (pids : List ℤ) (low : ℕ) : low ≤ (pollPids kernel pids low).2 := by
  induction pids generalizing low with
  | nil => exact Nat.le_refl low
  | cons pid pids ih =>
    rw [pollPids]
    split
    · exact Nat.le_succ low
    · exact Nat.le_of_succ_le (ih (low + 1))

/-- The processes of one job, asked up to the first that runs. -/
theorem pollPids_spec (processes : List ℕ) (within : (pollPids kernel (processes.map kernel.fork) low).2 ≤ last)
    (tells : ∀ n ∈ processes, ∀ call, low ≤ call → call < last → kernel.Tells exited n call) :
    if (pollPids kernel (processes.map kernel.fork) low).1 then
      ∀ n ∈ processes, ∃ call, low ≤ call ∧ call < last ∧ exited n call
    else ∃ n ∈ processes, ∃ call, low ≤ call ∧ call < last ∧ ¬ exited n call := by
  induction processes generalizing low with
  | nil => exact List.forall_mem_nil _
  | cons n processes ih =>
    obtain ⟨here, behind⟩ := List.forall_mem_cons.mp tells
    rw [List.map_cons, pollPids] at within ⊢
    split
    case isTrue zero =>
      rw [if_pos zero] at within
      have running := (here low (Nat.le_refl low) within).mp zero
      exact ⟨n, List.mem_cons_self, low, Nat.le_refl low, within, running⟩
    case isFalse nonzero =>
      rw [if_neg nonzero] at within
      have forward : low < last := Nat.lt_of_lt_of_le (pollPids_mono kernel _ (low + 1)) within
      have ended : exited n low := by
        by_contra running
        exact nonzero ((here low (Nat.le_refl low) forward).mpr running)
      have rest := ih within fun m mem call above => behind m mem call (Nat.le_of_succ_le above)
      cases answer : (pollPids kernel (processes.map kernel.fork) (low + 1)).1 with
      | true =>
        rw [answer, if_pos rfl] at rest
        rw [if_pos rfl]
        intro m mem
        cases List.mem_cons.mp mem with
        | inl same => exact ⟨low, Nat.le_refl low, forward, same ▸ ended⟩
        | inr later =>
          obtain ⟨call, above, below, exits⟩ := rest m later
          exact ⟨call, Nat.le_of_succ_le above, below, exits⟩
      | false =>
        rw [answer, if_neg Bool.false_ne_true] at rest
        rw [if_neg Bool.false_ne_true]
        obtain ⟨m, mem, call, above, below, runs⟩ := rest
        exact ⟨m, List.mem_cons_of_mem n mem, call, Nat.le_of_succ_le above, below, runs⟩

theorem polled_spec (own : ∀ j ∈ jobs, j.pidList = (j.processes first).map kernel.fork)
    (within : (polled kernel jobs low).2.2 ≤ last)
    (tells : ∀ j ∈ jobs, ∀ n ∈ j.processes first, ∀ call, low ≤ call → call < last → kernel.Tells exited n call) :
    Poll exited first low last jobs (polled kernel jobs low).1 (polled kernel jobs low).2.1 := by
  induction jobs generalizing low with
  | nil => exact ⟨within, .nil, .slnil, .slnil, List.forall_mem_nil _, List.forall_mem_nil _⟩
  | cons j jobs ih =>
    obtain ⟨hereOwn, behindOwn⟩ := List.forall_mem_cons.mp own
    obtain ⟨here, behind⟩ := List.forall_mem_cons.mp tells
    have forward := pollPids_mono kernel j.pidList low
    rw [polled] at within ⊢
    set next := (pollPids kernel j.pidList low).2 with next_def
    have within' : (polled kernel jobs next).2.2 ≤ last := by
      split at within
      · exact within
      · exact within
    have rest := ih behindOwn within' fun j' mem n held call above =>
      behind j' mem n held call (Nat.le_trans forward above)
    have asked : if (pollPids kernel j.pidList low).1 then
        ∀ n ∈ j.processes first, ∃ call, low ≤ call ∧ call < last ∧ exited n call
        else ∃ n ∈ j.processes first, ∃ call, low ≤ call ∧ call < last ∧ ¬ exited n call := by
      rw [hereOwn] at next_def ⊢
      exact pollPids_spec (j.processes first) (next_def ▸ rest.forward) here
    split
    case isTrue ended =>
      rw [ended, if_pos rfl] at asked
      refine ⟨Nat.le_trans forward rest.forward, ?_, rest.keptOrder.cons j, rest.doneOrder.cons_cons j, ?_, ?_⟩
      · exact List.perm_middle.trans (rest.each.cons j)
      · intro j' mem
        obtain ⟨n, held, call, above, below, runs⟩ := rest.running j' mem
        exact ⟨n, held, call, Nat.le_trans forward above, below, runs⟩
      · intro j' mem n held
        cases List.mem_cons.mp mem with
        | inl same => exact asked n (same ▸ held)
        | inr old =>
          obtain ⟨call, above, below, exits⟩ := rest.ended j' old n held
          exact ⟨call, Nat.le_trans forward above, below, exits⟩
    case isFalse runs =>
      rw [if_neg runs] at asked
      refine ⟨Nat.le_trans forward rest.forward, rest.each.cons j, rest.keptOrder.cons_cons j, rest.doneOrder.cons j, ?_, ?_⟩
      · intro j' mem
        cases List.mem_cons.mp mem with
        | inl same => exact same ▸ asked
        | inr old =>
          obtain ⟨n, held, call, above, below, still⟩ := rest.running j' old
          exact ⟨n, held, call, Nat.le_trans forward above, below, still⟩
      · intro j' mem n held
        obtain ⟨call, above, below, exits⟩ := rest.ended j' mem n held
        exact ⟨call, Nat.le_trans forward above, below, exits⟩

/-- A job whose processes have all exited before the poll is done. -/
theorem Poll.done_of_exited (poll : Poll exited first low last jobs kept done) (reports : kernel.Reports exited)
    (mem : j ∈ jobs) (ended : ∀ n ∈ j.processes first, exited n low) : j ∈ done := by
  cases List.mem_append.mp (poll.each.mem_iff.mpr mem) with
  | inr isDone => exact isDone
  | inl isKept =>
    obtain ⟨n, held, call, above, -, runs⟩ := poll.running j isKept
    exact absurd (reports.mono above (ended n held)) runs

/-- After the poll, all processes of a job that is done have exited. -/
theorem Poll.exited_of_done (poll : Poll exited first low last jobs kept done) (reports : kernel.Reports exited)
    (mem : j ∈ done) {n : ℕ} (held : n ∈ j.processes first) : exited n last := by
  obtain ⟨call, -, below, ended⟩ := poll.ended j mem n held
  exact reports.mono (Nat.le_of_lt below) ended

/-! ## A script -/

/-- Quash when it waits for the next script. -/
structure Shell.AtPrompt (s : Shell) : Prop where
  table : JobTable s.bgJobs
  idle : s.currentJob = []
  created : s.globalsCreated = false → s.bgJobs = []

theorem Shell.atPrompt_initial (fds : Descriptors) : (initial fds).AtPrompt := ⟨.nil, rfl, fun _ => rfl⟩

theorem Shell.AtPrompt.createGlobals_eq (prompt : s.AtPrompt) :
    s.createGlobals = { s with globalsCreated := true } := by
  rw [Shell.createGlobals]
  split
  case isTrue created => rw [← created]
  case isFalse created =>
    have empty := prompt.created (Bool.eq_false_iff.mpr created)
    rw [newDeque, newDeque, ← prompt.idle, ← empty]

/-- What a script leaves: the jobs that the poll kept and possibly its own, and the messages about both. -/
structure ScriptPoll (kernel : Kernel) (command : List Char) (holders : List CommandHolder) (s s' : Shell)
    (added : List Job) : Prop where
  bgJobs : s'.bgJobs = (polled kernel s.bgJobs s.polls).1 ++ added
  polls : s'.polls = (polled kernel s.bgJobs s.polls).2.2
  messages : s'.messages =
    s.messages ++ (polled kernel s.bgJobs s.polls).2.1.map Job.completed ++ added.map Job.started
  forks : s'.forks = if isExit holders then s.forks else s.forks + holders.length
  once : added.length ≤ 1
  adds : added ≠ [] ↔ isExit holders = false ∧ isBackground holders = true
  own : ∀ j ∈ added, j.cmd = command ∧ j.pidList = forked kernel s.forks holders.length
  number : ∀ j ∈ added, NextNumber (polled kernel s.bgJobs s.polls).1 j.jobId

theorem runScript_poll (kernel : Kernel) (command : List Char) (holders : List CommandHolder) (prompt : s.AtPrompt) :
    ∃ s', runScript kernel command (some holders) s = some s' ∧ s'.AtPrompt ∧
      ∃ added, ScriptPoll kernel command holders s s' added := by
  have populated : ∀ j ∈ s.createGlobals.bgJobs, j.pidList ≠ [] := by
    rw [prompt.createGlobals_eq]
    exact prompt.table.populated
  have checked := checkJobsBgStatus_spec kernel populated
  have table := prompt.table.sublist (polled_sublist kernel s.bgJobs s.polls)
  rw [prompt.createGlobals_eq] at checked
  simp only [runScript, prompt.createGlobals_eq, checked, Option.bind_eq_bind, Option.bind_some]
  cases exits : isExit holders with
  | true =>
    rw [if_pos rfl]
    refine ⟨_, rfl, ⟨table, prompt.idle, ?_⟩, [], ?_, rfl, ?_, ?_, Nat.zero_le 1, ?_, List.forall_mem_nil _, List.forall_mem_nil _⟩
    · intro notCreated
      cases notCreated
    · exact (List.append_nil _).symm
    · exact (List.append_nil _).symm
    · rw [exits, if_pos rfl]
    · simp [exits]
  | false =>
    rw [if_neg Bool.false_ne_true]
    set s₁ : Shell := { s with
      globalsCreated := true
      bgJobs := (polled kernel s.bgJobs s.polls).1
      polls := (polled kernel s.bgJobs s.polls).2.2
      messages := s.messages ++ (polled kernel s.bgJobs s.polls).2.1.map Job.completed }
    obtain ⟨s₂, created, ran⟩ := createProcesses_spec kernel holders (s₁.pipe s₁.oldPipe)
    rw [created, Option.bind_some]
    have globalsCreated : s₂.globalsCreated = true := ran.globalsCreated
    have bgJobs : s₂.bgJobs = s₁.bgJobs := ran.bgJobs
    have currentJob : s₂.currentJob = forked kernel s.forks holders.length := by
      rw [ran.currentJob]
      change s.currentJob ++ _ = _
      rw [prompt.idle]
      rfl
    have forks : s₂.forks = if isExit holders then s.forks else s.forks + holders.length := by
      rw [exits, if_neg Bool.false_ne_true]
      exact ran.forks
    cases background : isBackground holders with
    | false =>
      rw [if_neg Bool.false_ne_true, waitForeground_eq]
      refine ⟨_, rfl, ⟨?_, rfl, ?_⟩, [], ?_, ran.polls, ?_, forks, Nat.zero_le 1, ?_, List.forall_mem_nil _, List.forall_mem_nil _⟩
      · exact bgJobs.symm ▸ table
      · intro notCreated
        cases globalsCreated.symm.trans notCreated
      · exact bgJobs.trans (List.append_nil _).symm
      · exact ran.messages.trans (List.append_nil _).symm
      · simp [background]
    | true =>
      rw [if_pos rfl]
      have populated : s₂.currentJob ≠ [] := currentJob ▸ forked_ne_nil background
      have kept : JobTable s₂.bgJobs := bgJobs.symm ▸ table
      obtain ⟨jobId, number, started⟩ := startJob_spec (s := s₂.closePipe s₂.oldPipe) command kept populated
      refine ⟨_, started, ⟨kept.push number populated, rfl, ?_⟩, [⟨jobId, command, s₂.currentJob⟩], ?_, ran.polls,
        ?_, forks, Nat.le_refl 1, ?_, ?_, ?_⟩
      · intro notCreated
        cases globalsCreated.symm.trans notCreated
      · exact congrArg (· ++ _) bgJobs
      · exact congrArg (· ++ _) ran.messages
      · simp [exits, background]
      · intro j mem
        rw [List.mem_singleton.mp mem]
        exact ⟨rfl, currentJob⟩
      · intro j mem
        rw [List.mem_singleton.mp mem]
        change NextNumber s₁.bgJobs jobId
        rw [← bgJobs]
        exact number

end OsLabs.Quash
