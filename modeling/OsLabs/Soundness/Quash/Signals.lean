import OsLabs.Proofs.Quash.Signals

/-! # Where signals go

`run_kill` signals whatever pids the job holds. As long as every `fork` succeeds, no poll takes a process
of a job that it keeps, and no job number is cut down to the id of another job, these are children of the
job with the typed number that nobody has waited for. Each of the three can go wrong.
-/

namespace OsLabs.Quash

variable {kernel : Kernel} {fds : Descriptors} {s : Shell} {h : History} {before after : List CommandHolder}
  {holder : CommandHolder} {sig job : List Char}

/-- A child of the one job with the id, not waited for. -/
structure OwnChild (kernel : Kernel) (s : Shell) (h : History) (jobId pid : ℤ) : Prop where
  positive : 0 < pid
  own : ∃ j first, j ∈ s.bgJobs ∧ j.jobId = jobId ∧ (∀ j' ∈ s.bgJobs, j'.jobId = jobId → j' = j) ∧
    h.startOf jobId = some (j, first) ∧ ∃ k, first ≤ k ∧ k < first + j.pidList.length ∧ kernel.fork k = pid ∧
      ¬ h.Reaped kernel k

/-- The signals of a `kill` that was typed with a signal and a job number, at a place of the next script. -/
def SafeKill (kernel : Kernel) (s : Shell) (h : History) (before : List CommandHolder) (holder : CommandHolder)
    (sig job : List Char) : Prop :=
  Digits sig → Digits job → (mkKillCommand sig job).toCommand = some holder.cmd → ∀ s₁ s₂ s₃,
    checkJobsBgStatus kernel s.createGlobals = some s₁ →
    createProcesses kernel before (s₁.pipe s₁.oldPipe) = some s₂ → createProcess kernel holder s₂ = some s₃ →
    ∀ sent ∈ s₃.signals.drop s₂.signals.length, OwnChild kernel s₂ (h.poll kernel s) (digitsValue job) sent.1

/-- In the runs whose scripts are careful, for the job numbers that an `int` holds or that name no job. -/
theorem signals_reach_children (run : Run kernel fds (Careful kernel) s h)
    (careful : Careful kernel s (before ++ holder :: after))
    (number : (digitsValue job : ℤ) ≤ intMax ∨
      ∀ j ∈ (polled kernel s.bgJobs s.polls).1, j.jobId ≠ toInt (strtol job)) :
    SafeKill kernel s h before holder sig job := by
  intro _ digits typed s₁ s₂ s₃ checked created killed sent mem
  have owned := run.owned
  have populated : ∀ j ∈ s.createGlobals.bgJobs, j.pidList ≠ [] := by
    rw [owned.prompt.createGlobals_eq]
    exact owned.prompt.table.populated
  have polled₁ := checkJobsBgStatus_spec kernel populated
  rw [checked, owned.prompt.createGlobals_eq, Option.some.injEq] at polled₁
  obtain ⟨s₂', created', ran⟩ := createProcesses_spec kernel before (s₁.pipe s₁.oldPipe)
  obtain rfl : s₂ = s₂' := Option.some.inj (created.symm.trans created')
  have table : s₂.bgJobs = (polled kernel s.bgJobs s.polls).1 := by
    rw [ran.bgJobs]
    change s₁.bgJobs = _
    rw [polled₁]
  have cmd : holder.cmd = .kill (toInt (strtol sig)) (toInt (strtol job)) := (Option.some.inj typed).symm
  rw [createProcess_kill kernel cmd, Option.some.injEq] at killed
  have signals : s₃.signals = s₂.signals ++ signalsTo (toInt (strtol sig)) (toInt (strtol job)) s₂.bgJobs :=
    killed ▸ rfl
  rw [signals, List.drop_left] at mem
  obtain ⟨-, j, j_mem, id, pid_mem⟩ := mem_signalsTo.mp mem
  have named : j.jobId = digitsValue job := by
    cases number with
    | inl small => rw [id, toInt_strtol digits small]
    | inr nobody => exact absurd id (nobody j (table ▸ j_mem))
  obtain ⟨first, start, stored, -, live⟩ := owned.poll careful j (table ▸ j_mem)
  rw [stored] at pid_mem
  obtain ⟨k, low, high, forks⟩ := mem_forked.mp pid_mem
  obtain ⟨positive, unreaped⟩ := live k low high
  rw [forks] at positive
  refine ⟨positive, j, first, j_mem, named, ?_, named ▸ start, k, low, high, forks, unreaped⟩
  intro j' mem' id'
  have unique := owned.prompt.table.sublist (polled_sublist kernel s.bgJobs s.polls)
  rw [← table] at unique
  exact unique.eq_of_jobId mem' j_mem (id'.trans named.symm)

/-! ## Runs -/

/-- Quash after some scripts. -/
def quashAfter (kernel : Kernel) (scripts : List Script) : Shell :=
  (runScripts kernel scripts (.initial [])).getD (.initial [])

/-- A command of the background, and a `kill` as the parser makes it. -/
def background : CommandHolder := ⟨none, none, ⟨false, false, false, false, false, true⟩, .generic⟩

def typedKill (sig job : List Char) : CommandHolder :=
  ⟨none, none, ⟨false, false, false, false, false, false⟩, .kill (toInt (strtol sig)) (toInt (strtol job))⟩

theorem freshPids_of (distinct : ∀ n, 0 < kernel.fork n → ∀ k < n, kernel.fork n ≠ kernel.fork k)
    (holders : List CommandHolder) (s : Shell) (h : History) : FreshPids kernel holders s h :=
  fun n _ _ positive k before _ => distinct n positive k before

theorem Run.background {Ok : Shell → List CommandHolder → Prop} {s' : Shell} {j : Job} (run : Run kernel fds Ok s h)
    (command : List Char) (holders : List CommandHolder) (ok : Ok s holders) (fresh : FreshPids kernel holders s h)
    (stays : isExit holders = false) (background : isBackground holders = true)
    (ran : runScript kernel command (some holders) s = some s') (added : peekBack s'.bgJobs = some j) :
    Run kernel fds Ok s' ((h.poll kernel s).start j s.forks) :=
  .script run ok fresh ran (.background stays background added)

/-- Every process runs on. -/
def running : Kernel := ⟨fun n => n + 1, fun _ _ => 0, fun _ _ _ => true⟩

theorem running_distinct (n : ℕ) (_ : 0 < running.fork n) (k : ℕ) (before : k < n) :
    running.fork n ≠ running.fork k := by
  change (n : ℤ) + 1 ≠ k + 1
  omega

theorem running_reaps (jobs : List Job) (polls : ℕ) : reapedBy running jobs polls = [] := by
  induction jobs generalizing polls with
  | nil => rfl
  | cons j jobs ih =>
    rw [reapedBy, ih, List.append_nil]
    cases j.pidList with
    | nil => rfl
    | cons pid pids => rfl

theorem running_careful (s : Shell) (holders : List CommandHolder) : Careful running s holders where
  forks n _ _ := Int.natCast_succ_pos n
  whole j _ pid _ := by
    rw [running_reaps]
    exact List.not_mem_nil

/-- The signals of a `kill` for a job of two processes that both run. -/
theorem signals_reach_children_two :
    (∃ s h, Run running [] (Careful running) s h ∧ SafeKill running s h [] (typedKill ['9'] ['1']) ['9'] ['1']) ∧
      (runScripts running [(['a'], some [background, background]), (['k'], some [typedKill ['9'] ['1']])]
        (.initial [])).map (·.signals) = some [(1, 9), (2, 9)] := by
  have run : Run running [] (Careful running) (quashAfter running [(['a'], some [background, background])]) _ :=
    Run.background .start ['a'] [background, background] (running_careful _ _) (freshPids_of running_distinct _ _ _)
      rfl rfl rfl rfl
  exact ⟨⟨_, _, run, signals_reach_children run (running_careful _ ([] ++ [_])) (.inl (by decide))⟩, by decide⟩

theorem digits_of_all {text : List Char} (all : (!text.isEmpty && text.all Char.isDigit) = true) : Digits text := by
  rw [Bool.and_eq_true, Bool.not_eq_true', List.isEmpty_eq_false_iff, List.all_eq_true] at all
  exact all

/-- The second `fork` fails. -/
def failing : Kernel := ⟨fun n => if n = 1 then -1 else n + 1, fun _ _ => 0, fun _ _ _ => true⟩

theorem failing_distinct (n : ℕ) (positive : 0 < failing.fork n) (k : ℕ) (before : k < n) :
    failing.fork n ≠ failing.fork k := by
  simp only [failing] at *
  grind

/-- A failed `fork` leaves -1 in its job, and the signal goes to every process. -/
theorem signal_to_everybody : ¬ ∀ kernel fds s h before holder sig job,
    Run kernel fds (fun _ _ => True) s h → SafeKill kernel s h before holder sig job := by
  intro safe
  have run : Run failing [] (fun _ _ => True)
      (quashAfter failing [(['a'], some [background]), (['b'], some [background])]) _ :=
    Run.background (Run.background .start ['a'] [background] trivial (freshPids_of failing_distinct _ _ _) rfl rfl rfl rfl)
      ['b'] [background] trivial (freshPids_of failing_distinct _ _ _) rfl rfl rfl rfl
  have reaches := safe _ _ _ _ [] (typedKill ['9'] ['2']) ['9'] ['2'] run (digits_of_all rfl) (digits_of_all rfl) rfl _ _ _
    rfl rfl rfl (-1, 9) (by decide)
  exact absurd reaches.positive (by decide)

/-- The first `waitpid` takes a process. -/
def firstOver : Kernel := ⟨fun n => n + 1, fun n _ => if n = 0 then 1 else 0, fun _ _ _ => true⟩

/-- The poll takes the first process of the job and keeps its pid, because the second one still runs. -/
theorem signal_to_reaped : ∃ s h, Run firstOver [] (fun _ _ => True) s h ∧
    ¬ SafeKill firstOver s h [] (typedKill ['9'] ['1']) ['9'] ['1'] := by
  have run : Run firstOver [] (fun _ _ => True) (quashAfter firstOver [(['a'], some [background, background])]) _ :=
    Run.background .start ['a'] [background, background] trivial (freshPids_of running_distinct _ _ _) rfl rfl rfl rfl
  refine ⟨_, _, run, fun safe => ?_⟩
  obtain ⟨j, first, -, -, -, start, k, low, -, pid, unreaped⟩ :=
    (safe (digits_of_all rfl) (digits_of_all rfl) rfl _ _ _ rfl rfl rfl (1, 9) (by decide)).own
  have here : k = 0 := by
    change (k : ℤ) + 1 = 1 at pid
    omega
  exact unreaped ⟨(1, 2), by decide, here ▸ rfl, by omega⟩

/-- 4294967297 is 1 as an `int`. -/
theorem signal_by_cut_number : ∃ s h, Run running [] (Careful running) s h ∧
    ¬ SafeKill running s h [] (typedKill ['9'] "4294967297".toList) ['9'] "4294967297".toList := by
  have run : Run running [] (Careful running) (quashAfter running [(['a'], some [background])]) _ :=
    Run.background .start ['a'] [background] (running_careful _ _) (freshPids_of running_distinct _ _ _) rfl rfl rfl rfl
  refine ⟨_, _, run, fun safe => ?_⟩
  obtain ⟨j, first, mem, id, -⟩ :=
    (safe (digits_of_all rfl) (digits_of_all rfl) rfl _ _ _ rfl rfl rfl (1, 9) (by decide)).own
  obtain rfl : j = ⟨1, ['a'], [1]⟩ := List.mem_singleton.mp mem
  exact absurd id (by decide)

end OsLabs.Quash
