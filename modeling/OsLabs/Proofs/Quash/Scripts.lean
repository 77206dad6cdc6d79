import Mathlib.Logic.ExistsUnique
import OsLabs.Proofs.Quash.Jobs

/-! # Scripts

One call of `run_script`: it never aborts, and what it does to the job table, to the processes of
the script, and to pipes and descriptors, as far as these do not depend on what the commands do to
descriptors.
-/

namespace OsLabs.Quash

variable {kernel : Kernel} {command : List Char} {s s' : Shell}

/-- The shells agree on pipes, descriptors and children. -/
structure SameDescriptors (s s' : Shell) : Prop where
  pipes : s'.pipes = s.pipes
  curPipe : s'.curPipe = s.curPipe
  oldPipe : s'.oldPipe = s.oldPipe
  fds : s'.fds = s.fds
  pipesMade : s'.pipesMade = s.pipesMade
  children : s'.children = s.children
  closes : s'.closes = s.closes

theorem SameDescriptors.refl (s : Shell) : SameDescriptors s s := ⟨rfl, rfl, rfl, rfl, rfl, rfl, rfl⟩

/-- What a call of `run_script` does to pipes, descriptors and children. -/
inductive ScriptPipes (kernel : Kernel) (s s' : Shell) : Option (List CommandHolder) → Prop
  | null (same : SameDescriptors s s') : ScriptPipes kernel s s' none
  | exit {holders : List CommandHolder} (exits : isExit holders = true) (same : SameDescriptors s s') :
      ScriptPipes kernel s s' (some holders)
  | ran {holders : List CommandHolder} (stays : isExit holders = false) {s₁ s₂ : Shell}
      (before : SameDescriptors s s₁)
      (commands : createProcesses kernel holders (s₁.pipe s₁.oldPipe) = some s₂)
      (after : SameDescriptors (s₂.closePipe s₂.oldPipe) s') : ScriptPipes kernel s s' (some holders)

/-- What a call of `run_script` does to the table and to the processes of the script. -/
inductive ScriptJobs (kernel : Kernel) (command : List Char) (s s' : Shell) :
    Option (List CommandHolder) → Prop
  | null (unchanged : s' = s) : ScriptJobs kernel command s s' none
  | exit {holders : List CommandHolder} (exits : isExit holders = true)
      (survivors : s'.bgJobs.Sublist s.bgJobs) (forks : s'.forks = s.forks) :
      ScriptJobs kernel command s s' (some holders)
  | foreground {holders : List CommandHolder} (stays : isExit holders = false)
      (waits : isBackground holders = false) (survivors : s'.bgJobs.Sublist s.bgJobs)
      (forks : s'.forks = s.forks + holders.length)
      (waited : s'.waits = s.waits ++ forked kernel s.forks holders.length) :
      ScriptJobs kernel command s s' (some holders)
  | background {holders : List CommandHolder} (stays : isExit holders = false)
      (background : isBackground holders = true) {kept : List Job} {j : Job}
      (survivors : kept.Sublist s.bgJobs) (added : s'.bgJobs = kept ++ [j])
      (number : NextNumber kept j.jobId) (cmd : j.cmd = command)
      (forks : s'.forks = s.forks + holders.length)
      (stored : j.pidList = forked kernel s.forks holders.length)
      (once : ∀ pid ∈ forked kernel s.forks holders.length,
        (∃! j', j' ∈ s'.bgJobs ∧ pid ∈ j'.pidList) ↔ ∀ j₀ ∈ kept, pid ∉ j₀.pidList) :
      ScriptJobs kernel command s s' (some holders)

theorem createGlobals_spec (s : Shell) : ∃ bgJobs, bgJobs.Sublist s.bgJobs ∧
    ∃ currentJob, (s.currentJob = [] → currentJob = []) ∧
      s.createGlobals = { s with bgJobs, currentJob, globalsCreated := true } := by
  rw [Shell.createGlobals]
  split
  · next created => exact ⟨s.bgJobs, List.Sublist.refl _, s.currentJob, id, by rw [← created]⟩
  · exact ⟨[], List.nil_sublist _, [], fun _ => rfl, rfl⟩

/-- The poll at the start of a script. -/
theorem checked_spec (kernel : Kernel) (table : JobTable s.bgJobs) (idle : s.currentJob = []) :
    ∃ s₁, checkJobsBgStatus kernel s.createGlobals = some s₁ ∧ s₁.bgJobs.Sublist s.bgJobs ∧
      s₁.currentJob = [] ∧ s₁.forks = s.forks ∧ s₁.waits = s.waits ∧ SameDescriptors s s₁ := by
  obtain ⟨bgJobs, sub, currentJob, still, created⟩ := createGlobals_spec s
  have populated : ∀ j ∈ s.createGlobals.bgJobs, j.pidList ≠ [] := by
    rw [created]
    exact (table.sublist sub).populated
  have checked := checkJobsBgStatus_spec kernel populated
  rw [created] at checked ⊢
  have sub' := polled_sublist kernel bgJobs s.polls
  exact ⟨_, checked, sub'.trans sub, still idle, rfl, rfl, ⟨rfl, rfl, rfl, rfl, rfl, rfl, rfl⟩⟩

/-- The commands of a script leave the table as the poll left it. -/
theorem commands_spec (kernel : Kernel) (holders : List CommandHolder) (table : JobTable s.bgJobs)
    (idle : s.currentJob = []) : ∃ s₁ s₂, checkJobsBgStatus kernel s.createGlobals = some s₁ ∧
      createProcesses kernel holders (s₁.pipe s₁.oldPipe) = some s₂ ∧ s₁.bgJobs.Sublist s.bgJobs ∧
      s₁.currentJob = [] ∧ s₁.forks = s.forks ∧ SameDescriptors s s₁ ∧ s₂.bgJobs = s₁.bgJobs ∧
      s₂.waits = s.waits ∧ s₂.forks = s.forks + holders.length ∧
      s₂.currentJob = forked kernel s.forks holders.length := by
  obtain ⟨s₁, checked, sub, idle', forks, waits, same⟩ := checked_spec kernel table idle
  obtain ⟨s₂, created, ran⟩ := createProcesses_spec kernel holders (s₁.pipe s₁.oldPipe)
  have started : (s₁.pipe s₁.oldPipe).forks = s.forks := forks
  have empty : (s₁.pipe s₁.oldPipe).currentJob = [] := idle'
  have forks' := ran.forks
  have currentJob' := ran.currentJob
  rw [started] at forks' currentJob'
  rw [empty, List.nil_append] at currentJob'
  exact ⟨s₁, s₂, checked, created, sub, idle', forks, same, ran.bgJobs, ran.waits.trans waits, forks', currentJob'⟩

/-- A script in the background has a process. -/
theorem forked_ne_nil {holders : List CommandHolder} {first : ℕ} (background : isBackground holders = true) :
    forked kernel first holders.length ≠ [] := by
  rw [forked]
  intro none
  rw [List.map_eq_nil_iff, List.range'_eq_nil_iff, List.length_eq_zero_iff] at none
  rw [none] at background
  exact Bool.false_ne_true background

/-- One job of the table lists a pid of the new job if no other job does. -/
theorem holder_unique {kept : List Job} {j : Job} {pid : ℤ} (number : NextNumber kept j.jobId)
    (listed : pid ∈ j.pidList) :
    (∃! j', j' ∈ pushBack kept j ∧ pid ∈ j'.pidList) ↔ ∀ j₀ ∈ kept, pid ∉ j₀.pidList := by
  have isNew : j ∈ pushBack kept j := List.mem_append_right _ (List.mem_singleton_self _)
  constructor
  · rintro ⟨j', -, unique⟩ j₀ member holds
    have same : j₀ = j := by
      rw [unique j₀ ⟨List.mem_append_left _ member, holds⟩, unique j ⟨isNew, listed⟩]
    have below := number.above j₀ member
    rw [same] at below
    exact Int.lt_irrefl _ below
  · intro fresh
    refine ⟨j, ⟨isNew, listed⟩, ?_⟩
    rintro j' ⟨member, holds⟩
    rcases List.mem_append.mp member with old | new
    · exact (fresh j' old holds).elim
    · exact List.mem_singleton.mp new

theorem runScript_spec (kernel : Kernel) (command : List Char) (holders : Option (List CommandHolder))
    (table : JobTable s.bgJobs) (idle : s.currentJob = []) :
    ∃ s', runScript kernel command holders s = some s' ∧ JobTable s'.bgJobs ∧ s'.currentJob = [] ∧
      ScriptJobs kernel command s s' holders ∧ ScriptPipes kernel s s' holders := by
  cases holders with
  | none => exact ⟨s, rfl, table, idle, .null rfl, .null (.refl s)⟩
  | some holders =>
    obtain ⟨s₁, s₂, checked, created, sub, idle₁, forks₁, same, bgJobs, waits, forks, currentJob⟩ :=
      commands_spec kernel holders table idle
    have kept : JobTable s₂.bgJobs := bgJobs ▸ table.sublist sub
    simp only [runScript, checked, created, Option.bind_eq_bind, Option.bind_some]
    cases exits : isExit holders with
    | true => exact ⟨s₁, rfl, table.sublist sub, idle₁, .exit exits sub forks₁, .exit exits same⟩
    | false =>
      rw [if_neg Bool.false_ne_true]
      cases background : isBackground holders with
      | false =>
        rw [if_neg Bool.false_ne_true, waitForeground_eq]
        refine ⟨_, rfl, kept, rfl, .foreground exits background (bgJobs ▸ sub) forks ?_,
          .ran exits same created ⟨rfl, rfl, rfl, rfl, rfl, rfl, rfl⟩⟩
        change s₂.waits ++ s₂.currentJob = _
        rw [waits, currentJob]
      | true =>
        rw [if_pos rfl]
        have populated : s₂.currentJob ≠ [] := currentJob ▸ forked_ne_nil background
        obtain ⟨jobId, number, started⟩ := startJob_spec (s := s₂.closePipe s₂.oldPipe) command
          kept populated
        refine ⟨_, started, kept.push number populated, rfl, ?_,
          .ran exits same created ⟨rfl, rfl, rfl, rfl, rfl, rfl, rfl⟩⟩
        refine .background exits background (bgJobs ▸ sub) rfl number rfl forks currentJob ?_
        exact fun pid isForked => holder_unique number (currentJob ▸ isForked)

/-- The processes of the shell when a script returns, by the calls of `fork` that made them: the jobs that
stay keep theirs, and each new one has been waited for or belongs to the last job and no other. -/
structure ScriptProcesses (kernel : Kernel) (first first' : ℤ → ℕ) (s s' : Shell) : Prop where
  launched : Launched kernel s'.forks s'.bgJobs first'
  kept : ∀ j ∈ s'.bgJobs, (j ∈ s.bgJobs ∧ j.processes first' = j.processes first) ∨ s.forks ≤ first' j.jobId
  placed : ∀ n, s.forks ≤ n → n < s'.forks → kernel.fork n ∈ s'.waits.drop s.waits.length ∨
    ∃ j, peekBack s'.bgJobs = some j ∧ n ∈ j.processes first' ∧ ∀ j' ∈ s'.bgJobs, n ∈ j'.processes first' → j' = j

theorem ScriptJobs.processes {holders : Option (List CommandHolder)} {first : ℤ → ℕ}
    (jobs : ScriptJobs kernel command s s' holders) (launched : Launched kernel s.forks s.bgJobs first) :
    ∃ first', ScriptProcesses kernel first first' s s' := by
  have survived {bgJobs : List Job} (sub : bgJobs.Sublist s.bgJobs) (j : Job) (member : j ∈ bgJobs) :
      (j ∈ s.bgJobs ∧ j.processes first = j.processes first) ∨ s.forks ≤ first j.jobId :=
    .inl ⟨sub.subset member, rfl⟩
  cases jobs with
  | null unchanged =>
    rw [unchanged]
    exact ⟨first, launched, survived (.refl _), fun n made made' => absurd made (Nat.not_le_of_lt made')⟩
  | exit _ survivors forks =>
    refine ⟨first, ?_, survived survivors, fun n made made' => ?_⟩
    · rw [forks]
      exact launched.sublist survivors
    · rw [forks] at made'
      exact absurd made (Nat.not_le_of_lt made')
  | foreground _ _ survivors forks waited =>
    refine ⟨first, ?_, survived survivors, fun n made made' => .inl ?_⟩
    · rw [forks]
      exact (launched.sublist survivors).mono (Nat.le_add_right _ _)
    · rw [forks] at made'
      rw [waited, List.drop_left]
      exact mem_forked.mpr ⟨n, made, made', rfl⟩
  | @background holders _ _ kept j survivors added number _ forks stored _ =>
    have pushed := (launched.sublist survivors).push number stored
    have length : j.pidList.length = holders.length := by rw [stored, length_forked]
    refine ⟨Function.update first j.jobId s.forks, ?_, fun j' member => ?_, fun n made made' => .inr ?_⟩
    · rw [forks, added]
      exact pushed
    · rw [added] at member
      rcases List.mem_append.mp member with old | new
      · exact .inl ⟨survivors.subset old, number.processes_update old⟩
      · rw [List.mem_singleton.mp new, Function.update_self]
        exact .inr (Nat.le_refl _)
    · have isNew : j ∈ s'.bgJobs := added ▸ List.mem_append_right _ (List.mem_singleton_self _)
      have held : n ∈ j.processes (Function.update first j.jobId s.forks) := by
        rw [Job.processes_update_self, length]
        exact List.mem_range'_1.mpr ⟨made, forks ▸ made'⟩
      refine ⟨j, ?_, held, fun j' member held' => ?_⟩
      · rw [added, peekBack, List.getLast?_concat]
      · rw [added] at isNew member
        exact pushed.apart j isNew j' member n held held'

/-- What every script keeps holds after any number of scripts. -/
theorem runScripts_inv {Inv : Shell → Prop} (kept : ∀ s command holders, Inv s →
    ∃ s', runScript kernel command holders s = some s' ∧ Inv s') (scripts : List Script) (inv : Inv s) :
    ∃ s', runScripts kernel scripts s = some s' ∧ Inv s' := by
  induction scripts generalizing s with
  | nil => exact ⟨s, rfl, inv⟩
  | cons script scripts ih =>
    obtain ⟨s₁, ran, inv₁⟩ := kept s script.1 script.2 inv
    obtain ⟨s', rest, inv'⟩ := ih inv₁
    refine ⟨s', ?_, inv'⟩
    rw [runScripts, ran]
    exact rest

end OsLabs.Quash
