import OsLabs.Proofs.Quash.Polls

/-! # The table of background jobs

Any sequence of scripts, with any answers of the system, leaves the table with positive, strictly
increasing ids and the current job empty. A script drops jobs that are done, keeps the others in
their order, and either waits for each of its processes or adds one job that holds them all. A pid
may come back when its process is reaped while the job waits for another one: then two jobs list it.
-/

namespace OsLabs.Quash

variable {kernel : Kernel} {exited : ℕ → ℕ → Prop} {s s' : Shell} {added : List Job} {command : List Char}
  {holders : List CommandHolder}

/-- What the system does for one script: it answers each call of the poll, and gives no process a pid that
the table lists, in which the processes of a script in the background come last. -/
def Honest (kernel : Kernel) (exited : ℕ → ℕ → Prop) (s : Shell) (holders : List CommandHolder) : Prop :=
  (∀ call < (polled kernel s.bgJobs s.polls).2.2, s.polls ≤ call → kernel.Answers exited s.forks call) ∧
  (isExit holders = false → ∀ pid ∈ forked kernel s.forks holders.length,
    ∀ j ∈ (polled kernel s.bgJobs s.polls).1, pid ∉ j.pidList) ∧
  (isExit holders = false → isBackground holders = true → (forked kernel s.forks holders.length).Nodup)

instance [∀ n call, Decidable (exited n call)] : Decidable (Honest kernel exited s holders) :=
  inferInstanceAs (Decidable (_ ∧ _ ∧ _))

/-- The system is honest for each of the scripts that run one after another. -/
def Honestly (kernel : Kernel) (exited : ℕ → ℕ → Prop) : List Script → Shell → Prop
  | [], _ => True
  | script :: scripts, s => (∀ holders ∈ script.2, Honest kernel exited s holders) ∧
    ∀ s' ∈ runScript kernel script.1 script.2 s, Honestly kernel exited scripts s'

instance Honestly.instDecidable [∀ n call, Decidable (exited n call)] :
    ∀ (scripts : List Script) (s : Shell), Decidable (Honestly kernel exited scripts s)
  | [], _ => .isTrue trivial
  | script :: scripts, s =>
    have (s' : Shell) : Decidable (Honestly kernel exited scripts s') := instDecidable scripts s'
    inferInstanceAs (Decidable ((∀ holders ∈ script.2, Honest kernel exited s holders) ∧
      ∀ s' ∈ runScript kernel script.1 script.2 s, Honestly kernel exited scripts s'))

/-- Id, first process and command of the jobs that started. -/
def startedIn (messages : List Message) : List (ℤ × ℤ × List Char) := messages.filterMap fun
  | .started jobId pid cmd => some (jobId, pid, cmd)
  | .completed _ _ _ => none

/-- The same of the jobs that completed. -/
def completedIn (messages : List Message) : List (ℤ × ℤ × List Char) := messages.filterMap fun
  | .started _ _ _ => none
  | .completed jobId pid cmd => some (jobId, pid, cmd)

def Job.entry (j : Job) : ℤ × ℤ × List Char := (j.jobId, j.firstPid, j.cmd)

@[simp] theorem startedIn_append (a b : List Message) : startedIn (a ++ b) = startedIn a ++ startedIn b :=
  List.filterMap_append

@[simp] theorem completedIn_append (a b : List Message) : completedIn (a ++ b) = completedIn a ++ completedIn b :=
  List.filterMap_append

@[simp] theorem startedIn_started (jobs : List Job) : startedIn (jobs.map Job.started) = jobs.map Job.entry := by
  rw [startedIn, List.filterMap_map]
  exact congrFun (List.filterMap_eq_map' (f := Job.entry)) jobs

@[simp] theorem startedIn_completed (jobs : List Job) : startedIn (jobs.map Job.completed) = [] := by
  rw [startedIn, List.filterMap_map]
  exact List.filterMap_eq_nil_iff.mpr fun j _ => rfl

@[simp] theorem completedIn_completed (jobs : List Job) :
    completedIn (jobs.map Job.completed) = jobs.map Job.entry := by
  rw [completedIn, List.filterMap_map]
  exact congrFun (List.filterMap_eq_map' (f := Job.entry)) jobs

@[simp] theorem completedIn_started (jobs : List Job) : completedIn (jobs.map Job.started) = [] := by
  rw [completedIn, List.filterMap_map]
  exact List.filterMap_eq_nil_iff.mpr fun j _ => rfl

/-- The table lists the last process of each of its pids. -/
structure Recorded (kernel : Kernel) (forks : ℕ) (bgJobs : List Job) (first : ℤ → ℕ) : Prop where
  launched : Launched kernel forks bgJobs first
  latest : ∀ j ∈ bgJobs, ∀ n ∈ j.processes first, kernel.Latest forks n

/-- The jobs that started are those that completed and those of the table. -/
structure Accounted (kernel : Kernel) (s : Shell) : Prop where
  prompt : s.AtPrompt
  recorded : ∃ first, Recorded kernel s.forks s.bgJobs first
  entries : (startedIn s.messages).Perm (completedIn s.messages ++ s.bgJobs.map Job.entry)

theorem Accounted.initial (fds : Descriptors) : Accounted kernel (.initial fds) :=
  ⟨Shell.atPrompt_initial fds, ⟨fun _ => 0, .nil, List.forall_mem_nil _⟩, List.Perm.nil⟩

theorem Recorded.poll {first : ℤ → ℕ} (recorded : Recorded kernel s.forks s.bgJobs first)
    (reports : kernel.Reports exited) (honest : Honest kernel exited s holders) :
    Poll exited first s.polls (polled kernel s.bgJobs s.polls).2.2 s.bgJobs (polled kernel s.bgJobs s.polls).1
      (polled kernel s.bgJobs s.polls).2.1 := by
  refine polled_spec recorded.launched.own (Nat.le_refl _) fun j mem n held call low high => ?_
  exact (honest.1 call high low).tells reports (recorded.launched.made j mem n held) (recorded.latest j mem n held)

/-- Pids that the table does not list may come back. -/
theorem Recorded.more {forks more : ℕ} {bgJobs : List Job} {first : ℤ → ℕ}
    (recorded : Recorded kernel forks bgJobs first)
    (fresh : ∀ pid ∈ forked kernel forks more, ∀ j ∈ bgJobs, pid ∉ j.pidList) :
    Recorded kernel (forks + more) bgJobs first := by
  refine ⟨recorded.launched.mono (Nat.le_add_right forks more), fun j mem n held m below above same => ?_⟩
  rcases Nat.lt_or_ge m forks with old | new
  · exact recorded.latest j mem n held m old above same
  · apply fresh _ (mem_forked.mpr ⟨m, new, below, rfl⟩) j mem
    rw [recorded.launched.own j mem, same]
    exact List.mem_map_of_mem held

theorem Recorded.push {forks more : ℕ} {bgJobs : List Job} {j : Job} {first : ℤ → ℕ}
    (recorded : Recorded kernel forks bgJobs first) (number : NextNumber bgJobs j.jobId)
    (stored : j.pidList = forked kernel forks more)
    (fresh : ∀ pid ∈ forked kernel forks more, ∀ j ∈ bgJobs, pid ∉ j.pidList)
    (distinct : (forked kernel forks more).Nodup) :
    Recorded kernel (forks + more) (bgJobs ++ [j]) (Function.update first j.jobId forks) := by
  refine ⟨recorded.launched.push number stored, fun j' mem n held => ?_⟩
  rcases List.mem_append.mp mem with old | new
  · rw [number.processes_update old] at held
    exact (recorded.more fresh).latest j' old n held
  · rw [List.mem_singleton.mp new, Job.processes_update_self, stored, length_forked] at held
    intro m below above same
    have made := List.mem_range'_1.mp held
    have later := List.mem_range'_1.mpr ⟨Nat.le_trans made.1 (Nat.le_of_lt above), below⟩
    exact Nat.ne_of_gt above (List.inj_on_of_nodup_map distinct later held same)

theorem Recorded.script {first : ℤ → ℕ} (recorded : Recorded kernel s.forks s.bgJobs first)
    (honest : Honest kernel exited s holders) (poll : ScriptPoll kernel command holders s s' added) :
    ∃ first', Recorded kernel s'.forks s'.bgJobs first' := by
  obtain ⟨-, fresh, distinct⟩ := honest
  have sub := polled_sublist kernel s.bgJobs s.polls
  have kept : Recorded kernel s.forks (polled kernel s.bgJobs s.polls).1 first :=
    ⟨recorded.launched.sublist sub, fun j mem => recorded.latest j (sub.subset mem)⟩
  rw [poll.bgJobs, poll.forks]
  cases exits : isExit holders with
  | true =>
    have none : added = [] := by
      by_contra some
      exact Bool.false_ne_true ((poll.adds.mp some).1.symm.trans exits)
    rw [none, List.append_nil, if_pos rfl]
    exact ⟨first, kept⟩
  | false =>
    rw [if_neg Bool.false_ne_true]
    rcases List.eq_nil_or_concat' added with none | ⟨before, j, some⟩
    · rw [none, List.append_nil]
      exact ⟨first, kept.more (fresh exits)⟩
    · have alone : before = [] := by
        have length := poll.once
        rw [some, List.length_append, List.length_singleton] at length
        exact List.length_eq_zero_iff.mp (by omega)
      rw [alone, List.nil_append] at some
      subst some
      have isNew := List.mem_singleton_self j
      have background := (poll.adds.mp (List.cons_ne_nil j [])).2
      exact ⟨_, kept.push (poll.number j isNew) (poll.own j isNew).2 (fresh exits) (distinct exits background)⟩

theorem Accounted.script (accounted : Accounted kernel s) (reports : kernel.Reports exited)
    (honest : Honest kernel exited s holders) (prompt : s'.AtPrompt)
    (poll : ScriptPoll kernel command holders s s' added) : Accounted kernel s' := by
  obtain ⟨first, recorded⟩ := accounted.recorded
  refine ⟨prompt, recorded.script honest poll, ?_⟩
  have found := recorded.poll reports honest
  set kept := (polled kernel s.bgJobs s.polls).1 with kept_def
  set done := (polled kernel s.bgJobs s.polls).2.1 with done_def
  rw [poll.messages, poll.bgJobs, ← kept_def, ← done_def]
  simp only [startedIn_append, completedIn_append, startedIn_completed, startedIn_started, completedIn_completed,
    completedIn_started, List.append_nil, List.map_append]
  have table : (s.bgJobs.map Job.entry).Perm (done.map Job.entry ++ kept.map Job.entry) := by
    rw [← List.map_append]
    exact (found.each.symm.trans List.perm_append_comm).map Job.entry
  have old : (startedIn s.messages).Perm (completedIn s.messages ++ done.map Job.entry ++ kept.map Job.entry) := by
    rw [List.append_assoc]
    exact accounted.entries.trans (table.append_left _)
  rw [← List.append_assoc]
  exact old.append_right _

theorem Accounted.scripts {scripts : List Script} (accounted : Accounted kernel s) (reports : kernel.Reports exited)
    (honest : Honestly kernel exited scripts s) :
    ∃ s', runScripts kernel scripts s = some s' ∧ Accounted kernel s' := by
  induction scripts generalizing s with
  | nil => exact ⟨s, rfl, accounted⟩
  | cons script scripts ih =>
    obtain ⟨command, holders⟩ := script
    obtain ⟨here, behind⟩ := honest
    rw [runScripts]
    cases holders with
    | none => exact ih accounted (behind s rfl)
    | some holders =>
      obtain ⟨s₁, ran, prompt, added, poll⟩ := runScript_poll kernel command holders accounted.prompt
      obtain ⟨s', rest, accounted'⟩ := ih (accounted.script reports (here holders rfl) prompt poll) (behind s₁ ran)
      refine ⟨s', ?_, accounted'⟩
      rw [ran]
      exact rest

/-- After any number of scripts, and what the next one reports. `kept` and `done` are the jobs that its poll
finds running and over; those that have exited before the poll are done, and those that are done have
exited when it ends. -/
theorem completed_once (reports : kernel.Reports exited) (fds : Descriptors) (scripts : List Script)
    (honestly : Honestly kernel exited scripts (.initial fds)) :
    ∃ s first, runScripts kernel scripts (.initial fds) = some s ∧ Recorded kernel s.forks s.bgJobs first ∧
      (startedIn s.messages).Perm (completedIn s.messages ++ s.bgJobs.map Job.entry) ∧
      ∀ command holders, Honest kernel exited s holders →
        ∃ s' kept done added, runScript kernel command (some holders) s = some s' ∧
          s'.bgJobs = kept ++ added ∧
          s'.messages = s.messages ++ done.map Job.completed ++ added.map Job.started ∧ added.length ≤ 1 ∧
          Poll exited first s.polls s'.polls s.bgJobs kept done ∧
          (∀ j ∈ s.bgJobs, (∀ n ∈ j.processes first, exited n s.polls) → j ∈ done) ∧
          ∀ j ∈ done, ∀ n ∈ j.processes first, exited n s'.polls := by
  obtain ⟨s, ran, accounted⟩ := (Accounted.initial fds).scripts reports honestly
  obtain ⟨first, recorded⟩ := accounted.recorded
  refine ⟨s, first, ran, recorded, accounted.entries, ?_⟩
  intro command holders honest
  obtain ⟨s', ran', -, added, poll⟩ := runScript_poll kernel command holders accounted.prompt
  have found := recorded.poll reports honest
  rw [← poll.polls] at found
  refine ⟨s', _, _, added, ran', poll.bgJobs, poll.messages, poll.once, found, ?_, ?_⟩
  · intro j mem ended
    exact found.done_of_exited reports mem ended
  · intro j mem n held
    exact found.exited_of_done reports mem held

/-- The second process runs for two calls, the fifth, with the pid of the first, for five. -/
def reapedInTurn : Kernel where
  fork n := if n = 4 then 1 else n + 1
  waitpid call pid :=
    if pid = 1 then if call = 4 then 0 else if call = 0 ∨ call = 5 then 1 else -1
    else if pid = 2 ∧ call < 2 then 0
    else if pid = 2 ∧ call < 4 then 2
    else -1
  opens _ _ _ := true

theorem reapedInTurn_reports : reapedInTurn.Reports fun n call => (n = 1 → 2 ≤ call) ∧ (n = 4 → 5 ≤ call) where
  forks n := by
    simp only [reapedInTurn]
    split
    · exact Int.one_pos
    · exact Int.natCast_succ_pos n
  still n call ended := ⟨fun second => (ended.1 second).step, fun fifth => (ended.2 fifth).step⟩

/-- A job of two processes, one reaped by the poll of the second script and the other by that of the third,
and a job whose process has a pid of the first one. -/
theorem completed_once_reaped :
    let background : CommandHolder := ⟨none, none, ⟨false, false, false, false, false, true⟩, .generic⟩
    let next : Script := (['b'], some [⟨none, none, ⟨false, false, false, false, false, false⟩, .echo⟩])
    let session := [(['a'], some [background, background]), next, next, (['c'], some [background]), next]
    (∃ s first, runScripts reapedInTurn session (.initial []) = some s ∧
      Recorded reapedInTurn s.forks s.bgJobs first ∧
      (startedIn s.messages).Perm (completedIn s.messages ++ s.bgJobs.map Job.entry)) ∧
    (runScripts reapedInTurn session (.initial [])).map (·.messages) =
      some [.started 1 1 ['a'], .completed 1 1 ['a'], .started 1 1 ['c']] ∧
    (runScripts reapedInTurn (session ++ [next]) (.initial [])).map (·.messages) =
      some [.started 1 1 ['a'], .completed 1 1 ['a'], .started 1 1 ['c'], .completed 1 1 ['c']] := by
  intro background next session
  obtain ⟨s, first, ran, recorded, entries, -⟩ := completed_once reapedInTurn_reports [] session (by decide)
  exact ⟨⟨s, first, ran, recorded, entries⟩, by decide, by decide⟩

end OsLabs.Quash
