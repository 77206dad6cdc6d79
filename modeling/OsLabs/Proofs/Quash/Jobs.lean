import Mathlib.Data.List.Nodup
import OsLabs.Model.Quash.Execute

/-! # Jobs

What each function does to the job table and the current job, one specification for each. The loops
that pop and push every job keep the order; only `check_jobs_bg_status` drops jobs.
-/

namespace OsLabs.Quash

variable {kernel : Kernel} {s s' : Shell} {bgJobs front back : List Job} {j : Job}

@[simp] theorem duplicatePidDeque_eq (pidList : List ℤ) : duplicatePidDeque pidList = (pidList, pidList) := by
  have built (pids deq ret : List ℤ) : pids.foldl (fun both pid =>
      (pushBack both.1 pid, pushBack both.2 pid)) (deq, ret) = (deq ++ pids, ret ++ pids) := by
    induction pids generalizing deq ret with
    | nil => rw [List.foldl_nil, List.append_nil, List.append_nil]
    | cons pid pids ih =>
      rw [List.foldl_cons, ih, pushBack, pushBack, List.append_assoc, List.append_assoc]
      rfl
  exact built pidList [] []

/-! ## The table -/

/-- Ids are positive and strictly increasing, and every job has a process. -/
structure JobTable (bgJobs : List Job) : Prop where
  positive : ∀ j ∈ bgJobs, 1 ≤ j.jobId
  increasing : bgJobs.Pairwise fun j j' => j.jobId < j'.jobId
  populated : ∀ j ∈ bgJobs, j.pidList ≠ []

/-- One more than every id of the table, 1 if it has none. -/
structure NextNumber (bgJobs : List Job) (jobId : ℤ) : Prop where
  empty : bgJobs = [] → jobId = 1
  above : ∀ j ∈ bgJobs, j.jobId < jobId
  next : bgJobs ≠ [] → ∃ j ∈ bgJobs, jobId = j.jobId + 1

theorem JobTable.nil : JobTable [] := ⟨nofun, List.Pairwise.nil, nofun⟩

theorem JobTable.sublist (table : JobTable bgJobs) (sub : back.Sublist bgJobs) : JobTable back :=
  ⟨fun j member => table.positive j (sub.subset member), table.increasing.sublist sub,
    fun j member => table.populated j (sub.subset member)⟩

theorem JobTable.eq_of_jobId {j' : Job} (table : JobTable bgJobs) (mem : j ∈ bgJobs) (mem' : j' ∈ bgJobs)
    (same : j.jobId = j'.jobId) : j = j' := by
  have ids : (bgJobs.map Job.jobId).Nodup := List.pairwise_map.mpr (table.increasing.imp Int.ne_of_lt)
  exact List.inj_on_of_nodup_map ids mem mem' same

/-- The last job has the greatest id. -/
theorem getNextJobNumber_spec (table : JobTable bgJobs) :
    ∃ jobId, getNextJobNumber bgJobs = some jobId ∧ NextNumber bgJobs jobId := by
  rcases List.eq_nil_or_concat' bgJobs with rfl | ⟨front, last, rfl⟩
  · exact ⟨1, rfl, fun _ => rfl, nofun, fun nonempty => (nonempty rfl).elim⟩
  · refine ⟨last.jobId + 1, ?_, fun empty => ?_, fun j member => ?_, fun _ => ?_⟩
    · change getNextJobNumber (pushBack front last) = _
      rw [getNextJobNumber, if_neg (pushBack_ne_nil front last), pushBack, peekBack, List.getLast?_concat]
      rfl
    · exact (pushBack_ne_nil front last empty).elim
    · rcases List.mem_append.mp member with inFront | isLast
      · have below := (List.pairwise_append.mp table.increasing).2.2 j inFront last (List.mem_singleton_self _)
        omega
      · rw [List.mem_singleton.mp isLast]
        exact Int.lt_succ last.jobId
    · exact ⟨last, List.mem_append_right _ (List.mem_singleton_self _), rfl⟩

theorem JobTable.push (table : JobTable bgJobs) (next : NextNumber bgJobs j.jobId)
    (populated : j.pidList ≠ []) : JobTable (pushBack bgJobs j) where
  positive j' member := by
    rcases List.mem_append.mp member with old | new
    · exact table.positive j' old
    · rw [List.mem_singleton.mp new]
      by_cases empty : bgJobs = []
      · exact Int.le_of_eq (next.empty empty).symm
      · obtain ⟨j₀, old, same⟩ := next.next empty
        have positive := table.positive j₀ old
        omega
  increasing := by
    refine List.pairwise_append.mpr ⟨table.increasing, List.pairwise_singleton .., fun j₀ old j' new => ?_⟩
    rw [List.mem_singleton.mp new]
    exact next.above j₀ old
  populated j' member := by
    rcases List.mem_append.mp member with old | new
    · exact table.populated j' old
    · rw [List.mem_singleton.mp new]
      exact populated

/-! ## The loops over the table -/

/-- What the loop of `check_jobs_bg_status` finds from call `polls` of `waitpid` on: the jobs that stay,
those that are done, and the number of calls. -/
def polled (kernel : Kernel) : List Job → ℕ → List Job × List Job × ℕ
  | [], polls => ([], [], polls)
  | j :: jobs, polls =>
    let asked := pollPids kernel j.pidList polls
    let rest := polled kernel jobs asked.2
    if asked.1 then (rest.1, j :: rest.2.1, rest.2.2) else (j :: rest.1, rest.2)

theorem polled_sublist (kernel : Kernel) (jobs : List Job) (polls : ℕ) :
    (polled kernel jobs polls).1.Sublist jobs := by
  induction jobs generalizing polls with
  | nil => exact List.Sublist.slnil
  | cons j jobs ih =>
    rw [polled]
    split
    · exact (ih _).cons j
    · exact (ih _).cons_cons j

/-- The process that the messages about a job name. -/
def Job.firstPid (j : Job) : ℤ := j.pidList.headD 0

def Job.started (j : Job) : Message := .started j.jobId j.firstPid j.cmd

def Job.completed (j : Job) : Message := .completed j.jobId j.firstPid j.cmd

theorem Job.peekFront_pidList (populated : j.pidList ≠ []) : peekFront j.pidList = some j.firstPid := by
  obtain ⟨firstPid, pids, hasPids⟩ := List.exists_cons_of_ne_nil populated
  rw [Job.firstPid, hasPids]
  rfl

/-- The jobs in front are looked at; those that stay go to the back. -/
theorem checkJobs_spec (kernel : Kernel) (s : Shell) (split : s.bgJobs = front ++ back)
    (populated : ∀ j ∈ front, j.pidList ≠ []) :
    checkJobs kernel front.length s = some { s with
      bgJobs := back ++ (polled kernel front s.polls).1
      polls := (polled kernel front s.polls).2.2
      messages := s.messages ++ (polled kernel front s.polls).2.1.map Job.completed } := by
  induction front generalizing s back with
  | nil =>
    rw [polled, List.append_nil, List.map_nil, List.append_nil, ← List.nil_append back, ← split]
    rfl
  | cons j front ih =>
    obtain ⟨here, behind⟩ := List.forall_mem_cons.mp populated
    have popped : popFront s.bgJobs = some (j, front ++ back) := by
      rw [split]
      rfl
    rw [List.length_cons, checkJobs, popped, polled]
    simp only [Option.bind_eq_bind, Option.bind_some, duplicatePidDeque_eq, Job.peekFront_pidList here]
    cases ended : (pollPids kernel j.pidList s.polls).1 with
    | true =>
      rw [if_pos rfl, if_pos rfl]
      have rest := ih { s with
        bgJobs := front ++ back
        polls := (pollPids kernel j.pidList s.polls).2
        messages := s.messages ++ [j.completed] } rfl behind
      simp only [List.append_assoc] at rest
      exact rest
    | false =>
      rw [if_neg Bool.false_ne_true, if_neg Bool.false_ne_true]
      have rest := ih { s with
        bgJobs := pushBack (front ++ back) j
        polls := (pollPids kernel j.pidList s.polls).2 } (List.append_assoc front back [j]) behind
      rw [List.append_assoc] at rest
      exact rest

theorem checkJobsBgStatus_spec (kernel : Kernel) (populated : ∀ j ∈ s.bgJobs, j.pidList ≠ []) :
    checkJobsBgStatus kernel s = some { s with
      bgJobs := (polled kernel s.bgJobs s.polls).1
      polls := (polled kernel s.bgJobs s.polls).2.2
      messages := s.messages ++ (polled kernel s.bgJobs s.polls).2.1.map Job.completed } :=
  checkJobs_spec kernel s (List.append_nil s.bgJobs).symm populated

/-- The signals of `run_kill` to the jobs with an id. -/
def signalsTo (signal jobId : ℤ) (jobs : List Job) : List (ℤ × ℤ) :=
  (jobs.filter (·.jobId = jobId)).flatMap fun j => j.pidList.map fun pid => (pid, signal)

theorem signalsTo_cons (signal jobId : ℤ) (j : Job) (jobs : List Job) : signalsTo signal jobId (j :: jobs) =
    (if j.jobId = jobId then j.pidList.map fun pid => (pid, signal) else []) ++ signalsTo signal jobId jobs := by
  rw [signalsTo, List.filter_cons]
  split
  case isTrue here =>
    rw [if_pos (of_decide_eq_true here)]
    rfl
  case isFalse other =>
    rw [if_neg fun same => other (decide_eq_true same)]
    rfl

theorem mem_signalsTo {signal jobId pid n : ℤ} {jobs : List Job} : (pid, n) ∈ signalsTo signal jobId jobs ↔
    n = signal ∧ ∃ j ∈ jobs, j.jobId = jobId ∧ pid ∈ j.pidList := by
  simp only [signalsTo, List.mem_flatMap, List.mem_filter, List.mem_map, Prod.mk.injEq, decide_eq_true_eq]
  constructor
  · rintro ⟨j, ⟨mem, id⟩, pid', pid_mem, rfl, rfl⟩
    exact ⟨rfl, j, mem, id, pid_mem⟩
  · rintro ⟨rfl, j, mem, id, pid_mem⟩
    exact ⟨j, ⟨mem, id⟩, pid, pid_mem, rfl, rfl⟩

/-- Every job goes to the back. -/
theorem killJobs_spec (signal jobId : ℤ) (s : Shell) (split : s.bgJobs = front ++ back) :
    killJobs signal jobId front.length s =
      some { s with bgJobs := back ++ front, signals := s.signals ++ signalsTo signal jobId front } := by
  induction front generalizing s back with
  | nil =>
    rw [List.append_nil, ← List.nil_append back, ← split]
    exact congrArg some (by rw [signalsTo, List.filter_nil, List.flatMap_nil, List.append_nil])
  | cons j front ih =>
    have popped : popFront s.bgJobs = some (j, front ++ back) := by
      rw [split]
      rfl
    have moved : back ++ j :: front = (back ++ [j]) ++ front := by
      rw [List.append_assoc]
      rfl
    rw [List.length_cons, killJobs, popped, moved]
    simp only [Option.bind_eq_bind, Option.bind_some, duplicatePidDeque_eq]
    split
    case isTrue here =>
      have rest := ih { s with
        bgJobs := pushBack (front ++ back) j
        signals := s.signals ++ j.pidList.map fun pid => (pid, signal) } (List.append_assoc front back [j])
      rw [rest, signalsTo_cons, if_pos here, ← List.append_assoc]
    case isFalse other =>
      have rest := ih { s with bgJobs := pushBack (front ++ back) j } (List.append_assoc front back [j])
      rw [rest, signalsTo_cons, if_neg other, List.nil_append]

theorem runKill_spec (signal jobId : ℤ) (s : Shell) :
    runKill signal jobId s = some { s with signals := s.signals ++ signalsTo signal jobId s.bgJobs } :=
  killJobs_spec signal jobId s (List.append_nil s.bgJobs).symm

/-! ## Processes -/

theorem parentRunCommand_spec (cmd : Command) (s : Shell) :
    ∃ signals, parentRunCommand cmd s = some { s with signals } := by
  cases cmd with
  | kill sig job => exact ⟨_, runKill_spec sig job s⟩
  | _ => exact ⟨s.signals, rfl⟩

/-- The shell after `create_process`, but for the signals it sent. -/
def Shell.process (kernel : Kernel) (holder : CommandHolder) (s : Shell) : Shell :=
  { ((s.pipe s.curPipe).fork kernel holder).closePipe s.oldPipe with
    oldPipe := s.curPipe, curPipe := (s.curPipe + 1) % 2 }

theorem createProcess_spec (kernel : Kernel) (holder : CommandHolder) (s : Shell) :
    ∃ signals, createProcess kernel holder s = some { s.process kernel holder with signals } := by
  obtain ⟨signals, ran⟩ := parentRunCommand_spec holder.cmd ((s.pipe s.curPipe).fork kernel holder)
  refine ⟨signals, ?_⟩
  rw [createProcess, ran]
  rfl

theorem createProcess_kill (kernel : Kernel) {holder : CommandHolder} {sig job : ℤ} (cmd : holder.cmd = .kill sig job)
    (s : Shell) : createProcess kernel holder s =
      some { s.process kernel holder with signals := s.signals ++ signalsTo sig job s.bgJobs } := by
  rw [createProcess, cmd, parentRunCommand, runKill_spec]
  rfl

/-- What `n` calls of `fork` return, from call `first` on. -/
def forked (kernel : Kernel) (first n : ℕ) : List ℤ := (List.range' first n).map kernel.fork

theorem mem_forked {pid : ℤ} {first n : ℕ} :
    pid ∈ forked kernel first n ↔ ∃ k, first ≤ k ∧ k < first + n ∧ kernel.fork k = pid := by
  simp only [forked, List.mem_map, List.mem_range'_1, and_assoc]

theorem length_forked (kernel : Kernel) (first n : ℕ) : (forked kernel first n).length = n := by
  rw [forked, List.length_map, List.length_range']

/-- After `n` commands: their pids are in the current job, and the table is as before. -/
structure RanCommands (kernel : Kernel) (n : ℕ) (s s' : Shell) : Prop where
  bgJobs : s'.bgJobs = s.bgJobs
  waits : s'.waits = s.waits
  polls : s'.polls = s.polls
  messages : s'.messages = s.messages
  globalsCreated : s'.globalsCreated = s.globalsCreated
  forks : s'.forks = s.forks + n
  currentJob : s'.currentJob = s.currentJob ++ forked kernel s.forks n

/-- The loop of `run_script`. -/
theorem createProcesses_spec (kernel : Kernel) (holders : List CommandHolder) (s : Shell) :
    ∃ s', createProcesses kernel holders s = some s' ∧ RanCommands kernel holders.length s s' := by
  induction holders generalizing s with
  | nil => exact ⟨s, rfl, rfl, rfl, rfl, rfl, rfl, rfl, (List.append_nil _).symm⟩
  | cons holder holders ih =>
    obtain ⟨signals, created⟩ := createProcess_spec kernel holder s
    obtain ⟨s', rest, ran⟩ := ih { s.process kernel holder with signals }
    refine ⟨s', ?_, ran.bgJobs, ran.waits, ran.polls, ran.messages, ran.globalsCreated, ?_, ?_⟩
    · rw [createProcesses, created]
      exact rest
    · rw [ran.forks, List.length_cons, Nat.add_comm holders.length, ← Nat.add_assoc]
      rfl
    · rw [ran.currentJob, forked, List.length_cons, forked, List.range'_succ, List.map_cons]
      exact List.append_assoc s.currentJob [kernel.fork s.forks] _

/-- The calls of `fork` that made the processes of a job; `first` has the first one for each id. -/
def Job.processes (first : ℤ → ℕ) (j : Job) : List ℕ := List.range' (first j.jobId) j.pidList.length

/-- Each job of the table has processes of its own, with their pids in the order of the calls. -/
structure Launched (kernel : Kernel) (forks : ℕ) (bgJobs : List Job) (first : ℤ → ℕ) : Prop where
  own : ∀ j ∈ bgJobs, j.pidList = (j.processes first).map kernel.fork
  made : ∀ j ∈ bgJobs, ∀ n ∈ j.processes first, n < forks
  apart : ∀ j ∈ bgJobs, ∀ j' ∈ bgJobs, ∀ n ∈ j.processes first, n ∈ j'.processes first → j' = j

section Launched

variable {forks : ℕ} {first : ℤ → ℕ}

theorem Launched.nil : Launched kernel forks [] first := ⟨nofun, nofun, nofun⟩

theorem Launched.sublist (launched : Launched kernel forks bgJobs first) (sub : back.Sublist bgJobs) :
    Launched kernel forks back first where
  own j member := launched.own j (sub.subset member)
  made j member := launched.made j (sub.subset member)
  apart j member j' member' := launched.apart j (sub.subset member) j' (sub.subset member')

theorem Launched.mono (launched : Launched kernel forks bgJobs first) {later : ℕ} (le : forks ≤ later) :
    Launched kernel later bgJobs first where
  own := launched.own
  made j member n held := Nat.lt_of_lt_of_le (launched.made j member n held) le
  apart := launched.apart

theorem Job.processes_update_self (forks : ℕ) (j : Job) :
    j.processes (Function.update first j.jobId forks) = List.range' forks j.pidList.length := by
  rw [processes, Function.update_self]

theorem NextNumber.processes_update {j₀ : Job} (next : NextNumber bgJobs j.jobId) (member : j₀ ∈ bgJobs) :
    j₀.processes (Function.update first j.jobId forks) = j₀.processes first := by
  rw [Job.processes, Function.update_of_ne (Int.ne_of_lt (next.above j₀ member)), Job.processes]

/-- A new job takes the processes that were made last. -/
theorem Launched.push (launched : Launched kernel forks bgJobs first) (next : NextNumber bgJobs j.jobId) {n : ℕ}
    (stored : j.pidList = forked kernel forks n) :
    Launched kernel (forks + n) (pushBack bgJobs j) (Function.update first j.jobId forks) := by
  have length : j.pidList.length = n := by rw [stored, length_forked]
  have own : j.processes (Function.update first j.jobId forks) = List.range' forks n := by
    rw [Job.processes_update_self, length]
  have old {j₀ : Job} (member : j₀ ∈ bgJobs) {m : ℕ}
      (held : m ∈ j₀.processes (Function.update first j.jobId forks)) : m ∈ j₀.processes first ∧ m < forks := by
    rw [next.processes_update member] at held
    exact ⟨held, launched.made j₀ member m held⟩
  have new {m : ℕ} (held : m ∈ j.processes (Function.update first j.jobId forks)) : forks ≤ m ∧ m < forks + n := by
    rw [own] at held
    exact List.mem_range'_1.mp held
  refine ⟨fun j₀ member => ?_, fun j₀ member m held => ?_, fun j₀ member j₁ member' m held held' => ?_⟩
  · cases List.mem_append.mp member with
    | inl inTable => rw [next.processes_update inTable, ← launched.own j₀ inTable]
    | inr isNew => rw [List.mem_singleton.mp isNew, own, stored, forked]
  · cases List.mem_append.mp member with
    | inl inTable => exact Nat.lt_add_right n (old inTable held).2
    | inr isNew => exact (new (List.mem_singleton.mp isNew ▸ held)).2
  · cases List.mem_append.mp member with
    | inl inTable =>
      cases List.mem_append.mp member' with
      | inl inTable' => exact launched.apart j₀ inTable j₁ inTable' m (old inTable held).1 (old inTable' held').1
      | inr isNew' =>
        have before := (old inTable held).2
        have after := (new (List.mem_singleton.mp isNew' ▸ held')).1
        omega
    | inr isNew =>
      cases List.mem_append.mp member' with
      | inl inTable' =>
        have before := (old inTable' held').2
        have after := (new (List.mem_singleton.mp isNew ▸ held)).1
        omega
      | inr isNew' => exact (List.mem_singleton.mp isNew').trans (List.mem_singleton.mp isNew).symm

end Launched

theorem waitForeground_eq (currentJob : List ℤ) (s : Shell) : waitForeground currentJob s =
    { s with currentJob := [], waits := s.waits ++ currentJob } := by
  induction currentJob generalizing s with
  | nil => rw [waitForeground, List.append_nil]
  | cons pid currentJob ih =>
    rw [waitForeground, ih, List.append_assoc]
    rfl

theorem startJob_spec (command : List Char) (table : JobTable s.bgJobs) (populated : s.currentJob ≠ []) :
    ∃ jobId, NextNumber s.bgJobs jobId ∧ startJob command s = some { s with
      currentJob := []
      bgJobs := pushBack s.bgJobs ⟨jobId, command, s.currentJob⟩
      messages := s.messages ++ [Job.started ⟨jobId, command, s.currentJob⟩] } := by
  obtain ⟨jobId, number, next⟩ := getNextJobNumber_spec table
  have peeked := Job.peekFront_pidList (j := ⟨jobId, command, s.currentJob⟩) populated
  refine ⟨jobId, next, ?_⟩
  simp only [startJob, number, duplicatePidDeque_eq, peeked, Option.bind_eq_bind, Option.bind_some]
  rfl

end OsLabs.Quash
