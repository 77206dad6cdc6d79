import Mathlib.Data.List.TakeWhile
import OsLabs.Model.Quash.Command
import OsLabs.Proofs.Quash.Polls

/-! # Children and signals

The system gives a pid again once its process has been waited for, so a process is told apart by the
number of its `fork`. `History` records the jobs, the newest first and each with the number of its first
`fork`, and the pids that a wait returned, each with the number of forks made before it.
-/

namespace OsLabs.Quash

variable {kernel : Kernel} {fds : Descriptors} {s s' : Shell} {holders : List CommandHolder} {j j' : Job}
  {forks first : ℕ}

structure History where
  starts : List (Job × ℕ)
  reaps : List (ℤ × ℕ)

/-- The last job that started with an id. -/
def History.startOf (h : History) (jobId : ℤ) : Option (Job × ℕ) := h.starts.find? (·.1.jobId = jobId)

/-- The process of the `k`th `fork` has been waited for. -/
def History.Reaped (h : History) (kernel : Kernel) (k : ℕ) : Prop :=
  ∃ reap ∈ h.reaps, reap.1 = kernel.fork k ∧ k < reap.2

def History.reap (h : History) (pids : List ℤ) (forks : ℕ) : History :=
  { h with reaps := h.reaps ++ pids.map fun pid => (pid, forks) }

def History.start (h : History) (j : Job) (first : ℕ) : History := { h with starts := (j, first) :: h.starts }

/-- The children that the calls of `waitpid` for one job return. -/
def reapedOf (kernel : Kernel) : List ℤ → ℕ → List ℤ
  | [], _ => []
  | pid :: pidList, polls =>
    if kernel.waitpid polls pid = 0 then []
    else if 0 < kernel.waitpid polls pid then kernel.waitpid polls pid :: reapedOf kernel pidList (polls + 1)
    else reapedOf kernel pidList (polls + 1)

/-- The children that a poll takes. -/
def reapedBy (kernel : Kernel) : List Job → ℕ → List ℤ
  | [], _ => []
  | j :: jobs, polls =>
    reapedOf kernel j.pidList polls ++ reapedBy kernel jobs (pollPids kernel j.pidList polls).2

/-- The history after the poll of a script. -/
def History.poll (h : History) (kernel : Kernel) (s : Shell) : History :=
  h.reap (reapedBy kernel s.bgJobs s.polls) s.forks

/-- What a script adds to the history. A wait for a process of the foreground takes that process, but after
a failed `fork` it takes any. -/
inductive Records (kernel : Kernel) (holders : List CommandHolder) (s s' : Shell) (h : History) : History → Prop
  | exit (exits : isExit holders = true) : Records kernel holders s s' h (h.poll kernel s)
  | foreground (stays : isExit holders = false) (waits : isBackground holders = false) {reaped : List ℤ}
      (all : ∀ pid ∈ forked kernel s.forks holders.length, 0 < pid → pid ∈ reaped)
      (only : (∀ pid ∈ forked kernel s.forks holders.length, 0 < pid) →
        ∀ pid ∈ reaped, pid ∈ forked kernel s.forks holders.length) :
      Records kernel holders s s' h ((h.poll kernel s).reap reaped s'.forks)
  | background (stays : isExit holders = false) (background : isBackground holders = true) {j : Job}
      (added : peekBack s'.bgJobs = some j) : Records kernel holders s s' h ((h.poll kernel s).start j s.forks)

/-- The system gives no pid of a process that has not been waited for. -/
def FreshPids (kernel : Kernel) (holders : List CommandHolder) (s : Shell) (h : History) : Prop :=
  ∀ n, s.forks ≤ n → n < s.forks + holders.length → 0 < kernel.fork n →
    ∀ k < n, ¬ (h.poll kernel s).Reaped kernel k → kernel.fork n ≠ kernel.fork k

/-- The runs whose scripts all satisfy `Ok` in the state before them. -/
inductive Run (kernel : Kernel) (fds : Descriptors) (Ok : Shell → List CommandHolder → Prop) :
    Shell → History → Prop
  | start : Run kernel fds Ok (.initial fds) ⟨[], []⟩
  | script {s s' : Shell} {h h' : History} {command : List Char} {holders : List CommandHolder}
      (run : Run kernel fds Ok s h) (ok : Ok s holders) (fresh : FreshPids kernel holders s h)
      (ran : runScript kernel command (some holders) s = some s') (recorded : Records kernel holders s s' h h') :
      Run kernel fds Ok s' h'

/-! ## Jobs and their processes -/

/-- The job is the last with its id, and holds the processes of its own forks, none of them waited for. -/
def History.Owns (h : History) (kernel : Kernel) (forks : ℕ) (j : Job) : Prop :=
  ∃ first, h.startOf j.jobId = some (j, first) ∧ j.pidList = forked kernel first j.pidList.length ∧
    first + j.pidList.length ≤ forks ∧
    ∀ k, first ≤ k → k < first + j.pidList.length → 0 < kernel.fork k ∧ ¬ h.Reaped kernel k

theorem History.reaped_reap {h : History} {pids : List ℤ} {k : ℕ} :
    (h.reap pids forks).Reaped kernel k ↔ h.Reaped kernel k ∨ kernel.fork k ∈ pids ∧ k < forks := by
  simp only [Reaped, reap, List.mem_append, List.mem_map, or_and_right, exists_or]
  constructor
  · rintro (old | ⟨_, ⟨pid, mem, rfl⟩, same, before⟩)
    · exact .inl old
    · exact .inr ⟨same ▸ mem, before⟩
  · rintro (old | ⟨mem, before⟩)
    · exact .inl old
    · exact .inr ⟨_, ⟨_, mem, rfl⟩, rfl, before⟩

theorem History.Owns.mono {h : History} (owns : h.Owns kernel first j) (more : first ≤ forks) :
    h.Owns kernel forks j := by
  obtain ⟨n, start, pids, made, live⟩ := owns
  exact ⟨n, start, pids, Nat.le_trans made more, live⟩

/-- Waits for other processes. -/
theorem History.Owns.reap {h : History} {pids : List ℤ} {n : ℕ} (owns : h.Owns kernel forks j)
    (apart : ∀ k < forks, ¬ h.Reaped kernel k → kernel.fork k ∈ j.pidList → kernel.fork k ∉ pids) :
    (h.reap pids n).Owns kernel forks j := by
  obtain ⟨first, start, stored, made, live⟩ := owns
  refine ⟨first, start, stored, made, ?_⟩
  intro k low high
  obtain ⟨positive, unreaped⟩ := live k low high
  have mem : kernel.fork k ∈ j.pidList := by
    rw [stored, mem_forked]
    exact ⟨k, low, high, rfl⟩
  refine ⟨positive, ?_⟩
  rw [History.reaped_reap]
  rintro (old | ⟨taken, -⟩)
  · exact unreaped old
  · exact apart k (by omega) unreaped mem taken

/-- Another job starts. -/
theorem History.Owns.start {h : History} (owns : h.Owns kernel forks j) (other : j'.jobId ≠ j.jobId) :
    (h.start j' first).Owns kernel forks j := by
  obtain ⟨n, start, rest⟩ := owns
  refine ⟨n, ?_, rest⟩
  rw [startOf, History.start, List.find?_cons_of_neg (by simpa using other)]
  exact start

/-! ## Scripts that keep track -/

/-- A script whose forks succeed, and whose poll takes no process of a job that it keeps. -/
structure Careful (kernel : Kernel) (s : Shell) (holders : List CommandHolder) : Prop where
  forks : ∀ n, s.forks ≤ n → n < s.forks + holders.length → 0 < kernel.fork n
  whole : ∀ j ∈ (polled kernel s.bgJobs s.polls).1, ∀ pid ∈ j.pidList, pid ∉ reapedBy kernel s.bgJobs s.polls

/-- What the waits and forks of careful scripts leave. -/
structure Owned (kernel : Kernel) (s : Shell) (h : History) : Prop where
  prompt : s.AtPrompt
  logged : ∀ reap ∈ h.reaps, reap.2 ≤ s.forks
  jobs : ∀ j ∈ s.bgJobs, h.Owns kernel s.forks j

theorem Owned.poll {h : History} (owned : Owned kernel s h) (careful : Careful kernel s holders) :
    ∀ j ∈ (polled kernel s.bgJobs s.polls).1, (h.poll kernel s).Owns kernel s.forks j := by
  intro j mem
  apply (owned.jobs j ((polled_sublist kernel s.bgJobs s.polls).subset mem)).reap
  intro k _ _ pid_mem
  exact careful.whole j mem _ pid_mem

theorem Owned.poll_logged {h : History} (owned : Owned kernel s h) :
    ∀ reap ∈ (h.poll kernel s).reaps, reap.2 ≤ s.forks := by
  intro reap mem
  cases List.mem_append.mp mem with
  | inl old => exact owned.logged reap old
  | inr new =>
    obtain ⟨pid, -, rfl⟩ := List.mem_map.mp new
    exact Nat.le_refl s.forks

theorem Owned.script {h h' : History} {command : List Char} (owned : Owned kernel s h)
    (careful : Careful kernel s holders) (fresh : FreshPids kernel holders s h)
    (ran : runScript kernel command (some holders) s = some s') (recorded : Records kernel holders s s' h h') :
    Owned kernel s' h' := by
  obtain ⟨s'', ran', prompt, added, poll⟩ := runScript_poll kernel command holders owned.prompt
  obtain rfl : s' = s'' := Option.some.inj (ran.symm.trans ran')
  have kept := owned.poll careful
  have logged := owned.poll_logged
  have forks := poll.forks
  have bgJobs := poll.bgJobs
  cases recorded with
  | exit exits =>
    have none : added = [] := by
      by_contra some
      exact Bool.false_ne_true ((poll.adds.mp some).1.symm.trans exits)
    rw [exits, if_pos rfl] at forks
    rw [none, List.append_nil] at bgJobs
    exact ⟨prompt, forks.symm ▸ logged, by rw [bgJobs, forks]; exact kept⟩
  | @foreground stays waits reaped all only =>
    have none : added = [] := by
      by_contra some
      exact Bool.false_ne_true (waits.symm.trans (poll.adds.mp some).2)
    rw [stays, if_neg Bool.false_ne_true] at forks
    rw [none, List.append_nil] at bgJobs
    refine ⟨prompt, ?_, ?_⟩
    · intro reap mem
      cases List.mem_append.mp mem with
      | inl old => exact Nat.le_trans (logged reap old) (by omega)
      | inr new =>
        obtain ⟨pid, -, rfl⟩ := List.mem_map.mp new
        exact Nat.le_refl s'.forks
    · intro j mem
      rw [bgJobs] at mem
      have positive : ∀ pid ∈ forked kernel s.forks holders.length, 0 < pid := by
        intro pid pid_mem
        obtain ⟨n, low, high, rfl⟩ := mem_forked.mp pid_mem
        exact careful.forks n low high
      have still : ((h.poll kernel s).reap reaped s'.forks).Owns kernel s.forks j := by
        apply (kept j mem).reap
        intro k before unreaped _ taken
        obtain ⟨n, low, high, same⟩ := mem_forked.mp (only positive _ taken)
        exact fresh n low high (careful.forks n low high) k (by omega) unreaped same
      exact still.mono (by omega)
  | background stays background peeked =>
    obtain ⟨j, rfl⟩ : ∃ j, added = [j] := by
      have some := poll.adds.mpr ⟨stays, background⟩
      exact List.length_eq_one_iff.mp (Nat.le_antisymm poll.once (List.length_pos_iff.mpr some))
    rw [stays, if_neg Bool.false_ne_true] at forks
    rw [bgJobs, peekBack, List.getLast?_concat, Option.some.injEq] at peeked
    subst peeked
    have stored := (poll.own j (List.mem_singleton_self j)).2
    have size : j.pidList.length = holders.length := by rw [stored, length_forked]
    refine ⟨prompt, fun reap mem => Nat.le_trans (logged reap mem) (by omega), ?_⟩
    intro j' mem
    rw [bgJobs] at mem
    cases List.mem_append.mp mem with
    | inl old =>
      have table := prompt.table.increasing
      rw [bgJobs] at table
      have less := (List.pairwise_append.mp table).2.2 j' old j (List.mem_singleton_self j)
      exact ((kept j' old).start (by omega)).mono (by omega)
    | inr new =>
      obtain rfl := List.mem_singleton.mp new
      refine ⟨s.forks, ?_, by rw [size, stored], by omega, ?_⟩
      · rw [History.startOf, History.start, List.find?_cons_of_pos (by simp)]
      · intro k low high
        refine ⟨careful.forks k low (by omega), ?_⟩
        rintro ⟨reap, taken, -, before⟩
        have early := logged reap taken
        omega

theorem Run.owned {h : History} (run : Run kernel fds (Careful kernel) s h) : Owned kernel s h := by
  induction run with
  | start => exact ⟨Shell.atPrompt_initial fds, List.forall_mem_nil _, List.forall_mem_nil _⟩
  | script _ careful fresh ran recorded ih => exact ih.script careful fresh ran recorded

/-! ## Job numbers -/

/-- A token that the lexer takes for a number. -/
def Digits (text : List Char) : Prop := text ≠ [] ∧ ∀ c ∈ text, c.isDigit = true

theorem strtol_digits {text : List Char} (digits : Digits text) : strtol text = min longMax (digitsValue text) := by
  obtain ⟨nonempty, all⟩ := digits
  obtain ⟨c, rest, rfl⟩ := List.exists_cons_of_ne_nil nonempty
  have digit := all c List.mem_cons_self
  have notSpace : ¬ isSpace c = true := by
    simp only [isSpace, decide_eq_true_eq, List.mem_cons, List.not_mem_nil, or_false]
    rintro (rfl | rfl | rfl | rfl | rfl | rfl) <;> cases digit
  have value := List.takeWhile_eq_self_iff.mpr all
  rw [strtol, List.dropWhile_cons_of_neg notSpace]
  split
  next negative digits head =>
    split at head
    next minus =>
      cases minus
      cases digit
    next plus =>
      cases plus
      cases digit
    next =>
      cases head
      rw [value]
      simp only [Bool.false_eq_true, if_false]
      have low : longMin ≤ min longMax (digitsValue (c :: rest)) := by
        have := Int.natCast_nonneg (digitsValue (c :: rest))
        simp only [longMin, longMax]
        omega
      exact Int.max_eq_right low

/-- An `int` holds the number that is typed, if it is large enough. -/
theorem toInt_strtol {text : List Char} (digits : Digits text) (small : (digitsValue text : ℤ) ≤ intMax) :
    toInt (strtol text) = digitsValue text := by
  have nonneg := Int.natCast_nonneg (digitsValue text)
  rw [strtol_digits digits, toInt]
  simp only [intMax, longMax] at small ⊢
  rw [Int.min_eq_right (by omega)]
  exact Int.bmod_eq_of_le (by omega) (by omega)

end OsLabs.Quash
