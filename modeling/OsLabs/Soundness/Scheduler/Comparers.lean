import OsLabs.Proofs.Scheduler.Preemption
import OsLabs.Soundness.Scheduler.PriqueueRuns

/-! # When the comparers are orders

The difference of two times from zero on is an `int`, the difference of two priorities need not be. The
comparers are the orders they stand for on the sets of jobs whose priorities are less than 2^31 apart,
and on no other.
-/

namespace OsLabs.Scheduler

open StableInsert Priqueue JobT

/-- The fields of a job that the simulator can make, as far as they are compared. -/
structure Admissible (job : JobT) : Prop where
  latestQueueTime : 0 ≤ job.latestQueueTime ∧ job.latestQueueTime ≤ 2 ^ 31 - 1
  remainingTime : 0 ≤ job.remainingTime ∧ job.remainingTime ≤ 2 ^ 31 - 1
  arrivalTime : 0 ≤ job.arrivalTime ∧ job.arrivalTime ≤ 2 ^ 31 - 1
  priority : -2 ^ 31 ≤ job.priority ∧ job.priority ≤ 2 ^ 31 - 1

section Orders

variable {α κ : Type*} [LinearOrder κ] {jobs : Set α} {comparer : α → α → ℤ} {key : α → κ} {q : Priqueue α}

/-- A comparer orders some jobs by a key, and so does a queue of them. -/
structure Orders [DecidableEq α] (jobs : Set α) (comparer : α → α → ℤ) (key : α → κ) : Prop where
  exact : ∀ a ∈ jobs, ∀ b ∈ jobs, comparer a b < 0 ↔ key a < key b
  weakOrder : IsStrictWeakOrder jobs fun a b => comparer a b < 0
  sorted : ∀ malloc history, (∀ ptr ∈ offered history, ptr ∈ jobs) →
    (calls (priqueueInit malloc comparer) history).1.toList.Pairwise fun a b => key a ≤ key b

/-- What the calls keep of a queue of such jobs. -/
structure Queued (jobs : Set α) (comparer : α → α → ℤ) (key : α → κ) (q : Priqueue α) : Prop where
  comparer : q.comparer = comparer
  within : ∀ ptr ∈ q.toList, ptr ∈ jobs
  sorted : Sorted (fun a b => key a < key b) q.toList

theorem Queued.sublist {q' : Priqueue α} (queued : Queued jobs comparer key q) (same : q'.comparer = q.comparer)
    (sub : q'.toList.Sublist q.toList) : Queued jobs comparer key q' where
  comparer := same.trans queued.comparer
  within ptr member := queued.within ptr (sub.subset member)
  sorted := queued.sorted.sublist sub

/-- Every call but an offer only takes entries away. -/
theorem call_cases [DecidableEq α] (q : Priqueue α) (c : Call α) : (∃ ptr, c = .offer ptr) ∨
    (call q c).1.comparer = q.comparer ∧ (call q c).1.toList.Sublist q.toList := by
  cases c with
  | offer ptr => exact .inl ⟨ptr, rfl⟩
  | poll =>
    refine .inr ⟨priqueuePoll_comparer q, ?_⟩
    change q.priqueuePoll.1.toList.Sublist q.toList
    rw [(priqueuePoll_spec q).2]
    exact List.tail_sublist _
  | remove ptr =>
    obtain ⟨list, -, comparer⟩ := priqueueRemove_spec q ptr
    refine .inr ⟨comparer, ?_⟩
    change (q.priqueueRemove ptr).1.toList.Sublist q.toList
    rw [list]
    exact List.filter_sublist
  | removeAt index =>
    refine .inr ⟨priqueueRemoveAt_comparer q index, ?_⟩
    change (q.priqueueRemoveAt index).1.toList.Sublist q.toList
    rw [(priqueueRemoveAt_spec q index).2]
    split
    · exact List.Sublist.refl _
    · exact List.eraseIdx_sublist ..
  | _ => exact .inr ⟨rfl, List.Sublist.refl _⟩

theorem Queued.offer (queued : Queued jobs comparer key q)
    (agrees : ∀ a ∈ jobs, ∀ b ∈ jobs, comparer a b < 0 ↔ key a < key b) {ptr : α} (member : ptr ∈ jobs) :
    Queued jobs comparer key (q.priqueueOffer ptr).1 := by
  have weakOrder := isStrictWeakOrder_key key
  have place : position (Less q.comparer) ptr q.toList = position (fun a b => key a < key b) ptr q.toList := by
    apply position_congr
    intro y listed
    rw [queued.comparer]
    exact agrees ptr member y (queued.within y listed)
  have list := (priqueueOffer_spec q ptr).2
  rw [place, insertIdx_eq_insert queued.sorted] at list
  refine ⟨(priqueueOffer_comparer q ptr).trans queued.comparer, fun y listed => ?_, list ▸ queued.sorted.insert⟩
  rw [list, StableInsert.insert, List.mem_append, List.mem_cons] at listed
  rcases listed with front | rfl | back
  · exact queued.within y (List.mem_filter.mp front).1
  · exact member
  · exact queued.within y (List.mem_filter.mp back).1

theorem Queued.calls [DecidableEq α] (queued : Queued jobs comparer key q)
    (agrees : ∀ a ∈ jobs, ∀ b ∈ jobs, comparer a b < 0 ↔ key a < key b) (history : List (Call α))
    (members : ∀ ptr ∈ offered history, ptr ∈ jobs) : Queued jobs comparer key (calls q history).1 := by
  induction history generalizing q with
  | nil => exact queued
  | cons c history ih =>
    have rest : ∀ ptr ∈ offered history, ptr ∈ jobs := fun ptr listed => members ptr (List.mem_append_right _ listed)
    rcases call_cases q c with ⟨ptr, rfl⟩ | ⟨same, sub⟩
    · exact ih (queued.offer agrees (members ptr List.mem_cons_self)) rest
    · exact ih (queued.sublist same sub) rest

/-- A comparer that agrees with a key on the jobs orders them by it. -/
theorem orders_of_agrees [DecidableEq α] (agrees : ∀ a ∈ jobs, ∀ b ∈ jobs, comparer a b < 0 ↔ key a < key b) :
    Orders jobs comparer key where
  exact := agrees
  weakOrder := by
    have keyOrder := isStrictWeakOrder_key fun a : jobs => key a
    have same : (fun a b : jobs => comparer a b < 0) = fun a b : jobs => key a < key b := by
      funext a b
      exact propext (agrees a a.2 b b.2)
    rwa [same]
  sorted malloc history members := by
    have empty : Queued jobs comparer key (priqueueInit malloc comparer) :=
      ⟨rfl, List.forall_mem_nil _, List.Pairwise.nil⟩
    exact (empty.calls agrees history members).sorted.imp not_lt.mp

end Orders

/-! ## The differences -/

variable {a b : ℤ} {jobs : Set JobT} {job1 job2 : JobT}

theorem intSub_times (first : 0 ≤ a ∧ a ≤ 2 ^ 31 - 1) (second : 0 ≤ b ∧ b ≤ 2 ^ 31 - 1) : intSub a b = a - b :=
  intSub_eq ⟨by omega, by omega⟩

/-- A difference that is too large for an `int` comes out negative. -/
theorem intSub_wraps (large : 2 ^ 31 ≤ a - b) (high : a - b < 2 ^ 32) : intSub a b < 0 := by
  rw [intSub, Int.bmod_neg]
  · omega
  · omega

/-- A comparison with a tie-breaker is the lexicographic one. -/
theorem compare_lex {a b x y : ℤ} (difference : intSub a b = a - b) (tie : intSub x y = x - y) :
    (if a = b then intSub x y else intSub a b) < 0 ↔ toLex (a, x) < toLex (b, y) := by
  rw [difference, tie]
  exact (lexSub_iff a x b y).1

theorem jobCompareFcfs_agrees (first : Admissible job1) (second : Admissible job2) :
    JobT.jobCompareFcfs job1 job2 < 0 ↔ job1.latestQueueTime < job2.latestQueueTime := by
  rw [JobT.jobCompareFcfs, intSub_times first.latestQueueTime second.latestQueueTime]
  split <;> omega

theorem jobCompareSjf_agrees (first : Admissible job1) (second : Admissible job2) :
    JobT.jobCompareSjf job1 job2 < 0 ↔
      toLex (job1.remainingTime, job1.arrivalTime) < toLex (job2.remainingTime, job2.arrivalTime) :=
  compare_lex (intSub_times first.remainingTime second.remainingTime)
    (intSub_times first.arrivalTime second.arrivalTime)

theorem jobComparePri_agrees (first : Admissible job1) (second : Admissible job2)
    (fits : FitsInt job1.priority job2.priority) :
    JobT.jobComparePri job1 job2 < 0 ↔
      toLex (job1.priority, job1.arrivalTime) < toLex (job2.priority, job2.arrivalTime) :=
  compare_lex (intSub_eq fits) (intSub_times first.arrivalTime second.arrivalTime)

/-- Where the times of a run on unbounded numbers are compared, nothing wraps. -/
theorem machine_comparers (first : Admissible job1) (second : Admissible job2) :
    JobT.jobCompareFcfs job1 job2 = Scheduler.jobCompareFcfs job1 job2 ∧
    JobT.jobCompareSjf job1 job2 = Scheduler.jobCompareSjf job1 job2 ∧
    JobT.jobComparePri job1 job2 = Scheduler.jobComparePri job1 job2 := by
  refine ⟨?_, ?_, ?_⟩
  · rw [JobT.jobCompareFcfs, Scheduler.jobCompareFcfs, intSub_times first.latestQueueTime second.latestQueueTime]
  · rw [JobT.jobCompareSjf, Scheduler.jobCompareSjf, intSub_times first.arrivalTime second.arrivalTime,
      intSub_times first.remainingTime second.remainingTime]
  · rw [JobT.jobComparePri, Scheduler.jobComparePri, intSub_times first.arrivalTime second.arrivalTime]

/-! ## The comparers -/

/-- All three comparers are the orders they stand for. -/
structure ComparersOrder (jobs : Set JobT) : Prop where
  fcfs : Orders jobs JobT.jobCompareFcfs JobT.latestQueueTime
  sjf : Orders jobs JobT.jobCompareSjf fun job => toLex (job.remainingTime, job.arrivalTime)
  pri : Orders jobs JobT.jobComparePri fun job => toLex (job.priority, job.arrivalTime)

/-- The comparers are orders on the sets of jobs whose priorities are less than 2^31 apart. -/
theorem comparers_order_iff (admissible : ∀ job ∈ jobs, Admissible job) : ComparersOrder jobs ↔
    ∀ job1 ∈ jobs, ∀ job2 ∈ jobs, job1.priority - job2.priority ≤ 2 ^ 31 - 1 := by
  constructor
  · intro orders job1 first job2 second
    by_contra large
    obtain ⟨low, high⟩ := (admissible job1 first).priority
    obtain ⟨low', high'⟩ := (admissible job2 second).priority
    have different : job1.priority ≠ job2.priority := by omega
    have wrapped : JobT.jobComparePri job1 job2 < 0 := by
      rw [JobT.jobComparePri, if_neg different]
      exact intSub_wraps (by omega) (by omega)
    have ordered := (orders.pri.exact job1 first job2 second).mp wrapped
    rw [Prod.Lex.toLex_lt_toLex] at ordered
    omega
  · intro near
    refine ⟨?_, ?_, ?_⟩
    · exact orders_of_agrees fun a first b second => jobCompareFcfs_agrees (admissible a first) (admissible b second)
    · exact orders_of_agrees fun a first b second => jobCompareSjf_agrees (admissible a first) (admissible b second)
    · apply orders_of_agrees
      intro a first b second
      have apart := near a first b second
      have apart' := near b second a first
      exact jobComparePri_agrees (admissible a first) (admissible b second) ⟨by omega, by omega⟩

/-- A job that has just entered the queue. -/
def queuedJob (priority : ℤ) : JobT := { newJob 0 priority 0 1 with latestQueueTime := 0 }

theorem admissible_queuedJob {priority : ℤ} (fits : -2 ^ 31 ≤ priority ∧ priority ≤ 2 ^ 31 - 1) :
    Admissible (queuedJob priority) := by
  have zero : (0 : ℤ) ≤ 0 ∧ (0 : ℤ) ≤ 2 ^ 31 - 1 := by decide
  have one : (0 : ℤ) ≤ 1 ∧ (1 : ℤ) ≤ 2 ^ 31 - 1 := by decide
  exact ⟨zero, one, zero, fits⟩

theorem comparers_order_close : ComparersOrder {queuedJob 1, queuedJob 2} := by
  apply (comparers_order_iff _).mpr
  · rintro job1 (rfl | rfl) job2 (rfl | rfl) <;> decide
  · rintro job (rfl | rfl) <;> exact admissible_queuedJob (by decide)

/-- The largest priority comes in front of -1. -/
theorem comparers_overflow : ¬ ∀ jobs : Set JobT, (∀ job ∈ jobs, Admissible job) → ComparersOrder jobs := by
  intro all
  have admissible : ∀ job ∈ ({queuedJob 2147483647, queuedJob (-1)} : Set JobT), Admissible job := by
    rintro job (rfl | rfl) <;> exact admissible_queuedJob (by decide)
  have wrapped : JobT.jobComparePri (queuedJob 2147483647) (queuedJob (-1)) < 0 := by decide
  have ordered := ((all _ admissible).pri.exact _ (.inl rfl) _ (.inr rfl)).mp wrapped
  rw [Prod.Lex.toLex_lt_toLex] at ordered
  exact absurd ordered (by decide)

end OsLabs.Scheduler
