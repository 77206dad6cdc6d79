import OsLabs.Proofs.Scheduler.Calls

/-! # The order of the preemptive schemes

Under the preemptive schemes the job queue is sorted by a key, remaining time or priority and then
arrival, and no running job has a greater key than a waiting one. The keys of the records are those
of the simulator's jobs, since `Agree` keeps the remaining times current.
-/

namespace OsLabs.Scheduler

open Globals StableInsert Priqueue

variable {time c : ℤ} {jobs jobs' : List SimJob} {g g' : Globals} {job j w : SimJob} {r r' : JobT}
  {scheme : Scheme}

def Scheme.byPriority : Scheme → Bool
  | .pri | .ppri => true
  | _ => false

/-- What the scheme sorts a job by, with its units still to run. -/
def SimJob.key (scheme : Scheme) (j : SimJob) : ℤ ×ₗ ℤ :=
  toLex (if scheme.byPriority then j.priority else j.runTime, j.arrivalTime)

def JobT.key (scheme : Scheme) (r : JobT) : ℤ ×ₗ ℤ :=
  toLex (if scheme.byPriority then r.priority else r.remainingTime, r.arrivalTime)

/-- The difference of two priorities is an `int`. -/
def FitsInt (p p' : ℤ) : Prop := -2 ^ 31 ≤ p - p' ∧ p - p' < 2 ^ 31

instance (p p' : ℤ) : Decidable (FitsInt p p') := inferInstanceAs (Decidable (_ ∧ _))

theorem intSub_eq {p p' : ℤ} (fits : FitsInt p p') : intSub p p' = p - p' := by
  obtain ⟨low, high⟩ := fits
  exact Int.bmod_eq_of_le (by norm_num; omega) (by norm_num; omega)

/-- A difference with a tie-breaker has the sign of the lexicographic order. -/
theorem lexSub_iff (a x b y : ℤ) :
    ((if a = b then x - y else a - b) < 0 ↔ toLex (a, x) < toLex (b, y)) ∧
      ((if a = b then x - y else a - b) > 0 ↔ toLex (b, y) < toLex (a, x)) := by
  rw [Prod.Lex.toLex_lt_toLex, Prod.Lex.toLex_lt_toLex]
  constructor
  · split <;> omega
  · split <;> omega

/-- The comparer of a preemptive scheme compares keys. -/
theorem comparer_iff (preempts : scheme.preempts = true)
    (fits : scheme.byPriority = true → FitsInt r.priority r'.priority) :
    (scheme.comparer r r' < 0 ↔ r.key scheme < r'.key scheme) ∧
      (scheme.comparer r r' > 0 ↔ r'.key scheme < r.key scheme) := by
  cases scheme with
  | psjf => exact lexSub_iff r.remainingTime r.arrivalTime r'.remainingTime r'.arrivalTime
  | ppri =>
    have compared := lexSub_iff r.priority r.arrivalTime r'.priority r'.arrivalTime
    rw [← intSub_eq (fits rfl)] at compared
    exact compared
  | _ => exact absurd preempts Bool.false_ne_true

theorem preempts_ne_rr (preempts : scheme.preempts = true) : scheme ≠ .rr := by
  rintro rfl
  exact Bool.false_ne_true preempts

theorem waits_key (waits : Waits scheme j r) (notRR : scheme ≠ .rr) : r.key scheme = j.key scheme := by
  rw [JobT.key, SimJob.key, waits.priority, waits.arrivalTime, waits.remaining notRR]

theorem runs_key (runs : Runs scheme time j r) (notRR : scheme ≠ .rr) :
    (updateRemainingTime r time).key scheme = j.key scheme := by
  rw [JobT.key, SimJob.key]
  simp only [updateRemainingTime, runs.remaining notRR, runs.priority, runs.arrivalTime]

/-- No job on a core has a greater key than one that waits for a core. -/
def Optimal (scheme : Scheme) (jobs : List SimJob) : Prop :=
  ∀ r ∈ jobs, ∀ w ∈ jobs, r.coreId ≠ -1 → w.arrived = true → w.coreId = -1 → r.key scheme ≤ w.key scheme

/-- The queue is sorted, and running jobs come before waiting ones. -/
structure Ordered (jobs : List SimJob) (g : Globals) : Prop where
  sorted : g.queue.Pairwise fun r r' => r.key g.scheme ≤ r'.key g.scheme
  first : Optimal g.scheme jobs

/-- Priorities that the priority schemes compare without overflow. -/
def Fits (scheme : Scheme) (jobs : List SimJob) : Prop :=
  scheme.byPriority = true → ∀ j ∈ jobs, ∀ j' ∈ jobs, FitsInt j.priority j'.priority

/-- An offer keeps a queue of jobs sorted. -/
theorem offerJob_sorted (preempts : g.scheme.preempts = true)
    (comparer : g.jobQueue.comparer = g.scheme.comparer)
    (fits : g.scheme.byPriority = true → ∀ r' ∈ g.queue, FitsInt r.priority r'.priority)
    (sorted : g.queue.Pairwise fun r r' => r.key g.scheme ≤ r'.key g.scheme) :
    (g.offerJob r).queue.Pairwise fun r r' => r.key g.scheme ≤ r'.key g.scheme := by
  let less (r r' : JobT) : Prop := r.key g.scheme < r'.key g.scheme
  have places : position (Less g.jobQueue.comparer) r g.queue = position less r g.queue := by
    refine position_congr fun r' member => ?_
    rw [Less, comparer]
    exact (comparer_iff preempts fun byPriority => fits byPriority r' member).1
  have order : IsStrictWeakOrder JobT less := isStrictWeakOrder_key (JobT.key g.scheme)
  have isSorted : Sorted less g.queue := sorted.imp not_lt.mpr
  rw [offerJob_queue, places, insertIdx_eq_insert isSorted]
  exact isSorted.insert.imp not_lt.mp

namespace Ordered

/-- Deleting a job keeps the order. -/
theorem of_subset (ordered : Ordered jobs g) (subset : jobs' ⊆ jobs) (scheme : g'.scheme = g.scheme)
    (queue : g'.queue = g.queue) : Ordered jobs' g' where
  sorted := by
    rw [queue, scheme]
    exact ordered.sorted
  first j inJobs w inJobs' := by
    rw [scheme]
    exact ordered.first j (subset inJobs) w (subset inJobs')

theorem next (agree : Agree time (some c) none jobs g) (ordered : Ordered jobs g) (notRR : g.scheme ≠ .rr)
    (next : NextJob time c jobs g jobs' g') : Ordered jobs' g' := by
  have notMinus : c ≠ -1 := fun minus => by
    have nonneg := (agree.vacantCore c rfl).1.1
    omega
  cases next with
  | idle => exact ordered.of_subset (List.Subset.refl _) rfl rfl
  | @dispatch r rest job head member arrived off waits =>
    have sorted := ordered.sorted
    rw [head, List.pairwise_cons] at sorted
    constructor
    · change g.pollJob.queue.Pairwise _
      rw [pollJob_queue, head, List.tail_cons]
      exact sorted.2
    · intro j changed w changed' onCore arrived' off'
      have old : w ∈ jobs ∧ w.jobId ≠ job.jobId := by
        rcases mem_alter.mp changed' with ⟨k, _, _, rfl⟩ | old
        · exact (notMinus off').elim
        · exact old
      rcases mem_alter.mp changed with ⟨k, inJobs, same, rfl⟩ | ⟨inJobs, _⟩
      · obtain rfl := eq_of_jobId agree.ids inJobs member same
        obtain ⟨r', inQueue, same'⟩ := agree.waiting w old.1 arrived' off' nofun
        obtain ⟨w', inJobs', _, _, waits'⟩ := agree.queued r' inQueue
        obtain rfl := eq_of_jobId agree.ids inJobs' old.1 (waits'.jobId.symm.trans same')
        have behind : r' ∈ rest := by
          rw [head] at inQueue
          rcases List.mem_cons.mp inQueue with rfl | behind
          · exact (old.2 (same'.symm.trans waits.jobId)).elim
          · exact behind
        change k.key g.scheme ≤ w'.key g.scheme
        rw [← waits_key waits notRR, ← waits_key waits' notRR]
        exact sorted.1 r' behind
      · exact ordered.first j inJobs w old.1 onCore arrived' off'

/-- The comparer orders the running jobs. -/
theorem compares (agree : Agree time none none jobs g) (busy : g.idle = [])
    (preempts : g.scheme.preempts = true) (comparer : g.jobQueue.comparer = g.scheme.comparer)
    (fits : Fits g.scheme jobs) : g.Compares time (JobT.key g.scheme) := by
  have priority {core : ℤ} {r : JobT} (hasCore : g.HasCore core) (running : g.runningJobs core = some r) :
      ∃ j ∈ jobs, r.priority = j.priority := by
    obtain ⟨j, inJobs, rfl⟩ := agree.busy core hasCore (busy ▸ List.not_mem_nil) nofun
    have nonneg := hasCore.1
    obtain ⟨_, _, _, r', running', runs⟩ := agree.onCore j inJobs (by omega)
    obtain rfl := Option.some.inj (running'.symm.trans running)
    exact ⟨j, inJobs, runs.priority⟩
  intro core core' r r' hasCore hasCore' running running'
  obtain ⟨j, inJobs, same⟩ := priority hasCore running
  obtain ⟨j', inJobs', same'⟩ := priority hasCore' running'
  rw [comparer]
  refine (comparer_iff preempts fun byPriority => ?_).2
  change FitsInt r.priority r'.priority
  rw [same, same']
  exact fits byPriority j inJobs j' inJobs'

/-- The updated record of a running job has the key of the job. -/
theorem updated_key (agree : Agree time none none jobs g) (notRR : g.scheme ≠ .rr) (inJobs : j ∈ jobs)
    (onCore : j.coreId ≠ -1)
    (running : (g.updatedTo time g.totalCores).runningJobs j.coreId = some r) :
    r.key g.scheme = j.key g.scheme := by
  obtain ⟨_, hasCore, _, r', running', runs⟩ := agree.onCore j inJobs onCore
  rw [updatedTo_below running' hasCore.1 hasCore.2] at running
  obtain rfl := Option.some.inj running
  exact runs_key runs notRR

/-- The job that the search found has the greatest key of the running jobs. -/
theorem le_of_latest (agree : Agree time none none jobs g) (notRR : g.scheme ≠ .rr) (inJobs : j ∈ jobs)
    (onCore : j.coreId ≠ -1) (inJobs' : w ∈ jobs) (onCore' : w.coreId ≠ -1)
    (latest : g.Latest time (JobT.key g.scheme) g.totalCores w.coreId) :
    j.key g.scheme ≤ w.key g.scheme := by
  obtain ⟨_, hasCore, _, r, running, runs⟩ := agree.onCore j inJobs onCore
  obtain ⟨_, _, _, r', running', runs'⟩ := agree.onCore w inJobs' onCore'
  rw [← runs_key runs notRR, ← runs_key runs' notRR]
  exact latest j.coreId r r' hasCore.1 hasCore.2 running running'

/-- The comparer compares a new job with an updated record by their jobs' keys. -/
theorem newJob_before_iff (agree : Agree time none none jobs g) (preempts : g.scheme.preempts = true)
    (comparer : g.jobQueue.comparer = g.scheme.comparer) (fits : Fits g.scheme jobs) (member : job ∈ jobs)
    (now : job.arrivalTime = time) (inJobs : w ∈ jobs) (onCore : w.coreId ≠ -1)
    (running : (g.updatedTo time g.totalCores).runningJobs w.coreId = some r) :
    g.jobQueue.comparer (newJob job.jobId job.priority time job.runTime) r < 0 ↔
      job.key g.scheme < w.key g.scheme := by
  have newKey : (newJob job.jobId job.priority time job.runTime).key g.scheme = job.key g.scheme := by
    rw [JobT.key, SimJob.key, ← now]
    rfl
  have recordKey := updated_key agree (preempts_ne_rr preempts) inJobs onCore running
  obtain ⟨_, _, _, r', running', runs⟩ := agree.updated.onCore w inJobs onCore
  obtain rfl := Option.some.inj (running'.symm.trans running)
  rw [comparer, ← newKey, ← recordKey]
  refine (comparer_iff preempts fun byPriority => ?_).1
  rw [runs.priority]
  exact fits byPriority job member w inJobs

theorem arrive (agree : Agree time none none jobs g) (conserving : Conserving g) (ordered : Ordered jobs g)
    (preempts : g.scheme.preempts = true) (comparer : g.jobQueue.comparer = g.scheme.comparer)
    (fits : Fits g.scheme jobs) (member : job ∈ jobs) (now : job.arrivalTime = time) {coreId : ℤ}
    (new : NewJob time jobs g job coreId jobs' g') (agree' : Agree time none none jobs' g') :
    Ordered jobs' g' := by
  have notRR := preempts_ne_rr preempts
  have queuedPriority {r : JobT} (inQueue : r ∈ g.queue) : ∃ w ∈ jobs, r.priority = w.priority := by
    obtain ⟨w, inJobs, _, _, waits⟩ := agree.queued r inQueue
    exact ⟨w, inJobs, waits.priority⟩
  cases new with
  | idle head =>
    have noQueue : g.queue = [] :=
      conserving.resolve_right fun none => List.cons_ne_nil _ _ (head.symm.trans none)
    refine ⟨noQueue ▸ List.Pairwise.nil, fun j _ w inJobs _ arrived off => ?_⟩
    obtain ⟨r, inQueue, _⟩ := agree'.waiting w inJobs arrived off nofun
    have none : r ∈ ([] : List JobT) := noQueue ▸ inQueue
    exact (List.not_mem_nil none).elim
  | @preempt victim r busy _ inJobs onCore running latest before =>
    have latest := latest _ (compares agree busy preempts comparer fits)
    have older : job.key g.scheme < victim.key g.scheme :=
      (newJob_before_iff agree preempts comparer fits member now inJobs onCore running).mp before
    obtain ⟨_, _, _, r', running', runs⟩ := agree.updated.onCore victim inJobs onCore
    obtain rfl := Option.some.inj (running'.symm.trans running)
    have requeued : (r'.unscheduled time).key g.scheme = victim.key g.scheme :=
      waits_key (unscheduled_waits runs) notRR
    constructor
    · refine offerJob_sorted (g := (g.updatedTo time g.totalCores).setRunning victim.coreId none) preempts
        comparer (fun byPriority r inQueue => ?_) ordered.sorted
      obtain ⟨w, inJobs', same⟩ := queuedPriority inQueue
      rw [(unscheduled_waits runs).priority, same]
      exact fits byPriority victim inJobs w inJobs'
    · intro j changed w changed' onCore' arrived' off'
      change j.key g.scheme ≤ w.key g.scheme
      have below : j.key g.scheme ≤ victim.key g.scheme := by
        rcases mem_alter.mp changed with ⟨k, was, same, rfl⟩ | ⟨was, _⟩
        · rcases mem_alter.mp was with ⟨k, inJobs', _, rfl⟩ | ⟨inJobs', _⟩
          · obtain rfl := eq_of_jobId agree.ids inJobs' member same
            exact older.le
          · obtain rfl := eq_of_jobId agree.ids inJobs' member same
            exact older.le
        · rcases mem_alter.mp was with ⟨k, _, _, rfl⟩ | ⟨inJobs', _⟩
          · exact (onCore' rfl).elim
          · exact le_of_latest agree notRR inJobs' onCore' inJobs onCore latest
      have above : victim.key g.scheme ≤ w.key g.scheme := by
        rcases mem_alter.mp changed' with ⟨k, _, _, rfl⟩ | ⟨was, _⟩
        · exact (onCore off').elim
        · rcases mem_alter.mp was with ⟨k, inJobs', same, rfl⟩ | ⟨inJobs', _⟩
          · obtain rfl := eq_of_jobId agree.ids inJobs' inJobs same
            exact le_rfl
          · exact ordered.first victim inJobs w inJobs' onCore arrived' off'
      exact below.trans above
  | @wait g₁ busy current =>
    obtain ⟨notPreempts, _⟩ | ⟨_, rfl, least, r, hasLeast, running, latest, notBefore⟩ := current
    · exact (Bool.false_ne_true (notPreempts.symm.trans preempts)).elim
    have latest := latest _ (compares agree busy preempts comparer fits)
    obtain ⟨victim, inJobs, rfl⟩ := agree.busy least hasLeast (busy ▸ List.not_mem_nil) nofun
    have nonneg := hasLeast.1
    have onCore : victim.coreId ≠ -1 := by omega
    have younger : victim.key g.scheme ≤ job.key g.scheme := not_lt.mp fun before =>
      notBefore ((newJob_before_iff agree preempts comparer fits member now inJobs onCore running).mpr before)
    constructor
    · refine offerJob_sorted (g := g.updatedTo time g.totalCores) preempts
        comparer (fun byPriority r inQueue => ?_) ordered.sorted
      obtain ⟨w, inJobs', same⟩ := queuedPriority inQueue
      rw [same]
      exact fits byPriority job member w inJobs'
    · intro j changed w changed' onCore' arrived' off'
      change j.key g.scheme ≤ w.key g.scheme
      have below : j.key g.scheme ≤ victim.key g.scheme := by
        rcases mem_alter.mp changed with ⟨k, inJobs', _, rfl⟩ | ⟨inJobs', _⟩
        · exact le_of_latest (j := k) agree notRR inJobs' onCore' inJobs onCore latest
        · exact le_of_latest agree notRR inJobs' onCore' inJobs onCore latest
      have above : victim.key g.scheme ≤ w.key g.scheme := by
        rcases mem_alter.mp changed' with ⟨k, inJobs', same, rfl⟩ | ⟨inJobs', _⟩
        · obtain rfl := eq_of_jobId agree.ids inJobs' member same
          exact younger
        · exact ordered.first victim inJobs w inJobs' onCore arrived' off'
      exact below.trans above

/-- A time unit only makes the keys of running jobs smaller. -/
theorem tick (ordered : Ordered jobs g) : Ordered (jobs.map SimJob.worked) g where
  sorted := ordered.sorted
  first j' changed w' changed' onCore arrived off := by
    obtain ⟨j, inJobs, rfl⟩ := List.mem_map.mp changed
    obtain ⟨w, inJobs', rfl⟩ := List.mem_map.mp changed'
    rw [SimJob.worked_coreId] at onCore off
    have same : w.worked = w := if_neg (not_not.mpr off)
    rw [same] at arrived ⊢
    refine le_trans ?_ (ordered.first j inJobs w inJobs' onCore arrived off)
    rw [SimJob.worked, if_pos onCore, SimJob.key, SimJob.key]
    refine Prod.Lex.toLex_mono ⟨?_, le_rfl⟩
    cases g.scheme.byPriority with
    | true => exact le_rfl
    | false => exact Int.sub_le_self j.runTime Int.one_nonneg

end Ordered

end OsLabs.Scheduler
