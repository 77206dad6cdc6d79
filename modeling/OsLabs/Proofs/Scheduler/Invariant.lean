import OsLabs.Proofs.Scheduler.Jobs

/-! # The invariant of the simulation loop

Between two iterations of any of its loops: simulator and library agree, a job has arrived exactly
when the loop has come past its arrival, a finished job is on a core and ahead of the loop over
finished jobs, and the units run and left of every job add up.
-/

namespace OsLabs.Scheduler

open Globals Priqueue

variable {o : Options} {lines : List JobLine} {s : Sim} {time : ℤ} {phase : Phase}
  {jobs : List SimJob} {snapshots : List (List SimJob)} {g g' : Globals} {job j : SimJob}
  {f : SimJob → SimJob} {i k : ℕ}

/-- The loop over arrivals has come past entry `k` in this time unit. -/
def Phase.ArrivalSeen : Phase → ℕ → Prop
  | .arrive i, k => k < i
  | .run, _ => True
  | _, _ => False

/-- The loop over finished jobs has entry `k` ahead. -/
def Phase.FinishAhead : Phase → ℕ → Prop
  | .head, _ => True
  | .finish i, k => i ≤ k
  | _, _ => False

/-- The loop goes on exactly when jobs are left. -/
def Phase.Admits : Phase → List SimJob → Prop
  | .quantum _, jobs | .arrive _, jobs | .run, jobs => jobs ≠ []
  | .done, jobs => jobs = []
  | _, _ => True

/-- What start-up sets for the whole run. -/
structure Fixed (o : Options) (g : Globals) : Prop where
  scheme : g.scheme = o.scheme
  totalCores : g.totalCores = o.cores
  comparer : g.jobQueue.comparer = o.scheme.comparer

/-- The entries of the array, as far as they depend on where the loop stands. -/
structure Entries (time : ℤ) (phase : Phase) (jobs : List SimJob) : Prop where
  admits : phase.Admits jobs
  arrivals : ∀ k j, jobs[k]? = some j →
    (j.arrived = true ↔ j.arrivalTime < time ∨ j.arrivalTime = time ∧ phase.ArrivalSeen k)
  nonneg : ∀ j ∈ jobs, 0 ≤ j.runTime
  finished : ∀ k j, jobs[k]? = some j → j.runTime = 0 → j.coreId ≠ -1 ∧ phase.FinishAhead k

/-- The jobs are those of the file, and their units add up. -/
structure History (lines : List JobLine) (jobs : List SimJob) (snapshots : List (List SimJob)) : Prop where
  loaded : ∀ j ∈ jobs, ∃ j₀ ∈ loadJobs lines,
    j₀.jobId = j.jobId ∧ j₀.arrivalTime = j.arrivalTime ∧ j₀.priority = j.priority
  units : ∀ jobId, unitsLeft jobId jobs + unitsRun jobId snapshots = unitsLeft jobId (loadJobs lines)

/-- A time unit in which no core runs two jobs and no job runs on two cores. -/
structure Exclusive (jobs : List SimJob) : Prop where
  cores : (busyCores jobs).Nodup
  jobs : ∀ jobId, coresOf jobId jobs ≤ 1

/-- A preemptive scheme on jobs it can compare. -/
structure Preemptive (o : Options) (lines : List JobLine) : Prop where
  preempts : o.scheme.preempts = true
  fits : Fits o.scheme (loadJobs lines)

structure Inv (o : Options) (lines : List JobLine) (s : Sim) : Prop where
  fixed : Fixed o s.globals
  agree : Agree s.time none none s.jobs s.globals
  conserving : Conserving s.globals
  entries : Entries s.time s.phase s.jobs
  alive : s.jobsAlive = s.jobs.countP SimJob.arrived
  history : History lines s.jobs s.snapshots
  exclusive : ∀ snapshot ∈ s.snapshots, Exclusive snapshot
  ordered : Preemptive o lines → Ordered s.jobs s.globals
  optimal : Preemptive o lines → ∀ snapshot ∈ s.snapshots, Optimal o.scheme snapshot

/-- Without preemption no branch of the library preempts. -/
theorem Inv.notPreempts (inv : Inv o lines s) (patient : o.scheme.preempts = false) :
    ¬ s.globals.scheme.preempts = true := by
  rw [inv.fixed.scheme, patient]
  exact Bool.false_ne_true

/-! ## How the parts survive -/

theorem Fixed.keeps (fixed : Fixed o g) (keeps : g.Keeps g') : Fixed o g' :=
  ⟨keeps.scheme.trans fixed.scheme, keeps.totalCores.trans fixed.totalCores,
    keeps.comparer.trans fixed.comparer⟩

theorem History.map (history : History lines jobs snapshots) (moves : Moves f) :
    History lines (jobs.map f) snapshots where
  loaded j' changed := by
    obtain ⟨j, member, rfl⟩ := List.mem_map.mp changed
    rw [moves.jobId, moves.arrivalTime, moves.priority]
    exact history.loaded j member
  units jobId := by
    rw [unitsLeft_map moves]
    exact history.units jobId

theorem History.deleteJob (history : History lines jobs snapshots) (found : jobs[i]? = some job)
    (finished : job.runTime = 0) : History lines (deleteJob jobs i) snapshots where
  loaded j kept := history.loaded j ((deleteJob_perm found).mem_iff.mpr (List.mem_cons_of_mem _ kept))
  units jobId := by
    rw [unitsLeft_deleteJob found finished]
    exact history.units jobId

/-- A time unit moves units from those left to those run. -/
theorem History.tick (history : History lines jobs snapshots) :
    History lines (jobs.map SimJob.worked) (jobs :: snapshots) where
  loaded j' changed := by
    obtain ⟨j, member, rfl⟩ := List.mem_map.mp changed
    have same : j.worked.arrivalTime = j.arrivalTime ∧ j.worked.priority = j.priority := by
      rw [SimJob.worked]
      split <;> exact ⟨rfl, rfl⟩
    rw [j.worked_jobId, same.1, same.2]
    exact history.loaded j member
  units jobId := by
    have left := unitsLeft_worked jobId jobs
    have total := history.units jobId
    rw [unitsRun] at total ⊢
    rw [List.map_cons, List.sum_cons, ← total, ← left]
    omega

theorem History.fits (history : History lines jobs snapshots) {scheme : Scheme}
    (fits : Fits scheme (loadJobs lines)) : Fits scheme jobs := by
  intro byPriority j inJobs j' inJobs'
  obtain ⟨j₀, loaded, _, _, same⟩ := history.loaded j inJobs
  obtain ⟨j₀', loaded', _, _, same'⟩ := history.loaded j' inJobs'
  rw [← same, ← same']
  exact fits byPriority j₀ loaded j₀' loaded'

/-- Agreement makes a time unit exclusive. -/
theorem Agree.exclusive (agree : Agree time none none jobs g) : Exclusive jobs where
  cores := agree.busyCores_nodup
  jobs jobId := by
    have once := List.nodup_iff_count_le_one.mp agree.ids jobId
    rw [List.count, List.countP_map] at once
    refine (List.countP_mono_left fun j _ both => ?_).trans once
    rw [decide_eq_true_iff] at both
    exact beq_iff_eq.mpr both.1

/-- Deleting an arrived job takes one from the number of jobs alive. -/
theorem countP_deleteJob (found : jobs[i]? = some job) (arrived : job.arrived = true) :
    (jobs.countP SimJob.arrived : ℤ) - 1 = (deleteJob jobs i).countP SimJob.arrived := by
  rw [(deleteJob_perm found).countP_eq, List.countP_cons_of_pos arrived, Nat.cast_succ,
    Int.add_sub_cancel]

theorem countP_map_arrived (same : ∀ j, (f j).arrived = j.arrived) :
    (jobs.map f).countP SimJob.arrived = jobs.countP SimJob.arrived := by
  rw [List.countP_map]
  exact List.countP_congr fun j _ => by rw [Function.comp_apply, same]

/-- An arrival adds one to the number of jobs alive. -/
theorem countP_arrive (ids : (jobs.map SimJob.jobId).Nodup) (member : job ∈ jobs)
    (notArrived : job.arrived = false)
    (arrives : ∀ j, (f j).arrived = true ↔ j.arrived = true ∨ j.jobId = job.jobId) :
    (jobs.map f).countP SimJob.arrived = jobs.countP SimJob.arrived + 1 := by
  obtain ⟨front, back, rfl⟩ := List.append_of_mem member
  have perm : (front ++ job :: back).Perm (job :: (front ++ back)) := List.perm_middle
  obtain ⟨fresh, _⟩ := List.nodup_cons.mp ((perm.map SimJob.jobId).nodup_iff.mp ids)
  have others : ((front ++ back).map f).countP SimJob.arrived = (front ++ back).countP SimJob.arrived := by
    rw [List.countP_map]
    refine List.countP_congr fun j inRest => ?_
    rw [Function.comp_apply, arrives]
    exact or_iff_left fun same => fresh (same ▸ List.mem_map_of_mem inRest)
  rw [(perm.map f).countP_eq, perm.countP_eq, List.map_cons,
    List.countP_cons_of_pos ((arrives job).mpr (.inr rfl)), others,
    List.countP_cons_of_neg (Bool.not_eq_true _ ▸ notArrived)]

/-- While a job is alive, a core works. -/
theorem Agree.busyCores_ne_nil (agree : Agree time none none jobs g) (conserving : Conserving g)
    (positive : 0 < g.totalCores) (member : job ∈ jobs) (arrived : job.arrived = true) :
    busyCores jobs ≠ [] := by
  have works {j : SimJob} (inJobs : j ∈ jobs) (onCore : j.coreId ≠ -1) : busyCores jobs ≠ [] := by
    refine List.ne_nil_of_mem (List.mem_map_of_mem (List.mem_filter.mpr ⟨inJobs, ?_⟩))
    exact decide_eq_true onCore
  by_cases onCore : job.coreId = -1
  · obtain ⟨r, inQueue, _⟩ := agree.waiting job member arrived onCore nofun
    have busy := conserving.resolve_left (List.ne_nil_of_mem inQueue)
    have zero : g.HasCore 0 := ⟨le_rfl, Int.natCast_pos.mpr positive⟩
    obtain ⟨j, inJobs, here⟩ := agree.busy 0 zero (busy ▸ List.not_mem_nil) nofun
    exact works inJobs (here ▸ by decide)
  · exact works member onCore

/-! ## Start -/

/-- The ids of the cores. -/
def Globals.cores (g : Globals) : List ℤ := (List.range g.totalCores).map Nat.cast

theorem mem_cores {c : ℤ} : c ∈ g.cores ↔ g.HasCore c := by
  rw [cores, List.mem_map, HasCore]
  constructor
  · rintro ⟨core, inRange, rfl⟩
    exact ⟨Int.natCast_nonneg core, Int.ofNat_lt.mpr (List.mem_range.mp inRange)⟩
  · rintro ⟨nonneg, below⟩
    exact ⟨c.toNat, List.mem_range.mpr (by omega), Int.toNat_of_nonneg nonneg⟩

theorem cores_nodup (g : Globals) : g.cores.Nodup := List.nodup_range.map Nat.cast_injective

theorem foldl_offerCore (cores : List ℕ) (g : Globals) :
    let g' := cores.foldl (fun g i => g.offerCore (i : ℕ)) g
    g'.idle.Perm (cores.map Nat.cast ++ g.idle) ∧ g'.queue = g.queue ∧ g.Keeps g' := by
  induction cores generalizing g with
  | nil => exact ⟨List.Perm.refl _, rfl, rfl, rfl, rfl⟩
  | cons core cores ih =>
    obtain ⟨idle, queue, keeps⟩ := ih (g.offerCore core)
    have first : g.Keeps (g.offerCore core) := ⟨rfl, rfl, rfl⟩
    refine ⟨idle.trans ?_, queue, first.trans keeps⟩
    exact ((offerCore_perm g core).append_left _).trans List.perm_middle

theorem schedulerStartUp_spec (malloc : Malloc) (cores : ℕ) (scheme : Scheme) :
    let g := schedulerStartUp malloc cores scheme
    g.idle.Perm ((List.range cores).map Nat.cast) ∧ g.queue = [] ∧ g.scheme = scheme ∧
      g.totalCores = cores ∧ g.jobQueue.comparer = scheme.comparer := by
  obtain ⟨idle, queue, keeps⟩ := foldl_offerCore (List.range cores)
    { scheme := scheme
      jobQueue := priqueueInit malloc.jobQueue scheme.comparer
      idleCores := priqueueInit malloc.idleCores coreCompare
      totalCores := cores
      runningJobs := malloc.runningJobs
      totalJobs := 0
      totalWaitingTime := 0
      totalTurnaroundTime := 0
      totalResponseTime := 0 }
  refine ⟨?_, queue, keeps.scheme, keeps.totalCores, keeps.comparer⟩
  exact (List.append_nil ((List.range cores).map (Nat.cast : ℕ → ℤ))) ▸ idle

theorem loadJobs_getElem? (lines : List JobLine) (k : ℕ) : (loadJobs lines)[k]? =
    lines[k]?.map fun line => ⟨k, line.arrivalTime, line.runTime, line.priority, -1, false⟩ :=
  List.getElem?_mapIdx

theorem loadJobs_ids (lines : List JobLine) :
    (loadJobs lines).map SimJob.jobId = (List.range lines.length).map Nat.cast := by
  refine List.ext_getElem? fun k => ?_
  rw [List.getElem?_map, List.getElem?_map, loadJobs_getElem?]
  by_cases inside : k < lines.length
  · rw [List.getElem?_eq_getElem inside, List.getElem?_range inside]
    rfl
  · rw [List.getElem?_eq_none (by omega), List.getElem?_eq_none (by rw [List.length_range]; omega)]
    rfl

theorem loadJobs_nodup (lines : List JobLine) : ((loadJobs lines).map SimJob.jobId).Nodup := by
  rw [loadJobs_ids]
  exact List.nodup_range.map Nat.cast_injective

theorem mem_loadJobs (member : j ∈ loadJobs lines) : j.coreId = -1 ∧ j.arrived = false ∧
    ∃ line ∈ lines, line.arrivalTime = j.arrivalTime ∧ line.runTime = j.runTime ∧
      line.priority = j.priority := by
  obtain ⟨k, found⟩ := List.mem_iff_getElem?.mp member
  rw [loadJobs_getElem?] at found
  obtain ⟨line, inLines, rfl⟩ := Option.map_eq_some_iff.mp found
  exact ⟨rfl, rfl, line, List.mem_of_getElem? inLines, rfl, rfl, rfl⟩

theorem Fixed.initial (malloc : Malloc) (o : Options) :
    Fixed o (schedulerStartUp malloc o.cores o.scheme) := by
  obtain ⟨_, _, scheme, totalCores, comparer⟩ := schedulerStartUp_spec malloc o.cores o.scheme
  exact ⟨scheme, totalCores, comparer⟩

/-- At the start every core is idle and no job has arrived. -/
theorem Agree.initial (malloc : Malloc) (o : Options) (lines : List JobLine) :
    Agree 0 none none (loadJobs lines) (schedulerStartUp malloc o.cores o.scheme) := by
  obtain ⟨idle, queue, _, totalCores, _⟩ := schedulerStartUp_spec malloc o.cores o.scheme
  generalize schedulerStartUp malloc o.cores o.scheme = g at idle queue totalCores ⊢
  rw [← totalCores] at idle
  have isIdle {c : ℤ} : c ∈ g.idle ↔ g.HasCore c := idle.mem_iff.trans mem_cores
  refine ⟨loadJobs_nodup lines, ?_, ?_, fun c idle => ⟨isIdle.mp idle, nofun⟩, nofun, nofun, ?_, ?_, ?_, ?_, ?_⟩
  · rw [loadJobs_ids, List.mem_map]
    rintro ⟨k, _, minus⟩
    omega
  · exact idle.nodup_iff.mpr (cores_nodup g)
  · exact fun c isCore notIdle => (notIdle (isIdle.mpr isCore)).elim
  · exact fun j member onCore => (onCore (mem_loadJobs member).1).elim
  · exact queue ▸ List.nodup_nil
  · exact fun r inQueue => (List.not_mem_nil (queue ▸ inQueue)).elim
  · exact fun j member arrived => Bool.noConfusion ((mem_loadJobs member).2.1.symm.trans arrived)

/-- The job arrives at time 0 or later and has something to run. -/
def JobLine.Valid (line : JobLine) : Prop := 0 ≤ line.arrivalTime ∧ 1 ≤ line.runTime

instance : DecidablePred JobLine.Valid := fun _ => inferInstanceAs (Decidable (_ ∧ _))

theorem Inv.initial (malloc : Malloc) (o : Options) (valid : ∀ line ∈ lines, line.Valid) :
    Inv o lines (initial o malloc lines) where
  fixed := Fixed.initial malloc o
  agree := Agree.initial malloc o lines
  conserving := .inl (schedulerStartUp_spec malloc o.cores o.scheme).2.1
  entries := by
    have started {k : ℕ} {j : SimJob} (found : (loadJobs lines)[k]? = some j) :
        j.arrived = false ∧ 0 ≤ j.arrivalTime ∧ 1 ≤ j.runTime := by
      obtain ⟨_, notArrived, line, inLines, arrivalTime, runTime, _⟩ :=
        mem_loadJobs (List.mem_of_getElem? found)
      exact ⟨notArrived, arrivalTime ▸ (valid line inLines).1, runTime ▸ (valid line inLines).2⟩
    refine ⟨trivial, fun k j found => ?_, fun j member => ?_, fun k j found zero => ?_⟩
    · obtain ⟨notArrived, nonneg, _⟩ := started found
      rw [notArrived]
      refine ⟨nofun, ?_⟩
      rintro (early | ⟨_, seen⟩)
      · exact (not_lt.mpr nonneg early).elim
      · exact seen.elim
    · obtain ⟨k, found⟩ := List.mem_iff_getElem?.mp member
      exact Int.one_nonneg.trans (started found).2.2
    · have positive := (started found).2.2
      omega
  alive := by
    have none : (loadJobs lines).countP SimJob.arrived = 0 := by
      refine List.countP_eq_zero.mpr fun j member => ?_
      rw [(mem_loadJobs member).2.1]
      exact Bool.false_ne_true
    exact (congrArg Nat.cast none).symm
  history := ⟨fun j member => ⟨j, member, rfl, rfl, rfl⟩, fun _ => Int.add_zero _⟩
  exclusive := nofun
  ordered _ := by
    refine ⟨?_, fun r member _ _ onCore => (onCore (mem_loadJobs member).1).elim⟩
    have empty : (schedulerStartUp malloc o.cores o.scheme).queue = [] :=
      (schedulerStartUp_spec malloc o.cores o.scheme).2.1
    exact empty ▸ List.Pairwise.nil
  optimal := nofun

end OsLabs.Scheduler
