import Mathlib.Algebra.BigOperators.Group.List.Lemmas
import Mathlib.Algebra.Order.BigOperators.Group.List
import OsLabs.Proofs.Scheduler.Preemption

/-! # The jobs array

What the loops of the simulator do to the array: a scheduler call moves jobs between cores, a
deletion puts the last entry into the gap, a time unit takes one unit from every job on a core. The
units of a job still to run and those it ran in the snapshots add up to its run time.
-/

namespace OsLabs.Scheduler

open Globals

variable {time c : ℤ} {jobs jobs' : List SimJob} {g g' : Globals} {job j : SimJob}
  {f : SimJob → SimJob} {i k : ℕ}

/-! ## Moving jobs -/

/-- A change of core ids and arrivals only. -/
structure Moves (f : SimJob → SimJob) : Prop where
  jobId : ∀ j, (f j).jobId = j.jobId
  arrivalTime : ∀ j, (f j).arrivalTime = j.arrivalTime
  runTime : ∀ j, (f j).runTime = j.runTime
  priority : ∀ j, (f j).priority = j.priority

theorem Moves.id : Moves id := ⟨fun _ => rfl, fun _ => rfl, fun _ => rfl, fun _ => rfl⟩

theorem Moves.comp {h : SimJob → SimJob} (first : Moves f) (second : Moves h) : Moves (h ∘ f) where
  jobId j := (second.jobId _).trans (first.jobId j)
  arrivalTime j := (second.arrivalTime _).trans (first.arrivalTime j)
  runTime j := (second.runTime _).trans (first.runTime j)
  priority j := (second.priority _).trans (first.priority j)

theorem Moves.setCore (coreId : ℤ) : Moves (·.setCore coreId) :=
  ⟨fun _ => rfl, fun _ => rfl, fun _ => rfl, fun _ => rfl⟩

theorem Moves.arrive : Moves SimJob.arrive := ⟨fun _ => rfl, fun _ => rfl, fun _ => rfl, fun _ => rfl⟩

theorem Moves.start (coreId : ℤ) : Moves (SimJob.start coreId) :=
  ⟨fun _ => rfl, fun _ => rfl, fun _ => rfl, fun _ => rfl⟩

theorem alter_eq {i : ℤ} (field : SimJob → α) (same : field (f j) = field j) :
    field (alter i f j) = field j := by
  rw [alter]
  split
  · exact same
  · rfl

theorem Moves.alter (moves : Moves f) (i : ℤ) : Moves (alter i f) where
  jobId j := alter_eq _ (moves.jobId j)
  arrivalTime j := alter_eq _ (moves.arrivalTime j)
  runTime j := alter_eq _ (moves.runTime j)
  priority j := alter_eq _ (moves.priority j)

theorem NextJob.moves (next : NextJob time c jobs g jobs' g') (isCore : c ≠ -1) :
    ∃ f, Moves f ∧ (∀ j, (f j).arrived = j.arrived) ∧ (∀ j, j.coreId ≠ -1 → (f j).coreId ≠ -1) ∧
      jobs' = jobs.map f := by
  cases next with
  | idle => exact ⟨_, .id, fun _ => rfl, fun _ onCore => onCore, (List.map_id _).symm⟩
  | dispatch =>
    refine ⟨_, (Moves.setCore c).alter _, fun j => alter_eq _ rfl, fun j onCore => ?_, rfl⟩
    rw [alter]
    split
    · exact isCore
    · exact onCore

theorem NewJob.moves {coreId : ℤ} (new : NewJob time jobs g job coreId jobs' g') :
    ∃ f, Moves f ∧ (∀ j, (f j).arrived = true ↔ j.arrived = true ∨ j.jobId = job.jobId) ∧
      jobs' = jobs.map f := by
  have arrives {h : SimJob → SimJob} (sets : ∀ j, (h j).arrived = true) (j : SimJob) :
      (alter job.jobId h j).arrived = true ↔ j.arrived = true ∨ j.jobId = job.jobId := by
    by_cases same : j.jobId = job.jobId
    · rw [alter, if_pos same]
      exact ⟨fun _ => .inr same, fun _ => sets j⟩
    · rw [alter, if_neg same]
      exact ⟨.inl, fun either => either.resolve_right same⟩
  cases new with
  | idle => exact ⟨_, (Moves.start coreId).alter _, arrives fun _ => rfl, rfl⟩
  | @preempt victim =>
    have lose := (Moves.setCore (-1)).alter victim.jobId
    refine ⟨_, lose.comp ((Moves.start _).alter _), fun j => ?_, List.map_map ..⟩
    rw [Function.comp_apply, arrives fun _ => rfl, lose.jobId]
    rw [alter_eq (f := (·.setCore (-1))) SimJob.arrived rfl]
  | wait => exact ⟨_, Moves.arrive.alter _, arrives fun _ => rfl, rfl⟩

/-! ## Arrivals -/

theorem map_release (noCore : ∀ j ∈ jobs, j.coreId ≠ c) : jobs.map (SimJob.release c) = jobs :=
  (List.map_congr_left fun j member => if_neg (noCore j member)).trans (List.map_id jobs)

/-- What the simulator writes to the array when a job arrives. -/
theorem NewJob.writes {coreId : ℤ} (agree : Agree time none none jobs g) (found : jobs[i]? = some job)
    (notArrived : job.arrived = false) (new : NewJob time jobs g job coreId jobs' g') :
    (coreId = -1 ∧ jobs.set i job.arrive = jobs') ∨
      (g.HasCore coreId ∧ ((jobs.set i job.arrive).map (SimJob.release coreId)).set i
        (job.arrive.setCore coreId) = jobs') := by
  have member : job ∈ jobs := List.mem_of_getElem? found
  have off := agree.core_of_notArrived member notArrived
  have written {c : ℤ} (isCore : g.HasCore c) :
      ((jobs.set i job.arrive).map (SimJob.release c)).set i (job.arrive.setCore c) =
        (jobs.map (SimJob.release c)).set i (job.start c) := by
    rw [List.map_set, List.set_set]
    rfl
  cases new with
  | idle head =>
    have isIdle : coreId ∈ g.idle := head ▸ List.mem_cons_self ..
    have isCore := (agree.idleCore coreId isIdle).1
    refine .inr ⟨isCore, ?_⟩
    rw [written isCore, map_release, set_eq_alter (SimJob.start coreId) agree.ids found]
    intro j inJobs here
    have nonneg := isCore.1
    exact (agree.onCore j inJobs (by omega)).2.2.1 (here ▸ isIdle)
  | @preempt victim r _ _ inJobs onCore =>
    have isCore := (agree.onCore victim inJobs onCore).2.1
    have released : jobs.map (SimJob.release victim.coreId) = jobs.map (alter victim.jobId (·.setCore (-1))) := by
      refine List.map_congr_left fun j inJobs' => ?_
      by_cases here : j.coreId = victim.coreId
      · obtain rfl := agree.core_inj inJobs inJobs' onCore here.symm
        rw [SimJob.release, if_pos here, alter, if_pos rfl]
        rfl
      · rw [SimJob.release, if_neg here, alter, if_neg]
        intro same
        obtain rfl := eq_of_jobId agree.ids inJobs' inJobs same
        exact here rfl
    have still : (jobs.map (SimJob.release victim.coreId))[i]? = some job := by
      rw [List.getElem?_map, found, Option.map_some, SimJob.release, if_neg]
      exact fun same => onCore (same.symm.trans off)
    refine .inr ⟨isCore, ?_⟩
    rw [written isCore, set_eq_alter (SimJob.start victim.coreId) _ still, released]
    rw [released, map_alter_jobId (by exact fun _ => rfl)]
    exact agree.ids
  | wait => exact .inl ⟨rfl, set_eq_alter SimJob.arrive agree.ids found⟩

/-! ## Deletion -/

/-- Deleting entry `i` moves only the last entry, to the gap. -/
theorem deleteJob_getElem? (kept : (deleteJob jobs i)[k]? = some j) :
    ∃ k', jobs[k']? = some j ∧ (k' = k ∨ k = i ∧ i ≤ k') := by
  cases last : jobs.getLast? with
  | none =>
    rw [deleteJob, last] at kept
    cases kept
  | some lastJob =>
    simp only [deleteJob, last] at kept
    split at kept
    · next notLast =>
      rw [List.getElem?_dropLast, List.length_set] at kept
      obtain ⟨below, kept⟩ := Option.ite_none_right_eq_some.mp kept
      by_cases same : i = k
      · subst same
        rw [List.getElem?_set_self (by omega)] at kept
        rw [List.getLast?_eq_getElem?] at last
        exact ⟨jobs.length - 1, last.trans kept, .inr ⟨rfl, by omega⟩⟩
      · rw [List.getElem?_set_ne same] at kept
        exact ⟨k, kept, .inl rfl⟩
    · rw [List.getElem?_dropLast] at kept
      exact ⟨k, (Option.ite_none_right_eq_some.mp kept).2, .inl rfl⟩

/-! ## A time unit -/

/-- The cores that work in a time unit. -/
def busyCores (jobs : List SimJob) : List ℤ := (jobs.filter fun j => j.coreId ≠ -1).map SimJob.coreId

/-- The quantum clocks after a time unit. -/
def tickClock (jobs : List SimJob) (quantumClock : ℤ → ℤ) (c : ℤ) : ℤ :=
  if c ∈ busyCores jobs then quantumClock c - 1 else quantumClock c

theorem busyCores_cons_of_pos (onCore : j.coreId ≠ -1) : busyCores (j :: jobs) = j.coreId :: busyCores jobs := by
  rw [busyCores, List.filter_cons_of_pos (by simpa using onCore)]
  rfl

theorem busyCores_cons_of_neg (off : ¬ j.coreId ≠ -1) : busyCores (j :: jobs) = busyCores jobs := by
  rw [busyCores, List.filter_cons_of_neg (by simpa using off)]
  rfl

/-- The run of a time unit: no core is given to two jobs. -/
theorem runJobs_eq {cores : ℕ} (inRange : ∀ j ∈ jobs, j.coreId ≠ -1 → 0 ≤ j.coreId ∧ j.coreId < cores)
    {working : List ℤ} (once : (busyCores jobs ++ working).Nodup) (quantumClock : ℤ → ℤ) :
    runJobs cores jobs working quantumClock =
      .ok (jobs.map SimJob.worked, (busyCores jobs).reverse ++ working, tickClock jobs quantumClock) := by
  induction jobs generalizing working quantumClock with
  | nil => rfl
  | cons j jobs ih =>
    have inRange' := fun k member => inRange k (List.mem_cons_of_mem j member)
    by_cases onCore : j.coreId ≠ -1
    · rw [busyCores_cons_of_pos onCore, List.cons_append] at once
      obtain ⟨absent, _⟩ := List.nodup_cons.mp once
      have fresh : j.coreId ∉ working := fun member => absent (List.mem_append_right _ member)
      have clocks : tickClock jobs (Function.update quantumClock j.coreId (quantumClock j.coreId - 1)) =
          tickClock (j :: jobs) quantumClock := by
        funext c
        simp only [tickClock, busyCores_cons_of_pos onCore, List.mem_cons]
        by_cases here : c = j.coreId
        · have notBusy : c ∉ busyCores jobs := fun busy => absent (List.mem_append_left _ (here ▸ busy))
          rw [if_neg notBusy, if_pos (.inl here), here, Function.update_self]
        · rw [Function.update_of_ne here]
          simp only [here, false_or]
      have ran := ih inRange' (List.perm_middle.nodup_iff.mpr once)
        (Function.update quantumClock j.coreId (quantumClock j.coreId - 1))
      rw [runJobs, if_pos onCore, if_neg (not_not.mpr (inRange j (List.mem_cons_self ..) onCore)),
        if_neg fresh, ran, clocks, busyCores_cons_of_pos onCore, List.map_cons, SimJob.worked, if_pos onCore,
        List.reverse_cons, List.append_assoc]
      rfl
    · have clocks : tickClock jobs quantumClock = tickClock (j :: jobs) quantumClock := by
        funext c
        rw [tickClock, tickClock, busyCores_cons_of_neg onCore]
      rw [busyCores_cons_of_neg onCore] at once ⊢
      rw [runJobs, if_neg onCore, ih inRange' once, clocks, List.map_cons, SimJob.worked, if_neg onCore]
      rfl

/-- No core works for two jobs. -/
theorem Agree.busyCores_nodup (agree : Agree time none none jobs g) : (busyCores jobs).Nodup := by
  refine List.Nodup.map_on ?_ (List.Nodup.filter _ (List.Nodup.of_map _ agree.ids))
  intro j member j' member' same
  rw [List.mem_filter, decide_eq_true_iff] at member member'
  exact agree.core_inj member.1 member'.1 member.2 same

/-! ## Units -/

/-- The units that job `jobId` still has to run. -/
def unitsLeft (jobId : ℤ) (jobs : List SimJob) : ℤ :=
  (jobs.map fun j => if j.jobId = jobId then j.runTime else 0).sum

/-- The cores that run job `jobId` in a time unit. -/
def coresOf (jobId : ℤ) (jobs : List SimJob) : ℕ :=
  jobs.countP fun j => j.jobId = jobId ∧ j.coreId ≠ -1

/-- The units that job `jobId` ran. -/
def unitsRun (jobId : ℤ) (snapshots : List (List SimJob)) : ℕ := (snapshots.map (coresOf jobId)).sum

theorem unitsLeft_map {jobId : ℤ} (moves : Moves f) : unitsLeft jobId (jobs.map f) = unitsLeft jobId jobs := by
  rw [unitsLeft, List.map_map]
  refine congrArg List.sum (List.map_congr_left fun j _ => ?_)
  rw [Function.comp_apply, moves.jobId, moves.runTime]

theorem unitsLeft_deleteJob {jobId : ℤ} (found : jobs[i]? = some job) (finished : job.runTime = 0) :
    unitsLeft jobId (deleteJob jobs i) = unitsLeft jobId jobs := by
  have sums := ((deleteJob_perm found).map fun j => if j.jobId = jobId then j.runTime else 0).sum_eq
  rw [List.map_cons, List.sum_cons, finished, ite_self, zero_add] at sums
  exact sums.symm

theorem unitsLeft_worked (jobId : ℤ) (jobs : List SimJob) :
    unitsLeft jobId (jobs.map SimJob.worked) + coresOf jobId jobs = unitsLeft jobId jobs := by
  induction jobs with
  | nil => rfl
  | cons j jobs ih =>
    rw [unitsLeft, coresOf] at ih ⊢
    rw [unitsLeft] at ih ⊢
    rw [List.map_cons, List.map_cons, List.sum_cons, List.countP_cons, List.map_cons, List.sum_cons, ← ih,
      j.worked_jobId]
    by_cases same : j.jobId = jobId
    · by_cases onCore : j.coreId ≠ -1
      · simp only [same, onCore, SimJob.worked, ne_eq, not_false_eq_true, and_self, decide_true, ↓reduceIte]
        omega
      · simp only [same, onCore, SimJob.worked, and_false, decide_false, Bool.false_eq_true, ↓reduceIte]
        omega
    · simp only [same, false_and, decide_false, Bool.false_eq_true, ↓reduceIte]
      omega

theorem unitsLeft_of_notMem {jobId : ℤ} (absent : jobId ∉ jobs.map SimJob.jobId) : unitsLeft jobId jobs = 0 := by
  refine List.sum_eq_zero fun x member => ?_
  obtain ⟨j, inJobs, rfl⟩ := List.mem_map.mp member
  exact if_neg fun (same : j.jobId = jobId) => absent (same ▸ List.mem_map_of_mem inJobs)

theorem unitsLeft_of_mem (ids : (jobs.map SimJob.jobId).Nodup) (member : job ∈ jobs) :
    unitsLeft job.jobId jobs = job.runTime := by
  obtain ⟨front, back, rfl⟩ := List.append_of_mem member
  have perm : (front ++ job :: back).Perm (job :: (front ++ back)) := List.perm_middle
  obtain ⟨fresh, _⟩ := List.nodup_cons.mp ((perm.map SimJob.jobId).nodup_iff.mp ids)
  have none := unitsLeft_of_notMem fresh
  have sums := (perm.map fun j => if j.jobId = job.jobId then j.runTime else 0).sum_eq
  rw [List.map_cons, List.sum_cons, if_pos rfl] at sums
  rw [unitsLeft] at none ⊢
  rw [sums, none, add_zero]

end OsLabs.Scheduler
