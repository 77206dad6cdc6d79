import OsLabs.Proofs.Scheduler.Jobs

/-! # The units of a job

A job executes in a time unit when it is on a core in the unit's snapshot. From the units in which it
executes follow its completion, its turnaround, response and waiting time.
-/

namespace OsLabs.Scheduler

variable {jobId t : ℤ} {jobs snapshot : List SimJob} {snapshots : List (List SimJob)} {j : SimJob}

/-- The time units in which a job executes, earliest first. The snapshots are latest first. -/
def executed (jobId : ℤ) : List (List SimJob) → List ℤ
  | [] => []
  | snapshot :: snapshots => executed jobId snapshots ++
      if coresOf jobId snapshot = 0 then [] else [(snapshots.length : ℤ)]

/-- The end of the last unit in which the job executed. -/
def completion (snapshots : List (List SimJob)) (j : SimJob) : ℤ := (executed j.jobId snapshots).getLastD 0 + 1

def turnaround (snapshots : List (List SimJob)) (j : SimJob) : ℤ := completion snapshots j - j.arrivalTime

def response (snapshots : List (List SimJob)) (j : SimJob) : ℤ :=
  (executed j.jobId snapshots).headD 0 - j.arrivalTime

/-- The time units from one time to another. -/
def unitsFrom (first last : ℤ) : List ℤ := (List.range (last - first).toNat).map fun k : ℕ => first + k

/-- The number of units from arrival to completion in which the job did not execute. -/
def waited (snapshots : List (List SimJob)) (j : SimJob) : ℤ :=
  (unitsFrom j.arrivalTime (completion snapshots j)).countP (· ∉ executed j.jobId snapshots)

theorem coresOf_eq_zero (off : ∀ j ∈ jobs, j.jobId = jobId → j.coreId = -1) : coresOf jobId jobs = 0 := by
  refine List.countP_eq_zero.mpr fun j member => ?_
  rw [decide_eq_true_iff]
  exact fun both => both.2 (off j member both.1)

theorem coresOf_ne_zero (member : j ∈ jobs) (onCore : j.coreId ≠ -1) : coresOf j.jobId jobs ≠ 0 := by
  refine Nat.ne_of_gt (List.countP_pos_iff.mpr ⟨j, member, ?_⟩)
  exact decide_eq_true ⟨rfl, onCore⟩

theorem executed_cons_of_off (off : ∀ j ∈ snapshot, j.jobId = jobId → j.coreId = -1) :
    executed jobId (snapshot :: snapshots) = executed jobId snapshots := by
  rw [executed, if_pos (coresOf_eq_zero off), List.append_nil]

theorem executed_cons_of_onCore (member : j ∈ snapshot) (onCore : j.coreId ≠ -1) :
    executed j.jobId (snapshot :: snapshots) = executed j.jobId snapshots ++ [(snapshots.length : ℤ)] := by
  rw [executed, if_neg (coresOf_ne_zero member onCore)]

/-- A job executes in a unit before, or now if it is on a core. -/
theorem mem_executed_cons : t ∈ executed jobId (snapshot :: snapshots) ↔
    t ∈ executed jobId snapshots ∨
      t = snapshots.length ∧ ∃ j ∈ snapshot, j.jobId = jobId ∧ j.coreId ≠ -1 := by
  have now : coresOf jobId snapshot ≠ 0 ↔ ∃ j ∈ snapshot, j.jobId = jobId ∧ j.coreId ≠ -1 := by
    rw [coresOf, ← Nat.pos_iff_ne_zero, List.countP_pos_iff]
    simp only [decide_eq_true_eq]
  rw [executed, List.mem_append, ← now]
  split
  · next none => simp [none]
  · next some => simp [some]

theorem executed_range (executes : t ∈ executed jobId snapshots) : 0 ≤ t ∧ t < snapshots.length := by
  induction snapshots with
  | nil => exact (List.not_mem_nil executes).elim
  | cons snapshot snapshots ih =>
    rw [executed, List.mem_append] at executes
    rw [List.length_cons, Nat.cast_succ]
    rcases executes with before | now
    · have range := ih before
      omega
    · split at now
      · exact (List.not_mem_nil now).elim
      · rw [List.mem_singleton.mp now]
        omega

theorem executed_increasing (jobId : ℤ) (snapshots : List (List SimJob)) :
    (executed jobId snapshots).Pairwise (· < ·) := by
  induction snapshots with
  | nil => exact List.Pairwise.nil
  | cons snapshot snapshots ih =>
    rw [executed]
    split
    · rwa [List.append_nil]
    · refine List.pairwise_append.mpr ⟨ih, List.pairwise_singleton .., fun t before t' now => ?_⟩
      rw [List.mem_singleton.mp now]
      exact (executed_range before).2

theorem getLastD_executed (executes : executed jobId snapshots ≠ []) :
    (executed jobId snapshots).getLastD 0 = (executed jobId snapshots).getLast executes := by
  rw [List.getLastD_eq_getLast?, List.getLast?_eq_some_getLast executes, Option.getD_some]

/-- On one core at a time, a job executes in as many units as it runs. -/
theorem executed_length (once : ∀ snapshot ∈ snapshots, coresOf jobId snapshot ≤ 1) :
    (executed jobId snapshots).length = unitsRun jobId snapshots := by
  induction snapshots with
  | nil => rfl
  | cons snapshot snapshots ih =>
    obtain ⟨here, before⟩ := List.forall_mem_cons.mp once
    have rest := ih before
    rw [unitsRun] at rest ⊢
    rw [executed, List.length_append, rest, List.map_cons, List.sum_cons]
    split
    · next none =>
      rw [none, List.length_nil]
      omega
    · next some =>
      rw [List.length_singleton]
      omega

theorem mem_unitsFrom {first last : ℤ} : t ∈ unitsFrom first last ↔ first ≤ t ∧ t < last := by
  rw [unitsFrom, List.mem_map]
  constructor
  · rintro ⟨k, inRange, rfl⟩
    have below := List.mem_range.mp inRange
    omega
  · rintro ⟨after, before⟩
    exact ⟨(t - first).toNat, List.mem_range.mpr (by omega), by omega⟩

theorem unitsFrom_nodup (first last : ℤ) : (unitsFrom first last).Nodup :=
  List.nodup_range.map fun k k' (same : first + k = first + k') => by omega

/-- The units outside of `executed`, from the arrival to the completion. -/
theorem waited_eq (after : ∀ t ∈ executed j.jobId snapshots, j.arrivalTime ≤ t)
    (executes : executed j.jobId snapshots ≠ []) :
    waited snapshots j = turnaround snapshots j - (executed j.jobId snapshots).length := by
  have increasing := executed_increasing j.jobId snapshots
  have last := getLastD_executed executes
  have within (t : ℤ) (member : t ∈ executed j.jobId snapshots) :
      t ∈ unitsFrom j.arrivalTime (completion snapshots j) := by
    rw [mem_unitsFrom, completion, last]
    refine ⟨after t member, Int.lt_add_one_of_le ?_⟩
    exact List.Pairwise.rel_getLast_of_rel_getLast_getLast (increasing.imp le_of_lt) member le_rfl
  have ran : (unitsFrom j.arrivalTime (completion snapshots j)).countP (· ∈ executed j.jobId snapshots) =
      (executed j.jobId snapshots).length := by
    rw [List.countP_eq_length_filter]
    refine ((List.perm_ext_iff_of_nodup ((unitsFrom_nodup _ _).filter _) (increasing.imp ne_of_lt)).mpr
      fun t => ?_).length_eq
    rw [List.mem_filter, decide_eq_true_iff]
    exact and_iff_right_of_imp (within t)
  have whole := List.length_eq_countP_add_countP (fun t => decide (t ∈ executed j.jobId snapshots))
    (l := unitsFrom j.arrivalTime (completion snapshots j))
  simp only [decide_eq_true_eq] at whole
  have arrived : j.arrivalTime ≤ completion snapshots j := by
    have first := after _ (List.getLast_mem executes)
    rw [completion, last]
    omega
  have length : ((unitsFrom j.arrivalTime (completion snapshots j)).length : ℤ) =
      completion snapshots j - j.arrivalTime := by
    rw [unitsFrom, List.length_map, List.length_range]
    omega
  rw [waited, turnaround]
  omega

end OsLabs.Scheduler
