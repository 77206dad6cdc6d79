import Mathlib
import OsLabs.Soundness.Scheduler.Diagram
import OsLabs.ToMathlib.WorkConserving

/-! # How long a job takes

No scheme lets a job starve: whatever the queue prefers, the cores are busy with other jobs while a job waits,
so its turnaround time is bounded by the units in the file.
-/

namespace OsLabs.Scheduler

open WorkConserving

variable {o : Options} {lines : List JobLine} {snapshot : List SimJob}
  {snapshots earlier later : List (List SimJob)} {line : JobLine} {k t : ℕ}

/-! ## Executed units -/

/-- A job executed in the units in whose snapshots it is on a core. -/
theorem mem_executed_iff {jobId : ℤ} (found : snapshots.reverse[t]? = some snapshot) :
    (t : ℤ) ∈ executed jobId snapshots ↔ coresOf jobId snapshot ≠ 0 := by
  induction snapshots with
  | nil => cases found
  | cons snapshot' before ih =>
    have within : t < before.length + 1 := by
      have inside := (List.getElem?_eq_some_iff.mp found).1
      rwa [List.length_reverse] at inside
    rw [executed, List.mem_append]
    rw [List.reverse_cons] at found
    by_cases isLast : t = before.length
    · have here : snapshot' = snapshot := by
        rw [isLast, ← List.length_reverse, List.getElem?_concat_length] at found
        exact Option.some.inj found
      have notBefore : (t : ℤ) ∉ executed jobId before := fun member => by
        have range := executed_range member
        omega
      rw [or_iff_right notBefore, here, isLast]
      split
      · next none => simp only [List.not_mem_nil, none, ne_eq, not_true_eq_false]
      · next some => simp only [List.mem_singleton, some, ne_eq, not_false_eq_true]
    · have inside : t < before.reverse.length := by
        rw [List.length_reverse]
        omega
      rw [List.getElem?_append_left inside] at found
      have notLast : (t : ℤ) ∉ if coresOf jobId snapshot' = 0 then [] else [(before.length : ℤ)] := fun member => by
        split at member
        · exact List.not_mem_nil member
        · have same := List.mem_singleton.mp member
          omega
      rw [or_iff_left notLast, ih found]

theorem unitsRun_append (jobId : ℤ) (later earlier : List (List SimJob)) :
    unitsRun jobId (later ++ earlier) = unitsRun jobId later + unitsRun jobId earlier := by
  rw [unitsRun, List.map_append, List.sum_append]
  rfl

theorem executed_append {jobId : ℤ} (none : unitsRun jobId later = 0) :
    executed jobId (later ++ earlier) = executed jobId earlier := by
  induction later with
  | nil => rfl
  | cons snapshot later ih =>
    rw [unitsRun, List.map_cons, List.sum_cons] at none
    obtain ⟨here, rest⟩ := Nat.add_eq_zero_iff.mp none
    rw [List.cons_append, executed, if_pos here, List.append_nil, ih rest]

/-! ## Busy cores -/

/-- On busy cores there are as many jobs as cores. -/
theorem Shown.cores_le (shown : Shown o lines earlier snapshot) (all : ∀ c < o.cores, jobOn c snapshot ≠ none)
    {units : ℕ → Finset ℤ} {t : ℤ} (runs : ∀ k : ℕ, coresOf k snapshot ≠ 0 → t ∈ units k) :
    o.cores ≤ (running (Finset.range lines.length) units t).card := by
  have on (c : ℕ) (isCore : c < o.cores) : ∃ j ∈ snapshot, j.coreId = c ∧ j.jobId = ((jobOn c snapshot).getD 0 : ℕ) := by
    obtain ⟨k, isOn⟩ := Option.ne_none_iff_exists'.mp (all c isCore)
    obtain ⟨j, member, onCore, jobId⟩ := shown.jobOn_iff.mp isOn
    exact ⟨j, member, onCore, by rw [isOn, Option.getD_some, jobId]⟩
  rw [← Finset.card_range o.cores]
  refine Finset.card_le_card_of_injOn (fun c : ℕ => (jobOn c snapshot).getD 0) (fun c isCore => ?_)
    fun c isCore c' isCore' same => ?_
  · obtain ⟨j, member, onCore, jobId⟩ := on c (Finset.mem_range.mp isCore)
    obtain ⟨k, line, inFile, jobId', -⟩ := shown.loaded j member
    have inside := (List.getElem?_eq_some_iff.mp inFile).1
    have some := coresOf_ne_zero member (by omega)
    have same : k = (jobOn c snapshot).getD 0 := Int.natCast_inj.mp (jobId'.symm.trans jobId)
    rw [jobId', same] at some
    exact Finset.mem_filter.mpr ⟨Finset.mem_range.mpr (same.symm.trans_lt inside), runs _ some⟩
  · obtain ⟨j, member, onCore, jobId⟩ := on c (Finset.mem_range.mp isCore)
    obtain ⟨j', member', onCore', jobId'⟩ := on c' (Finset.mem_range.mp isCore')
    obtain rfl := eq_of_jobId shown.ids member member' (jobId.trans ((congrArg Nat.cast same).trans jobId'.symm))
    omega

/-- The units in which a job of the file executed. -/
def unitSet (snapshots : List (List SimJob)) (k : ℕ) : Finset ℤ := (executed k snapshots).toFinset

/-- From its arrival to its last unit, a job that does not execute finds all cores busy. -/
theorem AllShown.busy (all : AllShown o lines snapshots) (inFile : lines[k]? = some line) (valid : line.Valid)
    (complete : unitsRun k snapshots = line.runTime) (executes : executed k snapshots ≠ []) :
    Busy (Finset.range lines.length) (unitSet snapshots) o.cores
      (Finset.Ico line.arrivalTime ((executed k snapshots).getLastD 0 + 1)) k := by
  intro t inWindow notRunning
  obtain ⟨after, ahead⟩ := Finset.mem_Ico.mp inWindow
  rw [unitSet, List.mem_toFinset] at notRunning
  obtain ⟨t, rfl⟩ := Int.eq_ofNat_of_zero_le (valid.1.trans after)
  have last := getLastD_executed executes
  have inRange := executed_range (List.getLast_mem executes)
  have inside : t < snapshots.reverse.length := by
    rw [List.length_reverse]
    omega
  have found := List.getElem?_eq_getElem inside
  obtain ⟨earlier, length, shown, -, taken⟩ := all.at found
  refine shown.cores_le (fun c isCore idle => ?_) fun k' runs => ?_
  · -- the job has units left, so it would be on a core
    have split : snapshots = (snapshots.reverse.drop t).reverse ++ earlier := by
      rw [← List.reverse_reverse earlier, ← taken, ← List.reverse_append, List.take_append_drop, List.reverse_reverse]
    have off : coresOf k snapshots.reverse[t] = 0 := not_not.mp fun runs => notRunning ((mem_executed_iff found).mpr runs)
    have gone := shown.unitsLeft_eq_zero isCore idle inFile (by omega) off
    have total := shown.runTime inFile
    rw [split, unitsRun_append] at complete
    have none : unitsRun k (snapshots.reverse.drop t).reverse = 0 := by omega
    have same : executed k snapshots = executed k earlier :=
      (congrArg (executed k) split).trans (executed_append none)
    have before : (executed k snapshots).getLast executes ∈ executed k earlier := same ▸ List.getLast_mem executes
    have range := executed_range before
    omega
  · rw [unitSet, List.mem_toFinset]
    exact (mem_executed_iff found).mpr runs

/-! ## The bound -/

theorem AllShown.coresOf_le (all : AllShown o lines snapshots) (jobId : ℤ) :
    ∀ snapshot ∈ snapshots, coresOf jobId snapshot ≤ 1 := by
  induction snapshots with
  | nil => exact List.forall_mem_nil _
  | cons snapshot earlier ih => exact List.forall_mem_cons.mpr ⟨all.1.coresOf_le jobId, ih all.2⟩

theorem AllShown.card_unitSet (all : AllShown o lines snapshots) (complete : unitsRun k snapshots = line.runTime) :
    ((unitSet snapshots k).card : ℤ) = line.runTime := by
  rw [unitSet, List.toFinset_card_of_nodup ((executed_increasing k snapshots).imp ne_of_lt),
    executed_length (all.coresOf_le k), complete]

theorem AllShown.executes (all : AllShown o lines snapshots) (complete : unitsRun k snapshots = line.runTime)
    (valid : line.Valid) : executed k snapshots ≠ [] := by
  intro none
  have own := all.card_unitSet complete
  rw [unitSet, none, List.toFinset_nil, Finset.card_empty] at own
  have some := valid.2
  omega

/-- Every job is done by the time that the cores need for all units in the file and for its own alone. -/
theorem AllShown.turnaround_le (all : AllShown o lines snapshots) (valid : ∀ line ∈ lines, line.Valid)
    (complete : ∀ (k : ℕ) line, lines[k]? = some line → unitsRun k snapshots = line.runTime)
    (inFile : lines[k]? = some line) :
    o.cores * ((executed k snapshots).getLastD 0 + 1 - line.arrivalTime) ≤
      (lines.map JobLine.runTime).sum + (o.cores - 1) * line.runTime := by
  have own := all.card_unitSet (complete k line inFile)
  have work : ((∑ k ∈ Finset.range lines.length, (unitSet snapshots k).card : ℕ) : ℤ) =
      (lines.map JobLine.runTime).sum := by
    rw [Finset.sum_range, Nat.cast_sum, ← Fin.sum_univ_fun_getElem]
    exact Finset.sum_congr rfl fun i _ => all.card_unitSet (complete i _ (List.getElem?_eq_getElem i.isLt))
  have here := valid line (List.mem_of_getElem? inFile)
  have executes := all.executes (complete k line inFile) here
  have bound := (all.busy inFile here (complete k line inFile) executes).window_le
    (Finset.mem_range.mpr (List.getElem?_eq_some_iff.mp inFile).1)
  have others : ((o.cores - 1 : ℕ) : ℤ) = o.cores - 1 := Nat.cast_pred o.coresPos
  rw [Int.card_Ico] at bound
  calc
    o.cores * ((executed k snapshots).getLastD 0 + 1 - line.arrivalTime)
      ≤ o.cores * ((executed k snapshots).getLastD 0 + 1 - line.arrivalTime).toNat :=
      mul_le_mul_of_nonneg_left (Int.self_le_toNat _) (Int.natCast_nonneg _)
    _ ≤ (lines.map JobLine.runTime).sum + (o.cores - 1) * line.runTime := by
      rw [← work, ← own, ← others]
      exact_mod_cast bound

/-! ## Arrivals and single cores -/

theorem AllShown.arrival_le (all : AllShown o lines snapshots) (inFile : lines[k]? = some line) {unit : ℤ}
    (executes : unit ∈ executed k snapshots) : line.arrivalTime ≤ unit := by
  have range := executed_range executes
  obtain ⟨t, rfl⟩ := Int.eq_ofNat_of_zero_le range.1
  have inside : t < snapshots.reverse.length := by
    rw [List.length_reverse]
    omega
  have found := List.getElem?_eq_getElem inside
  obtain ⟨earlier, rfl, shown, -⟩ := all.at found
  obtain ⟨j, member, both⟩ := List.countP_pos_iff.mp (Nat.pos_of_ne_zero ((mem_executed_iff found).mp executes))
  obtain ⟨jobId, onCore⟩ := of_decide_eq_true both
  obtain ⟨k', line', inFile', jobId', arrivalTime⟩ := shown.loaded j member
  obtain rfl : k' = k := by omega
  obtain rfl := Option.some.inj (inFile.symm.trans inFile')
  exact arrivalTime ▸ shown.arrived j member onCore

/-- One core runs one job at a time. -/
theorem AllShown.eq_of_executed {k' : ℕ} {unit : ℤ} (all : AllShown o lines snapshots) (single : o.cores = 1)
    (executes : unit ∈ executed k snapshots) (executes' : unit ∈ executed k' snapshots) : k = k' := by
  have range := executed_range executes
  obtain ⟨t, rfl⟩ := Int.eq_ofNat_of_zero_le range.1
  have inside : t < snapshots.reverse.length := by
    rw [List.length_reverse]
    omega
  have found := List.getElem?_eq_getElem inside
  obtain ⟨earlier, -, shown, -⟩ := all.at found
  obtain ⟨c, isCore, isOn⟩ := shown.onCore_iff.mp ((mem_executed_iff found).mp executes)
  obtain ⟨c', isCore', isOn'⟩ := shown.onCore_iff.mp ((mem_executed_iff found).mp executes')
  obtain rfl : c = c' := by omega
  exact Option.some.inj (isOn.symm.trans isOn')

/-- On one core the jobs end in different units, so their last units add up to no less than the first ones do. -/
theorem AllShown.sum_last_le (all : AllShown o lines snapshots) (single : o.cores = 1)
    (executes : ∀ k < lines.length, executed k snapshots ≠ []) :
    ∑ i ∈ Finset.range lines.length, (i : ℤ) ≤ ∑ k ∈ Finset.range lines.length, (executed k snapshots).getLastD 0 := by
  have member (k : ℕ) (inFile : k ∈ Finset.range lines.length) :
      (executed k snapshots).getLastD 0 ∈ executed k snapshots := by
    have some := executes k (Finset.mem_range.mp inFile)
    rw [getLastD_executed some]
    exact List.getLast_mem some
  have injective : Set.InjOn (fun k : ℕ => (executed k snapshots).getLastD 0) (Finset.range lines.length) := by
    intro k inFile k' inFile' same
    have ends := member k inFile
    change (executed k snapshots).getLastD 0 = (executed k' snapshots).getLastD 0 at same
    rw [same] at ends
    exact all.eq_of_executed single ends (member k' inFile')
  have nonneg : ∀ unit ∈ (Finset.range lines.length).image fun k : ℕ => (executed k snapshots).getLastD 0, 0 ≤ unit := by
    intro unit isLast
    obtain ⟨k, inFile, rfl⟩ := Finset.mem_image.mp isLast
    exact (executed_range (member k inFile)).1
  have bound := Finset.sum_range_le_sum nonneg
  rw [Finset.card_image_of_injOn injective, Finset.card_range, Finset.sum_image injective] at bound
  simpa only [zero_add] using bound

end OsLabs.Scheduler
