import OsLabs.Soundness.Scheduler.Accounting
import OsLabs.Soundness.Scheduler.Diagram

/-! # The totals and the diagram

The simulator prints the final diagram and the averages of the library. Whoever reads the diagram can
compute the totals behind the averages from its rows and the arrival times in the file.
-/

namespace OsLabs.Scheduler

open DeterministicRun

variable {o : Options} {lines : List JobLine} {s : Sim} {snapshot : List SimJob} {snapshots : List (List SimJob)}
  {k t : ℕ}

/-! ## Reading a job off the table -/

/-- The time units in which a row shows the job. -/
def unitsOf (table : List (List (Option ℕ))) (k : ℕ) : List ℤ :=
  ((List.range (table.headD []).length).filter fun t => table.any fun row => row[t]? = some (some k)).map Nat.cast

def shownTurnaround (units : List ℤ) (arrivalTime : ℤ) : ℤ := units.getLastD 0 + 1 - arrivalTime

def shownWaiting (units : List ℤ) (arrivalTime : ℤ) : ℤ :=
  (unitsFrom arrivalTime (units.getLastD 0 + 1)).countP (· ∉ units)

def shownResponse (units : List ℤ) (arrivalTime : ℤ) : ℤ := units.headD 0 - arrivalTime

/-- The sum over the jobs in the file of what the table shows of each. -/
def shownTotal (shows : List ℤ → ℤ → ℤ) (table : List (List (Option ℕ))) (lines : List JobLine) : ℤ :=
  (lines.mapIdx fun k line => shows (unitsOf table k) line.arrivalTime).sum

theorem shows_iff : ((tableOf o.cores snapshots).any fun row => row[t]? = some (some k)) = true ↔
    ∃ c < o.cores, (rowOf c snapshots)[t]? = some (some k) := by
  simp only [tableOf, List.any_map, List.any_eq_true, List.mem_range, Function.comp_apply, decide_eq_true_eq]

theorem rowOf_length (c : ℤ) (snapshots : List (List SimJob)) : (rowOf c snapshots).length = snapshots.length := by
  rw [rowOf, List.length_map, List.length_reverse]

theorem tableOf_width (o : Options) (snapshots : List (List SimJob)) :
    ((tableOf o.cores snapshots).headD []).length = snapshots.length := by
  obtain ⟨n, isSucc⟩ : ∃ n, o.cores = n + 1 := ⟨o.cores - 1, by have positive := o.coresPos; omega⟩
  rw [tableOf, isSucc, List.range_succ_eq_map, List.map_cons, List.headD_cons, rowOf_length]

/-- The last column shows the job if it is on a core now. -/
theorem Shown.last_iff (shown : Shown o lines snapshots snapshot) :
    (∃ c < o.cores, (rowOf c (snapshot :: snapshots))[snapshots.length]? = some (some k)) ↔ coresOf k snapshot ≠ 0 := by
  rw [shown.onCore_iff]
  refine exists_congr fun c => and_congr_right fun _ => ?_
  rw [rowOf_cons, List.getElem?_append_right (rowOf_length c snapshots).le, rowOf_length, Nat.sub_self]
  exact Option.some_inj

/-- The table shows the units in which the job executed. -/
theorem AllShown.unitsOf_eq (all : AllShown o lines snapshots) (k : ℕ) :
    unitsOf (tableOf o.cores snapshots) k = executed k snapshots := by
  rw [unitsOf, tableOf_width]
  induction snapshots with
  | nil => rfl
  | cons snapshot snapshots ih =>
    obtain ⟨shown, before⟩ := all
    have earlier : (List.range snapshots.length).filter (fun t =>
          (tableOf o.cores (snapshot :: snapshots)).any fun row => row[t]? = some (some k)) =
        (List.range snapshots.length).filter fun t =>
          (tableOf o.cores snapshots).any fun row => row[t]? = some (some k) := by
      refine List.filter_congr fun t inside => ?_
      rw [List.mem_range] at inside
      simp only [tableOf, List.any_map, Function.comp_def, rowOf_cons,
        List.getElem?_append_left (inside.trans_eq (rowOf_length _ snapshots).symm)]
    rw [List.length_cons, List.range_succ, List.filter_append, List.map_append, earlier, ih before, executed,
      List.filter_singleton]
    congr 1
    by_cases runs : coresOf k snapshot = 0
    · have off := mt (shows_iff.trans shown.last_iff).mp (not_not.mpr runs)
      rw [if_pos runs, Bool.eq_false_iff.mpr off]
      rfl
    · rw [if_neg runs, (shows_iff.trans shown.last_iff).mpr runs]
      rfl

/-! ## The totals -/

/-- The totals of the library are those of the table. -/
structure Totals (lines : List JobLine) (table : List (List (Option ℕ))) (g : Globals) : Prop where
  totalJobs : g.totalJobs = lines.length
  totalTurnaroundTime : g.totalTurnaroundTime = shownTotal shownTurnaround table lines
  totalWaitingTime : g.totalWaitingTime = shownTotal shownWaiting table lines
  totalResponseTime : g.totalResponseTime = shownTotal shownResponse table lines

theorem AllShown.sum_loadJobs (all : AllShown o lines snapshots) (shows : List ℤ → ℤ → ℤ) :
    ((loadJobs lines).map fun j => shows (executed j.jobId snapshots) j.arrivalTime).sum =
      shownTotal shows (tableOf o.cores snapshots) lines := by
  rw [shownTotal]
  congr 1
  refine List.ext_getElem? fun k => ?_
  rw [List.getElem?_map, loadJobs, List.getElem?_mapIdx, List.getElem?_mapIdx, Option.map_map]
  refine Option.map_congr fun line _ => ?_
  rw [all.unitsOf_eq k]
  rfl

theorem Accounted.totals (accounted : Accounted lines s) (all : AllShown o lines s.snapshots) :
    Totals lines (tableOf o.cores s.snapshots) s.globals where
  totalJobs := accounted.totalJobs
  totalTurnaroundTime := accounted.totalTurnaroundTime.trans (all.sum_loadJobs shownTurnaround)
  totalWaitingTime := accounted.totalWaitingTime.trans (all.sum_loadJobs shownWaiting)
  totalResponseTime := accounted.totalResponseTime.trans (all.sum_loadJobs shownResponse)

/-- The totals behind the averages are those that the final diagram shows, as long as the sum of the turnaround
times is an `int`. -/
theorem diagram_shows_totals (o : Options) (malloc : Malloc) (lines : List JobLine)
    (valid : ∀ line ∈ lines, line.Valid) (few : lines.length ≤ 10 ^ 8) :
    ∃ n s d table, run (drawnStep o) n (initial o malloc lines, .start o.cores) = .ok (s, d) ∧ s.phase = .done ∧
      d.rows.mapM cells.decode = some table ∧
      (Totals lines table s.globals ↔ shownTotal shownTurnaround table lines ≤ intMax) := by
  obtain ⟨n, s, d, ran, done, inv, ledger, drawn⟩ := drawn_ends o malloc lines valid
  have exact := (ledger.wrapped (inv.completed done).jobs).accounted_iff fun j member =>
    drawn.shown.charges valid (fun k line inFile => inv.unitsRun_eq done inFile) member
  have shown := drawn.shown.sum_loadJobs shownTurnaround
  refine ⟨n, s, d, _, ran, done, drawn.reads few, fun totals => ?_, fun small => ?_⟩
  · exact totals.totalTurnaroundTime ▸ (ledger.wrapped (inv.completed done).jobs).turnaround_le
  · exact (exact.mpr (shown.le.trans small)).totals drawn.shown

/-- The second job preempts the first before it executes. -/
theorem diagram_shows_totals_preempted :
    let o : Options := ⟨1, .ppri, 1, by decide, nofun⟩
    let lines : List JobLine := [⟨0, 3, 2⟩, ⟨0, 2, 1⟩]
    let malloc : Malloc := ⟨fun _ _ => newJob 0 0 0 0, fun _ _ => 0, fun _ => none⟩
    ∃ n s d table, run (drawnStep o) n (initial o malloc lines, .start o.cores) = .ok (s, d) ∧ s.phase = .done ∧
      d.rows.mapM cells.decode = some table ∧
      (Totals lines table s.globals ↔ shownTotal shownTurnaround table lines ≤ intMax) :=
  diagram_shows_totals _ _ _ (by decide) (by decide)

/-! ## How long a job takes -/

/-- Under every scheme the turnaround time that the diagram shows of a job is bounded by the work in the file. -/
theorem turnaround_bounded (o : Options) (malloc : Malloc) (lines : List JobLine)
    (valid : ∀ line ∈ lines, line.Valid) (few : lines.length ≤ 10 ^ 8) :
    ∃ n s d table, run (drawnStep o) n (initial o malloc lines, .start o.cores) = .ok (s, d) ∧ s.phase = .done ∧
      d.rows.mapM cells.decode = some table ∧ ∀ (k : ℕ) line, lines[k]? = some line →
        o.cores * shownTurnaround (unitsOf table k) line.arrivalTime ≤
          (lines.map JobLine.runTime).sum + (o.cores - 1) * line.runTime := by
  obtain ⟨n, s, d, ran, done, inv, -, drawn⟩ := drawn_ends o malloc lines valid
  refine ⟨n, s, d, _, ran, done, drawn.reads few, fun k line inFile => ?_⟩
  rw [drawn.shown.unitsOf_eq k]
  exact drawn.shown.turnaround_le valid (fun k line inFile => inv.unitsRun_eq done inFile) inFile

/-- A long job that two others could keep waiting. -/
theorem turnaround_bounded_three :
    let o : Options := ⟨2, .psjf, 1, by decide, nofun⟩
    let lines : List JobLine := [⟨0, 5, 0⟩, ⟨1, 2, 0⟩, ⟨1, 2, 0⟩]
    let malloc : Malloc := ⟨fun _ _ => newJob 0 0 0 0, fun _ _ => 0, fun _ => none⟩
    ∃ n s d table, run (drawnStep o) n (initial o malloc lines, .start o.cores) = .ok (s, d) ∧ s.phase = .done ∧
      d.rows.mapM cells.decode = some table ∧ ∀ (k : ℕ) line, lines[k]? = some line →
        o.cores * shownTurnaround (unitsOf table k) line.arrivalTime ≤
          (lines.map JobLine.runTime).sum + (o.cores - 1) * line.runTime :=
  turnaround_bounded _ _ _ (by decide) (by decide)

end OsLabs.Scheduler
