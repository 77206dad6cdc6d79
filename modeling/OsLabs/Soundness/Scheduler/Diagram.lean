import OsLabs.Proofs.Scheduler.Accounting
import OsLabs.Proofs.Scheduler.Diagram
import OsLabs.Proofs.Scheduler.Units
import OsLabs.ToMathlib.DeterministicRun

/-! # What the final timing diagram shows

Read back label by label, the rows of the final diagram are a schedule of the jobs in the file: every job
runs its units, after its arrival and on one core at a time, and no core is idle while a job waits.
-/

namespace OsLabs.Scheduler

open CStrings DeterministicRun

variable {o : Options} {lines : List JobLine} {s : Sim} {d : Diagram} {snapshot : List SimJob}
  {snapshots earlier : List (List SimJob)} {j : SimJob} {c k t : ℕ} {table : List (List (Option ℕ))} {unit : Option ℕ}

/-- What a core does in a time unit. -/
def cell (table : List (List (Option ℕ))) (c t : ℕ) : Option (Option ℕ) := table[c]?.bind (·[t]?)

/-- A table of cores and time units, read as a schedule of the jobs in the file. -/
structure Schedule (lines : List JobLine) (table : List (List (Option ℕ))) : Prop where
  afterArrival : ∀ c t k : ℕ, cell table c t = some (some k) → ∃ line : JobLine,
    lines[k]? = some line ∧ line.arrivalTime ≤ t
  exclusive : ∀ c c' t k : ℕ, cell table c t = some (some k) → cell table c' t = some (some k) → c = c'
  complete : ∀ (k : ℕ) (line : JobLine), lines[k]? = some line → (table.flatten.count (some k) : ℤ) = line.runTime
  /-- While a core is idle, every job that has arrived runs or has had its units. -/
  conserving : ∀ c t : ℕ, cell table c t = some none →
    ∀ (k : ℕ) (line : JobLine), lines[k]? = some line → line.arrivalTime ≤ t →
    (∃ c', cell table c' t = some (some k)) ∨ ((table.map (·.take t)).flatten.count (some k) : ℤ) = line.runTime

/-! ## Single time units -/

theorem jobOn_eq_some (isOn : jobOn c snapshot = some k) : ∃ j ∈ snapshot, j.coreId = c ∧ j.jobId.toNat = k := by
  obtain ⟨j, found, number⟩ := Option.map_eq_some_iff.mp isOn
  have onCore := List.find?_some found
  rw [decide_eq_true_iff] at onCore
  exact ⟨j, List.mem_of_find?_eq_some found, onCore, number⟩

theorem Shown.jobOn_iff (shown : Shown o lines earlier snapshot) :
    jobOn c snapshot = some k ↔ ∃ j ∈ snapshot, j.coreId = c ∧ j.jobId = k := by
  have named {j : SimJob} (member : j ∈ snapshot) : (j.jobId.toNat : ℤ) = j.jobId := by
    obtain ⟨k', _, _, jobId, _⟩ := shown.loaded j member
    omega
  constructor
  · intro isOn
    obtain ⟨j, member, onCore, rfl⟩ := jobOn_eq_some isOn
    exact ⟨j, member, onCore, (named member).symm⟩
  · rintro ⟨j, member, onCore, jobId⟩
    cases isOn : jobOn c snapshot with
    | none => exact absurd onCore (jobOn_eq_none_iff.mp isOn j member)
    | some k' =>
      obtain ⟨j', member', onCore', rfl⟩ := jobOn_eq_some isOn
      have working {i : SimJob} (inSnapshot : i ∈ snapshot) (isOn : i.coreId = c) :
          i ∈ snapshot.filter fun i => i.coreId ≠ -1 :=
        List.mem_filter.mpr ⟨inSnapshot, decide_eq_true (by omega)⟩
      have same := List.inj_on_of_nodup_map shown.once (working member' onCore') (working member onCore)
        (onCore'.trans onCore.symm)
      rw [same, jobId, Int.toNat_natCast]

theorem sum_indicator (p : ℕ → Prop) [DecidablePred p] (cs : List ℕ) :
    (cs.map fun c => if p c then 1 else 0).sum = cs.countP p := by
  induction cs with
  | nil => rfl
  | cons c cs ih =>
    rw [List.map_cons, List.sum_cons, List.countP_cons, ih, Nat.add_comm]
    simp only [decide_eq_true_eq]

theorem Shown.coresOf_le (shown : Shown o lines earlier snapshot) (jobId : ℤ) : coresOf jobId snapshot ≤ 1 := by
  have most := List.nodup_iff_count_le_one.mp shown.ids jobId
  rw [List.count, List.countP_map] at most
  refine (List.countP_mono_left fun j _ both => ?_).trans most
  exact beq_iff_eq.mpr (of_decide_eq_true both).1

theorem Shown.onCore_iff (shown : Shown o lines earlier snapshot) :
    coresOf k snapshot ≠ 0 ↔ ∃ c < o.cores, jobOn c snapshot = some k := by
  constructor
  · intro runs
    obtain ⟨j, member, both⟩ := List.countP_pos_iff.mp (Nat.pos_of_ne_zero runs)
    obtain ⟨jobId, onCore⟩ := of_decide_eq_true both
    have range := (shown.inRange j member).resolve_left onCore
    obtain ⟨c, core⟩ := Int.eq_ofNat_of_zero_le range.1
    exact ⟨c, by omega, shown.jobOn_iff.mpr ⟨j, member, core, jobId⟩⟩
  · rintro ⟨c, _, isOn⟩
    obtain ⟨j, member, onCore, jobId⟩ := shown.jobOn_iff.mp isOn
    exact jobId ▸ coresOf_ne_zero member (by omega)

/-- While a core is idle, a job that has arrived and is on no core has no units left. -/
theorem Shown.unitsLeft_eq_zero (shown : Shown o lines earlier snapshot) {line : JobLine} (isCore : c < o.cores)
    (idle : jobOn c snapshot = none) (inFile : lines[k]? = some line) (arrived : line.arrivalTime ≤ earlier.length)
    (off : coresOf k snapshot = 0) : unitsLeft k snapshot = 0 := by
  refine unitsLeft_of_notMem fun present => ?_
  obtain ⟨j, member, jobId⟩ := List.mem_map.mp present
  obtain ⟨k', line', inFile', jobId', arrivalTime⟩ := shown.loaded j member
  obtain rfl : k' = k := by omega
  obtain rfl := Option.some.inj (inFile.symm.trans inFile')
  have onCore := shown.busy c isCore (jobOn_eq_none_iff.mp idle) j member (arrivalTime ▸ arrived)
  have runs := coresOf_ne_zero member onCore
  rw [jobId] at runs
  exact runs off

/-- The rows give a job as many cores as the array does. -/
theorem Shown.coresOf_eq (shown : Shown o lines earlier snapshot) (k : ℕ) :
    ((List.range o.cores).map fun c : ℕ => if jobOn c snapshot = some k then 1 else 0).sum = coresOf k snapshot := by
  rw [sum_indicator]
  by_cases runs : ∃ j ∈ snapshot, j.jobId = k ∧ j.coreId ≠ -1
  · obtain ⟨j, member, jobId, onCore⟩ := runs
    have range := (shown.inRange j member).resolve_left onCore
    obtain ⟨c₀, core⟩ := Int.eq_ofNat_of_zero_le range.1
    have here (c : ℕ) : jobOn c snapshot = some k ↔ c = c₀ := by
      rw [shown.jobOn_iff]
      constructor
      · rintro ⟨j', member', onCore', jobId'⟩
        obtain rfl := eq_of_jobId shown.ids member' member (jobId'.trans jobId.symm)
        omega
      · rintro rfl
        exact ⟨j, member, core, jobId⟩
    have once : (List.range o.cores).countP (fun c : ℕ => decide (jobOn c snapshot = some k)) = 1 := by
      have counted : (List.range o.cores).count c₀ = 1 :=
        List.count_eq_one_of_mem List.nodup_range (List.mem_range.mpr (by omega))
      rw [← counted, List.count]
      exact List.countP_congr fun c _ => by rw [decide_eq_true_iff, here c, beq_iff_eq]
    have most := shown.coresOf_le k
    have some := coresOf_ne_zero member onCore
    rw [jobId] at some
    omega
  · have off (j : SimJob) (member : j ∈ snapshot) (jobId : j.jobId = k) : j.coreId = -1 :=
      not_not.mp fun onCore => runs ⟨j, member, jobId, onCore⟩
    rw [coresOf_eq_zero off, List.countP_eq_zero]
    intro c _ isOn
    obtain ⟨j, member, onCore, jobId⟩ := shown.jobOn_iff.mp (of_decide_eq_true isOn)
    have none := off j member jobId
    omega

/-! ## Whole rows -/

theorem AllShown.sum_count (all : AllShown o lines snapshots) (k : ℕ) :
    ((List.range o.cores).map fun c : ℕ => (rowOf c snapshots).count (some k)).sum = unitsRun k snapshots := by
  induction snapshots with
  | nil =>
    refine List.sum_eq_zero fun x member => ?_
    obtain ⟨c, _, rfl⟩ := List.mem_map.mp member
    rfl
  | cons snapshot earlier ih =>
    obtain ⟨shown, before⟩ := all
    simp only [rowOf_cons, List.count_append, List.count_singleton, beq_iff_eq]
    rw [List.sum_map_add, ih before, shown.coresOf_eq k, unitsRun, unitsRun, List.map_cons, List.sum_cons, Nat.add_comm]

/-- A time unit among the others: the earlier ones are the columns in front of it. -/
theorem AllShown.at (all : AllShown o lines snapshots) (found : snapshots.reverse[t]? = some snapshot) :
    ∃ earlier, earlier.length = t ∧ Shown o lines earlier snapshot ∧ AllShown o lines earlier ∧
      snapshots.reverse.take t = earlier.reverse := by
  induction snapshots with
  | nil => cases found
  | cons snapshot' before ih =>
    obtain ⟨shown, all⟩ := all
    rw [List.reverse_cons] at found ⊢
    by_cases inside : t < before.reverse.length
    · rw [List.getElem?_append_left inside] at found
      obtain ⟨earlier, length, shown, all, taken⟩ := ih all found
      exact ⟨earlier, length, shown, all, by rw [List.take_append_of_le_length inside.le, taken]⟩
    · rw [List.getElem?_append_right (Nat.not_lt.mp inside)] at found
      rw [List.getElem?_singleton] at found
      obtain ⟨last, same⟩ := Option.ite_none_right_eq_some.mp found
      cases same
      rw [List.length_reverse] at last inside
      have length : before.length = t := by omega
      refine ⟨before, length, shown, all, ?_⟩
      rw [← length, ← List.length_reverse, List.take_left]

/-- The table of the rows. -/
def tableOf (cores : ℕ) (snapshots : List (List SimJob)) : List (List (Option ℕ)) :=
  (List.range cores).map fun c : ℕ => rowOf c snapshots

theorem cell_tableOf {cores : ℕ} : cell (tableOf cores snapshots) c t = some unit ↔
    c < cores ∧ ∃ snapshot, snapshots.reverse[t]? = some snapshot ∧ jobOn c snapshot = unit := by
  rw [cell, tableOf, List.getElem?_map]
  by_cases isCore : c < cores
  · rw [List.getElem?_range isCore, Option.map_some, Option.bind_some, rowOf, List.getElem?_map, Option.map_eq_some_iff]
    exact (and_iff_right isCore).symm
  · have outside : (List.range cores)[c]? = none := by
      rw [List.getElem?_eq_none_iff, List.length_range]
      exact Nat.not_lt.mp isCore
    rw [outside]
    constructor
    · intro impossible
      cases impossible
    · exact fun both => absurd both.1 isCore

theorem AllShown.count_flatten (all : AllShown o lines snapshots) (k : ℕ) :
    (tableOf o.cores snapshots).flatten.count (some k) = unitsRun k snapshots := by
  rw [List.count_flatten, tableOf, List.map_map]
  exact all.sum_count k

/-- The units of a job in the file are those left and those run. -/
theorem Shown.runTime (shown : Shown o lines earlier snapshot) {line : JobLine} (inFile : lines[k]? = some line) :
    unitsLeft k snapshot + unitsRun k earlier = line.runTime := by
  have found : (loadJobs lines)[k]? = some _ := (loadJobs_getElem? lines k).trans (congrArg _ inFile)
  rw [shown.units]
  exact unitsLeft_of_mem (loadJobs_nodup lines) (List.mem_of_getElem? found)

theorem AllShown.schedule (all : AllShown o lines snapshots)
    (complete : ∀ (k : ℕ) line, lines[k]? = some line → unitsRun k snapshots = line.runTime) :
    Schedule lines (tableOf o.cores snapshots) where
  afterArrival c t k isOn := by
    obtain ⟨_, snapshot, found, runs⟩ := cell_tableOf.mp isOn
    obtain ⟨earlier, rfl, shown, -⟩ := all.at found
    obtain ⟨j, member, onCore, jobId⟩ := shown.jobOn_iff.mp runs
    obtain ⟨k', line, inFile, jobId', arrivalTime⟩ := shown.loaded j member
    obtain rfl : k' = k := by omega
    exact ⟨line, inFile, arrivalTime ▸ shown.arrived j member (by omega)⟩
  exclusive c c' t k isOn isOn' := by
    obtain ⟨_, snapshot, found, isOn⟩ := cell_tableOf.mp isOn
    obtain ⟨_, snapshot', found', isOn'⟩ := cell_tableOf.mp isOn'
    obtain rfl := Option.some.inj (found.symm.trans found')
    obtain ⟨earlier, _, shown, -⟩ := all.at found
    obtain ⟨j, member, onCore, jobId⟩ := shown.jobOn_iff.mp isOn
    obtain ⟨j', member', onCore', jobId'⟩ := shown.jobOn_iff.mp isOn'
    obtain rfl := eq_of_jobId shown.ids member member' (jobId.trans jobId'.symm)
    omega
  complete k line inFile := by
    rw [all.count_flatten k]
    exact complete k line inFile
  conserving c t isIdle k line inFile early := by
    obtain ⟨isCore, snapshot, found, free⟩ := cell_tableOf.mp isIdle
    obtain ⟨earlier, rfl, shown, before, taken⟩ := all.at found
    by_cases off : coresOf k snapshot = 0
    · right
      have gone := shown.unitsLeft_eq_zero isCore free inFile early off
      have total := shown.runTime inFile
      have cut : (tableOf o.cores snapshots).map (·.take earlier.length) = tableOf o.cores earlier := by
        rw [tableOf, tableOf, List.map_map]
        refine List.map_congr_left fun c _ => ?_
        rw [Function.comp_apply, rowOf, rowOf, ← List.map_take, taken]
      rw [cut, before.count_flatten k]
      omega
    · left
      obtain ⟨c', isCore', isOn⟩ := shown.onCore_iff.mp off
      exact ⟨c', cell_tableOf.mpr ⟨isCore', snapshot, found, isOn⟩⟩

/-- The rows that are printed read back as the table. -/
theorem Drawn.reads (drawn : Drawn o lines s d) (few : lines.length ≤ 10 ^ 8) :
    d.rows.mapM cells.decode = some (tableOf o.cores s.snapshots) := by
  rw [mapM_eq_some_iff, drawn.rows, tableOf, List.forall₂_map_left_iff, List.forall₂_map_right_iff, List.forall₂_same]
  intro c _
  apply PrefixCode.decode_codes
  intro unit member jobId isJob
  obtain ⟨snapshot, inSnapshots, rfl⟩ := List.mem_map.mp member
  obtain ⟨t, found⟩ := List.mem_iff_getElem?.mp inSnapshots
  obtain ⟨earlier, _, shown, -⟩ := drawn.shown.at found
  obtain ⟨j, inSnapshot, -, jobId'⟩ := shown.jobOn_iff.mp isJob
  obtain ⟨k, line, inFile, jobId'', -⟩ := shown.loaded j inSnapshot
  have inside := (List.getElem?_eq_some_iff.mp inFile).1
  omega

/-- At the end the jobs have had their units. -/
theorem Inv.unitsRun_eq (inv : Inv o lines s) (done : s.phase = .done) {line : JobLine} (inFile : lines[k]? = some line) :
    unitsRun k s.snapshots = line.runTime := by
  have total := inv.history.units k
  have found : (loadJobs lines)[k]? = some _ := (loadJobs_getElem? lines k).trans (congrArg _ inFile)
  have left := unitsLeft_of_mem (loadJobs_nodup lines) (List.mem_of_getElem? found)
  have empty := inv.entries.admits
  rw [done] at empty
  rw [show s.jobs = [] from empty] at total
  exact (Int.zero_add _).symm.trans (total.trans left)

/-- The simulation ends without leaving the memory of its diagram. -/
theorem drawn_ends (o : Options) (malloc : Malloc) (lines : List JobLine) (valid : ∀ line ∈ lines, line.Valid) :
    ∃ n s d, run (drawnStep o) n (initial o malloc lines, .start o.cores) = .ok (s, d) ∧ s.phase = .done ∧
      Inv o lines s ∧ Ledger o lines s ∧ Drawn o lines s d := by
  have start : Inv o lines (initial o malloc lines) ∧ Ledger o lines (initial o malloc lines) ∧
      Drawn o lines (initial o malloc lines) (.start o.cores) :=
    ⟨.initial malloc o valid, .initial malloc o valid, .start o malloc lines⟩
  obtain ⟨n, ⟨s, d⟩, ran, kept, done⟩ := exists_final
    (fun x => Inv o lines x.1 ∧ Ledger o lines x.1 ∧ Drawn o lines x.1 x.2) (fun x => x.1.phase = .done)
    (fun x => Sim.measure o x.1) (fun x kept notDone => by
      obtain ⟨inv, ledger, drawn⟩ := kept
      obtain ⟨s', taken, transition⟩ := inv.takes notDone
      have closer := transition.closer inv
      obtain ⟨d', draws, drawn⟩ := drawn.steps inv taken transition
      exact ⟨(s', d'), draws, ⟨closer.inv, ledger.transition inv transition, drawn⟩, closer.less⟩)
    (initial o malloc lines, .start o.cores) start
  exact ⟨n, s, d, ran, done, kept⟩

/-- The final diagram is a schedule of the file, and it is drawn without leaving its memory. -/
theorem diagram_shows_schedule (o : Options) (malloc : Malloc) (lines : List JobLine)
    (valid : ∀ line ∈ lines, line.Valid) (few : lines.length ≤ 10 ^ 8) :
    ∃ n s d table, run (drawnStep o) n (initial o malloc lines, .start o.cores) = .ok (s, d) ∧ s.phase = .done ∧
      d.rows.mapM cells.decode = some table ∧ table.length = o.cores ∧ (∀ row ∈ table, (row.length : ℤ) = s.time) ∧
      Schedule lines table := by
  obtain ⟨n, s, d, ran, done, inv, -, drawn⟩ := drawn_ends o malloc lines valid
  have schedule := drawn.shown.schedule fun k line inFile => inv.unitsRun_eq done inFile
  refine ⟨n, s, d, _, ran, done, drawn.reads few, ?_, fun row member => ?_, schedule⟩
  · rw [tableOf, List.length_map, List.length_range]
  · obtain ⟨c, _, rfl⟩ := List.mem_map.mp member
    rw [rowOf, List.length_map, List.length_reverse, drawn.clock]

/-- Three jobs on two cores, with an idle core in between. -/
theorem diagram_shows_schedule_idle :
    let o : Options := ⟨2, .ppri, 1, by decide, nofun⟩
    let lines : List JobLine := [⟨0, 3, 2⟩, ⟨1, 1, 0⟩, ⟨5, 2, 2⟩]
    let malloc : Malloc := ⟨fun _ _ => newJob 0 0 0 0, fun _ _ => 0, fun _ => none⟩
    ∃ n s d table, run (drawnStep o) n (initial o malloc lines, .start o.cores) = .ok (s, d) ∧ s.phase = .done ∧
      d.rows.mapM cells.decode = some table ∧ table.length = o.cores ∧ (∀ row ∈ table, (row.length : ℤ) = s.time) ∧
      Schedule lines table :=
  diagram_shows_schedule _ _ _ (by decide) (by decide)

end OsLabs.Scheduler
