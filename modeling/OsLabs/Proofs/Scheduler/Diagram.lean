import OsLabs.Proofs.Scheduler.Labels
import OsLabs.Proofs.Scheduler.Steps

/-! # Drawing a time unit

A row is the text of what its core does in one snapshot after the other, and no row outgrows its block.
`Shown` says of a snapshot what the diagram is to show: whose jobs these are, where they are, which units
they had before, and that a core without a job leaves none waiting.
-/

namespace OsLabs.Scheduler

open Globals

variable {o : Options} {lines : List JobLine} {s s' : Sim} {d : Diagram} {jobs snapshot earlier : List SimJob}
  {snapshots : List (List SimJob)} {j : SimJob} {c : ℤ} {k t : ℕ} {message : Option Message}

/-- The job on a core. -/
def jobOn (c : ℤ) (jobs : List SimJob) : Option ℕ := (jobs.find? fun j => j.coreId = c).map (·.jobId.toNat)

/-- What a core does in the time units, earliest first. -/
def rowOf (c : ℤ) (snapshots : List (List SimJob)) : List (Option ℕ) := snapshots.reverse.map (jobOn c)

theorem rowOf_cons (c : ℤ) (snapshot : List SimJob) (snapshots : List (List SimJob)) :
    rowOf c (snapshot :: snapshots) = rowOf c snapshots ++ [jobOn c snapshot] := by
  rw [rowOf, List.reverse_cons, List.map_append]
  rfl

theorem jobOn_cons_of_pos (here : j.coreId = c) : jobOn c (j :: jobs) = some j.jobId.toNat := by
  rw [jobOn, List.find?_cons, decide_eq_true here]
  rfl

theorem jobOn_cons_of_neg (elsewhere : j.coreId ≠ c) : jobOn c (j :: jobs) = jobOn c jobs := by
  rw [jobOn, List.find?_cons, decide_eq_false elsewhere]
  rfl

theorem jobOn_eq_none_iff : jobOn c jobs = none ↔ ∀ j ∈ jobs, j.coreId ≠ c := by
  rw [jobOn, Option.map_eq_none_iff, List.find?_eq_none]
  simp only [decide_eq_true_eq, ne_eq]

/-! ## Time strings and rows -/

theorem timeStrings_eq (once : (busyCores jobs).Nodup) (named : ∀ j ∈ jobs, 0 ≤ j.jobId) (strings : ℤ → List Char) :
    ∃ strings', timeStrings jobs strings = .ok strings' ∧
      ∀ c ≠ -1, strings' c = (jobOn c jobs).elim (strings c) fun k => jobLabel k := by
  induction jobs generalizing strings with
  | nil => exact ⟨strings, rfl, fun c _ => rfl⟩
  | cons j jobs ih =>
    obtain ⟨name, named⟩ := List.forall_mem_cons.mp named
    by_cases onCore : j.coreId ≠ -1
    · rw [busyCores_cons_of_pos onCore, List.nodup_cons] at once
      obtain ⟨absent, once⟩ := once
      have number : (j.jobId.toNat : ℤ) = j.jobId := Int.toNat_of_nonneg name
      have fits := jobLabel_length j.jobId.toNat
      rw [number] at fits
      obtain ⟨strings', filled, holds⟩ := ih once named (Function.update strings j.coreId (jobLabel j.jobId))
      refine ⟨strings', by rw [timeStrings, if_pos onCore, if_pos fits, filled], fun c isCore => ?_⟩
      rw [holds c isCore]
      by_cases here : j.coreId = c
      · have alone : jobOn c jobs = none := by
          refine jobOn_eq_none_iff.mpr fun j' member same => absent (List.mem_map.mpr ⟨j', ?_, same.trans here.symm⟩)
          exact List.mem_filter.mpr ⟨member, decide_eq_true (same ▸ isCore)⟩
        rw [alone, jobOn_cons_of_pos here, Option.elim_none, Option.elim_some, number, ← here, Function.update_self]
      · rw [jobOn_cons_of_neg here, Function.update_of_ne (Ne.symm here)]
    · rw [busyCores_cons_of_neg onCore] at once
      obtain ⟨strings', filled, holds⟩ := ih once named strings
      refine ⟨strings', by rw [timeStrings, if_neg onCore, filled], fun c isCore => ?_⟩
      have elsewhere : ¬ j.coreId = c := fun here => isCore (here ▸ not_not.mp onCore)
      rw [holds c isCore, jobOn_cons_of_neg elsewhere]

theorem grow_fits {length size : ℕ} (fuel : ℕ) (positive : 0 < size) (enough : length < size + fuel) :
    length < grow fuel length size := by
  induction fuel generalizing size with
  | zero => exact enough
  | succ fuel ih =>
    rw [grow]
    split
    · exact ih (by omega) (by omega)
    · omega

/-- Every row gets the text of its core, in a block that is large enough. -/
theorem drawRows_eq {strings : ℤ → List Char} {cell : ℕ → List Char} (text : ℕ → List Char) (n i : ℕ) {size : ℕ}
    (positive : 0 < size) (shows : ∀ i : ℕ, cell i = if strings i = [] then ['-'] else strings i) :
    ∃ size', drawRows strings i ((List.range' i n).map text) size =
      .ok ((List.range' i n).map fun i => text i ++ cell i, size') ∧ 0 < size' := by
  induction n generalizing i size with
  | zero => exact ⟨size, rfl, positive⟩
  | succ n ih =>
    have fits : (text i).length + (cell i).length <
        grow ((text i).length + (cell i).length) ((text i).length + (cell i).length) size :=
      grow_fits _ positive (by omega)
    obtain ⟨size', drawn, positive'⟩ := ih (i + 1) (Nat.zero_lt_of_lt fits)
    refine ⟨size', ?_, positive'⟩
    rw [List.range'_succ, List.map_cons, drawRows, ← shows i]
    dsimp only
    rw [if_pos (Nat.lt_succ_of_lt fits), drawn]
    rfl

/-! ## What a snapshot shows -/

/-- A time unit, after the earlier ones. -/
structure Shown (o : Options) (lines : List JobLine) (earlier : List (List SimJob)) (snapshot : List SimJob) : Prop where
  ids : (snapshot.map SimJob.jobId).Nodup
  loaded : ∀ j ∈ snapshot, ∃ (k : ℕ) (line : JobLine),
    lines[k]? = some line ∧ j.jobId = k ∧ j.arrivalTime = line.arrivalTime
  once : (busyCores snapshot).Nodup
  inRange : ∀ j ∈ snapshot, j.coreId = -1 ∨ 0 ≤ j.coreId ∧ j.coreId < o.cores
  arrived : ∀ j ∈ snapshot, j.coreId ≠ -1 → j.arrivalTime ≤ earlier.length
  units : ∀ jobId, unitsLeft jobId snapshot + unitsRun jobId earlier = unitsLeft jobId (loadJobs lines)
  busy : ∀ c : ℕ, c < o.cores → (∀ j ∈ snapshot, j.coreId ≠ c) →
    ∀ j ∈ snapshot, j.arrivalTime ≤ earlier.length → j.coreId ≠ -1

/-- All time units. -/
def AllShown (o : Options) (lines : List JobLine) : List (List SimJob) → Prop
  | [] => True
  | snapshot :: earlier => Shown o lines earlier snapshot ∧ AllShown o lines earlier

/-- Before the run of a time unit the array is what the diagram is to show. -/
theorem Inv.shown (inv : Inv o lines s) (here : s.phase = .run) (clock : s.time = s.snapshots.length) :
    Shown o lines s.snapshots s.jobs := by
  have entries := inv.entries
  rw [here] at entries
  have arrives {j : SimJob} (member : j ∈ s.jobs) : j.arrived = true ↔ j.arrivalTime ≤ s.snapshots.length := by
    obtain ⟨k, found⟩ := List.mem_iff_getElem?.mp member
    rw [entries.arrivals k j found, ← clock]
    change _ ∨ _ ∧ True ↔ _
    rw [and_true, le_iff_lt_or_eq]
  refine {
    ids := inv.agree.ids
    loaded := fun j member => ?_
    once := inv.agree.busyCores_nodup
    inRange := fun j member => ?_
    arrived := fun j member onCore => (arrives member).mp (inv.agree.onCore j member onCore).1
    units := inv.history.units
    busy := fun c isCore free j member early off => ?_ }
  · obtain ⟨j₀, inFile, jobId, arrivalTime, -⟩ := inv.history.loaded j member
    obtain ⟨k, found⟩ := List.mem_iff_getElem?.mp inFile
    rw [loadJobs_getElem?] at found
    obtain ⟨line, isLine, rfl⟩ := Option.map_eq_some_iff.mp found
    exact ⟨k, line, isLine, jobId.symm, arrivalTime.symm⟩
  · refine or_iff_not_imp_left.mpr fun onCore => ?_
    rw [← inv.fixed.totalCores]
    exact (inv.agree.onCore j member onCore).2.1
  · -- a free core is idle, so no job waits
    have isIdle : (c : ℤ) ∈ s.globals.idle := by
      by_contra notIdle
      have hasCore : s.globals.HasCore c := ⟨Int.natCast_nonneg c, by rw [inv.fixed.totalCores]; exact_mod_cast isCore⟩
      obtain ⟨j', member', onIt⟩ := inv.agree.busy c hasCore notIdle nofun
      exact free j' member' onIt
    obtain ⟨r, inQueue, -⟩ := inv.agree.waiting j member ((arrives member).mpr early) off nofun
    rcases inv.conserving with empty | none
    · rw [empty] at inQueue
      exact List.not_mem_nil inQueue
    · rw [none] at isIdle
      exact List.not_mem_nil isIdle

/-! ## Drawn runs -/

/-- The diagram shows the time units so far. -/
structure Drawn (o : Options) (lines : List JobLine) (s : Sim) (d : Diagram) : Prop where
  clock : s.time = s.snapshots.length
  shown : AllShown o lines s.snapshots
  rows : d.rows = (List.range o.cores).map fun c : ℕ => (rowOf c s.snapshots).flatMap cellText
  positive : 0 < d.size

theorem Drawn.start (o : Options) (malloc : Malloc) (lines : List JobLine) :
    Drawn o lines (initial o malloc lines) (.start o.cores) where
  clock := rfl
  shown := trivial
  rows := by
    change List.replicate o.cores [] = (List.range o.cores).map fun _ : ℕ => []
    rw [List.map_const', List.length_range]
  positive := (by decide : 0 < 1024)

theorem Drawn.draw (drawn : Drawn o lines s d) (shown : Shown o lines s.snapshots s.jobs) :
    ∃ d', d.draw s.jobs = .ok d' ∧ d'.rows = (List.range o.cores).map (fun c : ℕ =>
      (rowOf c (s.jobs :: s.snapshots)).flatMap cellText) ∧ 0 < d'.size := by
  have named (j : SimJob) (member : j ∈ s.jobs) : 0 ≤ j.jobId := by
    obtain ⟨k, _, _, jobId, _⟩ := shown.loaded j member
    omega
  obtain ⟨strings, filled, holds⟩ := timeStrings_eq shown.once named fun _ => []
  have shows (i : ℕ) : cellText (jobOn i s.jobs) = if strings i = [] then ['-'] else strings i := by
    rw [holds i (by omega)]
    cases jobOn i s.jobs with
    | none => rfl
    | some k => exact (if_neg (jobLabel_ne_nil k)).symm
  obtain ⟨size, rows, positive⟩ := drawRows_eq (fun i : ℕ => (rowOf i s.snapshots).flatMap cellText) o.cores 0
    drawn.positive shows
  rw [← List.range_eq_range'] at rows
  refine ⟨⟨(List.range o.cores).map fun i : ℕ => (rowOf i s.snapshots).flatMap cellText ++ cellText (jobOn i s.jobs), size⟩,
    ?_, ?_, positive⟩
  · simp only [Diagram.draw, filled, drawn.rows, bind, Except.bind, rows]
    rfl
  · simp only [rowOf_cons, List.flatMap_append, List.flatMap_singleton]

theorem Move.notRun {phase : Phase} (move : Move o s phase) : s.phase ≠ .run := by
  cases move with
  | leave here =>
    rcases here with here | ⟨i, here⟩
    · rw [here]
      nofun
    · rw [here]
      nofun
  | enter here | unfinished here | allFinished here | unexpired here | allExpired here | notNow here
  | allArrived here =>
    rw [here]
    nofun

/-- A step is drawn without an error, and the diagram shows one time unit more or the same. -/
theorem Drawn.steps {s' : Sim} (drawn : Drawn o lines s d) (inv : Inv o lines s) (taken : step o s = .ok s')
    (transition : Transition o s (printed o s) s') :
    ∃ d', drawnStep o (s, d) = .ok (s', d') ∧ Drawn o lines s' d' := by
  have still (other : s.phase ≠ .run) : drawnStep o (s, d) = .ok (s', d) := by
    simp only [drawnStep, taken, if_neg other]
    rfl
  generalize printed o s = message at transition
  cases transition with
  | run here =>
    have shown := inv.shown here drawn.clock
    obtain ⟨d', draws, rows, positive⟩ := drawn.draw shown
    refine ⟨d', ?_, ?_, ⟨shown, drawn.shown⟩, rows, positive⟩
    · simp only [drawnStep, taken, if_pos here, draws]
      rfl
    · change s.time + 1 = ((s.snapshots.length + 1 : ℕ) : ℤ)
      rw [drawn.clock, Nat.cast_succ]
  | move move => exact ⟨d, still move.notRun, drawn.clock, drawn.shown, drawn.rows, drawn.positive⟩
  | finish here => exact ⟨d, still (by rw [here]; nofun), drawn.clock, drawn.shown, drawn.rows, drawn.positive⟩
  | expire here => exact ⟨d, still (by rw [here]; nofun), drawn.clock, drawn.shown, drawn.rows, drawn.positive⟩
  | arrive here => exact ⟨d, still (by rw [here]; nofun), drawn.clock, drawn.shown, drawn.rows, drawn.positive⟩

end OsLabs.Scheduler
