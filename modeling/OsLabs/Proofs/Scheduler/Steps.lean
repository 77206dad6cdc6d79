import Mathlib.Data.Prod.Lex
import OsLabs.Proofs.Scheduler.Transitions

/-! # Every step of the simulation

One lemma for each kind of step: it keeps the invariant and comes closer to the end. The measure is
what the run of a time unit makes smaller, the units left and the time until the arrivals, and then
the way through the loops of one time unit.
-/

namespace OsLabs.Scheduler

open Globals

variable {o : Options} {lines : List JobLine} {s s' : Sim} {time : ℤ} {jobs jobs' : List SimJob}
  {g g' : Globals} {job : SimJob} {r : JobT} {f : SimJob → SimJob} {i k : ℕ} {message : Option Message}

/-! ## The measure -/

/-- Units left and time until the arrivals. -/
def pending (time : ℤ) (jobs : List SimJob) : ℕ :=
  (jobs.map fun j => j.runTime.toNat + (j.arrivalTime - time).toNat).sum

/-- The way to the end of the time unit. -/
def Phase.rank (cores jobs : ℕ) : Phase → ℕ
  | .head => 2 * jobs + cores + 4
  | .finish i => (jobs - i) + jobs + cores + 3
  | .quantum i => (cores - i) + jobs + 2
  | .arrive i => (jobs - i) + 1
  | .run => 0
  | .done => 0

def Sim.measure (o : Options) (s : Sim) : ℕ ×ₗ ℕ :=
  toLex (pending s.time s.jobs, s.phase.rank o.cores s.jobs.length)

theorem pending_map (moves : Moves f) : pending time (jobs.map f) = pending time jobs := by
  rw [pending, List.map_map]
  refine congrArg List.sum (List.map_congr_left fun j _ => ?_)
  rw [Function.comp_apply, moves.runTime, moves.arrivalTime]

theorem pending_deleteJob (found : jobs[i]? = some job) : pending time (deleteJob jobs i) ≤ pending time jobs := by
  rw [pending, pending, ((deleteJob_perm found).map _).sum_eq, List.map_cons, List.sum_cons]
  exact Nat.le_add_left _ _

theorem length_deleteJob (found : jobs[i]? = some job) : (deleteJob jobs i).length + 1 = jobs.length :=
  (deleteJob_perm found).length_eq.symm

/-- A time unit in which a job runs or is yet to arrive. -/
theorem pending_tick (positive : ∀ j ∈ jobs, j.coreId ≠ -1 → 0 < j.runTime)
    (moving : ∃ j ∈ jobs, j.coreId ≠ -1 ∨ time < j.arrivalTime) :
    pending (time + 1) (jobs.map SimJob.worked) < pending time jobs := by
  rw [pending, pending, List.map_map]
  have term (j : SimJob) (member : j ∈ jobs) :
      j.worked.runTime.toNat + (j.worked.arrivalTime - (time + 1)).toNat ≤
        j.runTime.toNat + (j.arrivalTime - time).toNat ∧
      (j.coreId ≠ -1 ∨ time < j.arrivalTime →
        j.worked.runTime.toNat + (j.worked.arrivalTime - (time + 1)).toNat <
          j.runTime.toNat + (j.arrivalTime - time).toNat) := by
    by_cases onCore : j.coreId ≠ -1
    · have runs := positive j member onCore
      simp only [SimJob.worked, if_pos onCore]
      omega
    · simp only [SimJob.worked, if_neg onCore]
      omega
  obtain ⟨j, member, moves⟩ := moving
  exact List.sum_lt_sum _ _ (fun j member => (term j member).1) ⟨j, member, (term j member).2 moves⟩

theorem measure_lt {s' : Sim} (le : pending s'.time s'.jobs ≤ pending s.time s.jobs)
    (less : s'.phase.rank o.cores s'.jobs.length < s.phase.rank o.cores s.jobs.length) :
    s'.measure o < s.measure o :=
  Prod.Lex.toLex_lt_toLex'.mpr ⟨le, fun _ => less⟩

/-- A step that succeeds, keeps the invariant and comes closer to the end. -/
def Steps (o : Options) (lines : List JobLine) (s : Sim) : Prop :=
  ∃ s', step o s = .ok s' ∧ Inv o lines s' ∧ s'.measure o < s.measure o

/-- A state of the same run that is closer to the end. -/
structure Closer (o : Options) (lines : List JobLine) (s s' : Sim) : Prop where
  inv : Inv o lines s'
  less : s'.measure o < s.measure o

/-! ## Moves -/

theorem Inv.goto (inv : Inv o lines s) {phase : Phase} (entries : Entries s.time phase s.jobs)
    (less : phase.rank o.cores s.jobs.length < s.phase.rank o.cores s.jobs.length) :
    Closer o lines s { s with phase } :=
  ⟨{ inv with entries }, measure_lt le_rfl less⟩

theorem Inv.move {phase : Phase} (inv : Inv o lines s) (move : Move o s phase) :
    Closer o lines s { s with phase } := by
  have entries := inv.entries
  cases move with
  | enter here =>
    rw [here] at entries
    refine inv.goto ?_ ?_
    · exact { entries with finished := fun k j found zero => ⟨(entries.finished k j found zero).1, k.zero_le⟩ }
    · simp only [here, Phase.rank]
      omega
  | leave here empty =>
    refine inv.goto ?_ ?_
    · rw [empty]
      exact ⟨rfl, nofun, nofun, nofun⟩
    · rcases here with here | ⟨i, here⟩ <;> simp only [here, Phase.rank] <;> omega
  | @unfinished i job here found left =>
    rw [here] at entries
    have inside := (List.getElem?_eq_some_iff.mp found).1
    refine inv.goto { entries with finished := fun k j found' zero => ?_ } ?_
    · obtain ⟨onCore, ahead⟩ := entries.finished k j found' zero
      refine ⟨onCore, Nat.lt_of_le_of_ne ahead fun same => left ?_⟩
      subst same
      rw [Option.some.inj (found.symm.trans found')]
      exact zero
    · simp only [here, Phase.rank]
      omega
  | @allFinished i here last left =>
    rw [here] at entries
    have below := List.getElem?_eq_none_iff.mp last
    refine inv.goto { entries with admits := left, finished := fun k j found zero => ?_ } ?_
    · have ahead : i ≤ k := (entries.finished k j found zero).2
      have inside := (List.getElem?_eq_some_iff.mp found).1
      omega
    · simp only [here, Phase.rank]
      omega
  | unexpired here more =>
    rw [here] at entries
    refine inv.goto { entries with } ?_
    simp only [here, Phase.rank]
    omega
  | allExpired here =>
    rw [here] at entries
    refine inv.goto { entries with arrivals := fun k j found => ?_ } ?_
    · rw [entries.arrivals k j found]
      exact or_congr_right (and_congr_right fun _ => ⟨False.elim, (Nat.not_lt_zero k ·)⟩)
    · simp only [here, Phase.rank]
      omega
  | @notNow i job here found notNow =>
    rw [here] at entries
    have inside := (List.getElem?_eq_some_iff.mp found).1
    refine inv.goto { entries with arrivals := fun k j found' => ?_ } ?_
    · rw [entries.arrivals k j found']
      refine or_congr_right (and_congr_right fun now => ?_)
      change k < i ↔ k < i + 1
      have other : k ≠ i := by
        rintro rfl
        rw [Option.some.inj (found.symm.trans found')] at notNow
        exact notNow now
      omega
    · simp only [here, Phase.rank]
      omega
  | @allArrived i here last =>
    rw [here] at entries
    have below := List.getElem?_eq_none_iff.mp last
    refine inv.goto { entries with arrivals := fun k j found => ?_ } ?_
    · have inside := (List.getElem?_eq_some_iff.mp found).1
      rw [entries.arrivals k j found]
      refine or_congr_right (and_congr_right fun _ => ⟨fun _ => trivial, fun _ => ?_⟩)
      change k < i
      omega
    · simp only [here, Phase.rank]
      omega

/-! ## Finished jobs -/

/-- Entries that stay where they are or come from further back keep their place in the loop. -/
theorem Entries.finishJob (entries : Entries time (.finish i) jobs) (moves : Moves f)
    (arrived : ∀ j, (f j).arrived = j.arrived) (onCore : ∀ j, j.coreId ≠ -1 → (f j).coreId ≠ -1) :
    Entries time (.finish i) ((deleteJob jobs i).map f) := by
  have origin {k : ℕ} {j' : SimJob} (found : ((deleteJob jobs i).map f)[k]? = some j') :
      ∃ k' j, jobs[k']? = some j ∧ f j = j' ∧ (i ≤ k' → i ≤ k) := by
    rw [List.getElem?_map] at found
    obtain ⟨j, kept, rfl⟩ := Option.map_eq_some_iff.mp found
    obtain ⟨k', found', place⟩ := deleteJob_getElem? kept
    exact ⟨k', j, found', rfl, by omega⟩
  refine ⟨trivial, fun k j' found => ?_, fun j' member => ?_, fun k j' found zero => ?_⟩
  · obtain ⟨k', j, found', rfl, _⟩ := origin found
    rw [arrived, moves.arrivalTime]
    exact entries.arrivals k' j found'
  · obtain ⟨k, found⟩ := List.mem_iff_getElem?.mp member
    obtain ⟨k', j, found', rfl, _⟩ := origin found
    rw [moves.runTime]
    exact entries.nonneg j (List.mem_of_getElem? found')
  · obtain ⟨k', j, found', rfl, place⟩ := origin found
    rw [moves.runTime] at zero
    obtain ⟨was, ahead⟩ := entries.finished k' j found' zero
    exact ⟨onCore j was, place ahead⟩

theorem Inv.finish (inv : Inv o lines s) (here : s.phase = .finish i) (found : s.jobs[i]? = some job)
    (finished : job.runTime = 0) (onCore : job.coreId ≠ -1)
    (next : NextJob s.time job.coreId (deleteJob s.jobs i) (s.globals.finished job.coreId r s.time) jobs' g')
    (agree : Agree s.time none none jobs' g') (conserving : Conserving g') : Closer o lines s { s with
      jobs := jobs'
      globals := g'
      quantumClock := o.resetClock s.quantumClock job.coreId
      jobsAlive := s.jobsAlive - 1 } := by
  have entries := inv.entries
  rw [here] at entries
  have arrived := (inv.agree.onCore job (List.mem_of_getElem? found) onCore).1
  obtain ⟨f, moves, sameArrived, sameOnCore, changed⟩ := next.moves onCore
  have keeps : s.globals.Keeps (s.globals.finished job.coreId r s.time) := ⟨rfl, rfl, rfl⟩
  refine ⟨?_, measure_lt ?_ ?_⟩
  · exact {
      fixed := inv.fixed.keeps (keeps.trans next.keeps)
      agree
      conserving
      entries := by
        change Entries s.time s.phase jobs'
        rw [here, changed]
        exact entries.finishJob moves sameArrived sameOnCore
      alive := by
        change s.jobsAlive - 1 = jobs'.countP SimJob.arrived
        rw [changed, countP_map_arrived sameArrived, inv.alive, countP_deleteJob found arrived]
      history := changed ▸ (inv.history.deleteJob found finished).map moves
      exclusive := inv.exclusive
      ordered := fun preemptive => by
        have subset : deleteJob s.jobs i ⊆ s.jobs := fun j kept =>
          (deleteJob_perm found).mem_iff.mpr (List.mem_cons_of_mem _ kept)
        have kept : Ordered (deleteJob s.jobs i) (s.globals.finished job.coreId r s.time) :=
          (inv.ordered preemptive).of_subset subset rfl rfl
        refine kept.next (inv.agree.deleted found onCore r) ?_ next
        exact preempts_ne_rr (inv.fixed.scheme ▸ preemptive.preempts)
      optimal := inv.optimal }
  · change pending s.time jobs' ≤ pending s.time s.jobs
    rw [changed, pending_map moves]
    exact pending_deleteJob found
  · change s.phase.rank o.cores jobs'.length < s.phase.rank o.cores s.jobs.length
    have shorter := length_deleteJob found
    rw [changed, List.length_map, here, Phase.rank, Phase.rank]
    omega

/-! ## Expired quanta -/

/-- Only the loop over finished jobs meets a job with nothing left to run. -/
theorem Entries.positive {phase : Phase} (entries : Entries time phase jobs)
    (past : ∀ k, ¬ phase.FinishAhead k) (member : job ∈ jobs) : 0 < job.runTime := by
  obtain ⟨k, found⟩ := List.mem_iff_getElem?.mp member
  have nonneg := entries.nonneg job member
  have nonzero : job.runTime ≠ 0 := fun zero => past k (entries.finished k job found zero).2
  omega

/-- Past the finished jobs, entries may move between cores. -/
theorem Entries.map {phase phase' : Phase} (entries : Entries time phase jobs)
    (past : ∀ k, ¬ phase.FinishAhead k) (moves : Moves f) (admits : phase'.Admits (jobs.map f))
    (arrived : ∀ k j, jobs[k]? = some j →
      ((f j).arrived = true ↔ j.arrivalTime < time ∨ j.arrivalTime = time ∧ phase'.ArrivalSeen k)) :
    Entries time phase' (jobs.map f) where
  admits := admits
  arrivals k j' found := by
    rw [List.getElem?_map] at found
    obtain ⟨j, found', rfl⟩ := Option.map_eq_some_iff.mp found
    rw [moves.arrivalTime]
    exact arrived k j found'
  nonneg j' changed := by
    obtain ⟨j, member, rfl⟩ := List.mem_map.mp changed
    rw [moves.runTime]
    exact entries.nonneg j member
  finished k j' found zero := by
    obtain ⟨j, member, rfl⟩ := List.mem_map.mp (List.mem_of_getElem? found)
    rw [moves.runTime] at zero
    exact ((entries.positive past member).ne zero.symm).elim

theorem Inv.expire (inv : Inv o lines s) (here : s.phase = .quantum i) (more : o.scheme = .rr ∧ i < o.cores)
    (found : s.jobs[k]? = some job) (onCore : job.coreId = i)
    (next : NextJob s.time job.coreId (s.jobs.set k (job.setCore (-1)))
      ((s.globals.setRunning job.coreId none).offerJob { r with latestQueueTime := s.time }) jobs' g')
    (agree : Agree s.time none none jobs' g') (conserving : Conserving g') : Closer o lines s { s with
      phase := .quantum (i + 1)
      jobs := jobs'
      globals := g'
      quantumClock := o.resetClock s.quantumClock job.coreId } := by
  have entries := inv.entries
  rw [here] at entries
  obtain ⟨f, moves, sameArrived, _, changed⟩ := next.moves (by omega)
  have lose := (Moves.setCore (-1)).alter job.jobId
  rw [set_eq_alter (·.setCore (-1)) inv.agree.ids found, List.map_map] at changed
  have keepsArrived (j : SimJob) : ((f ∘ alter job.jobId (·.setCore (-1))) j).arrived = j.arrived :=
    (sameArrived _).trans (alter_eq SimJob.arrived rfl)
  have keeps : s.globals.Keeps ((s.globals.setRunning job.coreId none).offerJob
    { r with latestQueueTime := s.time }) := ⟨rfl, rfl, offerJob_comparer _ _⟩
  refine ⟨?_, measure_lt ?_ ?_⟩
  · exact {
      fixed := inv.fixed.keeps (keeps.trans next.keeps)
      agree
      conserving
      entries := by
        change Entries s.time (.quantum (i + 1)) jobs'
        rw [changed]
        refine entries.map (fun _ => id) (lose.comp moves) ?_ fun k j found => ?_
        · exact fun none => entries.admits (List.map_eq_nil_iff.mp none)
        · rw [keepsArrived]
          exact entries.arrivals k j found
      alive := by
        change s.jobsAlive = jobs'.countP SimJob.arrived
        rw [changed, countP_map_arrived keepsArrived, inv.alive]
      history := changed ▸ inv.history.map (lose.comp moves)
      exclusive := inv.exclusive
      ordered := fun preemptive => (preempts_ne_rr preemptive.preempts more.1).elim
      optimal := inv.optimal }
  · change pending s.time jobs' ≤ pending s.time s.jobs
    rw [changed, pending_map (lose.comp moves)]
  · change (Phase.quantum (i + 1)).rank o.cores jobs'.length < s.phase.rank o.cores s.jobs.length
    rw [changed, List.length_map, here, Phase.rank, Phase.rank]
    omega

/-! ## Arrivals -/

/-- Ids are positions. -/
theorem jobId_eq_iff {k : ℕ} {j : SimJob} (ids : (jobs.map SimJob.jobId).Nodup) (found : jobs[k]? = some j)
    (found' : jobs[i]? = some job) : j.jobId = job.jobId ↔ k = i := by
  constructor
  · intro same
    refine (List.getElem?_inj ?_ ids).mp ?_
    · rw [List.length_map]
      exact (List.getElem?_eq_some_iff.mp found).1
    · rw [List.getElem?_map, List.getElem?_map, found, found', Option.map_some, Option.map_some, same]
  · rintro rfl
    rw [Option.some.inj (found.symm.trans found')]

theorem Inv.arrive {coreId : ℤ} {quantumClock : ℤ → ℤ} (inv : Inv o lines s) (here : s.phase = .arrive i)
    (found : s.jobs[i]? = some job) (now : job.arrivalTime = s.time) (notArrived : job.arrived = false)
    (new : NewJob s.time s.jobs s.globals job coreId jobs' g') (agree : Agree s.time none none jobs' g')
    (conserving : Conserving g') : Closer o lines s { s with
      phase := .arrive (i + 1)
      jobs := jobs'
      globals := g'
      quantumClock
      jobsAlive := s.jobsAlive + 1 } := by
  have entries := inv.entries
  rw [here] at entries
  have inside := (List.getElem?_eq_some_iff.mp found).1
  have member := List.mem_of_getElem? found
  obtain ⟨f, moves, arrives, changed⟩ := new.moves
  refine ⟨?_, measure_lt ?_ ?_⟩
  · exact {
      fixed := inv.fixed.keeps new.keeps
      agree
      conserving
      entries := by
        change Entries s.time (.arrive (i + 1)) jobs'
        rw [changed]
        refine entries.map (fun _ => id) moves ?_ fun k j found' => ?_
        · exact fun none => entries.admits (List.map_eq_nil_iff.mp none)
        · rw [arrives, entries.arrivals k j found']
          change (_ ∨ _ ∧ k < i) ∨ _ ↔ _ ∨ _ ∧ k < i + 1
          rw [jobId_eq_iff inv.agree.ids found' found]
          have atNow : k = i → j.arrivalTime = s.time := by
            rintro rfl
            rwa [← Option.some.inj (found.symm.trans found')]
          omega
      alive := by
        change s.jobsAlive + 1 = jobs'.countP SimJob.arrived
        rw [changed, countP_arrive inv.agree.ids member notArrived arrives, inv.alive]
        rfl
      history := changed ▸ inv.history.map moves
      exclusive := inv.exclusive
      ordered := fun preemptive => by
        have scheme := inv.fixed.scheme
        refine (inv.ordered preemptive).arrive inv.agree inv.conserving (scheme ▸ preemptive.preempts) ?_ ?_
          member now new agree
        · exact scheme ▸ inv.fixed.comparer
        · exact scheme ▸ inv.history.fits preemptive.fits
      optimal := inv.optimal }
  · change pending s.time jobs' ≤ pending s.time s.jobs
    rw [changed, pending_map moves]
  · change (Phase.arrive (i + 1)).rank o.cores jobs'.length < s.phase.rank o.cores s.jobs.length
    rw [changed, List.length_map, here, Phase.rank, Phase.rank]
    omega

/-! ## The run of a time unit -/

theorem SimJob.worked_times (j : SimJob) : j.worked.arrivalTime = j.arrivalTime ∧
    j.worked.arrived = j.arrived ∧ (j.coreId = -1 → j.worked.runTime = j.runTime) ∧
    j.runTime - 1 ≤ j.worked.runTime := by
  rw [worked]
  split
  · next onCore => exact ⟨rfl, rfl, fun off => (onCore off).elim, le_rfl⟩
  · exact ⟨rfl, rfl, fun _ => rfl, Int.sub_le_self _ Int.one_nonneg⟩

/-- After the loops of a time unit a job runs, or all are yet to arrive. -/
theorem Inv.moving (inv : Inv o lines s) (here : s.phase = .run) :
    ∃ j ∈ s.jobs, j.coreId ≠ -1 ∨ s.time < j.arrivalTime := by
  have entries := inv.entries
  rw [here] at entries
  have positive : 0 < s.globals.totalCores := inv.fixed.totalCores ▸ o.coresPos
  obtain ⟨j, member⟩ := List.exists_mem_of_ne_nil s.jobs entries.admits
  cases arrived : j.arrived with
  | true =>
    have busy := inv.agree.busyCores_ne_nil inv.conserving positive member arrived
    obtain ⟨_, works⟩ := List.exists_mem_of_ne_nil _ busy
    obtain ⟨j', onCore, _⟩ := List.mem_map.mp works
    rw [List.mem_filter, decide_eq_true_iff] at onCore
    exact ⟨j', onCore.1, .inl onCore.2⟩
  | false =>
    obtain ⟨k, found⟩ := List.mem_iff_getElem?.mp member
    refine ⟨j, member, .inr (not_le.mp fun early => ?_)⟩
    have past := (entries.arrivals k j found).mpr ((lt_or_eq_of_le early).imp_right fun now => ⟨now, trivial⟩)
    exact Bool.noConfusion (arrived.symm.trans past)

theorem Inv.run (inv : Inv o lines s) (here : s.phase = .run) : Closer o lines s { s with
    phase := .head
    jobs := s.jobs.map SimJob.worked
    quantumClock := tickClock s.jobs s.quantumClock
    time := s.time + 1
    snapshots := s.jobs :: s.snapshots } := by
  have entries := inv.entries
  rw [here] at entries
  have positiveTimes (j : SimJob) (member : j ∈ s.jobs) : 0 < j.runTime :=
    entries.positive (fun _ => id) member
  refine ⟨?_, Prod.Lex.toLex_lt_toLex.mpr (.inl ?_)⟩
  · exact {
      fixed := inv.fixed
      agree := inv.agree.tick
      conserving := inv.conserving
      entries := by
        refine ⟨trivial, fun k j' found => ?_, fun j' changed => ?_, fun k j' found zero => ?_⟩
        · rw [List.getElem?_map] at found
          obtain ⟨j, found', rfl⟩ := Option.map_eq_some_iff.mp found
          rw [j.worked_times.1, j.worked_times.2.1, entries.arrivals k j found']
          change _ ∨ _ ∧ True ↔ j.arrivalTime < s.time + 1 ∨ _ ∧ False
          rw [and_true, and_false, or_false, Int.lt_add_one_iff]
          exact le_iff_lt_or_eq.symm
        · obtain ⟨j, member, rfl⟩ := List.mem_map.mp changed
          have runTime := positiveTimes j member
          have less := j.worked_times.2.2.2
          omega
        · obtain ⟨j, member, rfl⟩ := List.mem_map.mp (List.mem_of_getElem? found)
          rw [j.worked_coreId]
          refine ⟨fun off => ?_, trivial⟩
          rw [j.worked_times.2.2.1 off] at zero
          exact (positiveTimes j member).ne zero.symm
      alive := by
        change s.jobsAlive = (s.jobs.map SimJob.worked).countP SimJob.arrived
        rw [countP_map_arrived fun j => j.worked_times.2.1, inv.alive]
      history := inv.history.tick
      exclusive := List.forall_mem_cons.mpr ⟨inv.agree.exclusive, inv.exclusive⟩
      ordered := fun preemptive => (inv.ordered preemptive).tick
      optimal := fun preemptive => List.forall_mem_cons.mpr
        ⟨inv.fixed.scheme ▸ (inv.ordered preemptive).first, inv.optimal preemptive⟩ }
  · exact pending_tick (fun j member _ => positiveTimes j member) (inv.moving here)

/-- A transition keeps the invariant and comes closer to the end. -/
theorem Transition.closer (transition : Transition o s message s') (inv : Inv o lines s) :
    Closer o lines s s' := by
  cases transition with
  | move move => exact inv.move move
  | finish here found finished onCore _ _ next agree conserving =>
    exact inv.finish here found finished onCore next agree conserving
  | expire here more _ found onCore _ _ next agree conserving =>
    exact inv.expire here more found onCore next agree conserving
  | arrive here found now notArrived new agree conserving =>
    exact inv.arrive here found now notArrived new agree conserving
  | run here => exact inv.run here

/-- Every step succeeds, keeps the invariant and comes closer to the end. -/
theorem Inv.steps (inv : Inv o lines s) (notDone : s.phase ≠ .done) : Steps o lines s := by
  obtain ⟨s', taken, transition⟩ := inv.takes notDone
  have closer := transition.closer inv
  exact ⟨s', taken, closer.inv, closer.less⟩

end OsLabs.Scheduler
