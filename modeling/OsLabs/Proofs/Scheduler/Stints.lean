import OsLabs.Proofs.Scheduler.Traces

/-! # A job on a core

Without preemption a step finishes the job on a core, ends its quantum, leaves it where it is, or runs
it for a time unit. Under round robin this gives the stint of a job: from the time it gets a core until
the next message about that core it runs in every time unit, as long as the quantum and its units allow.
-/

namespace OsLabs.Scheduler

open Globals DeterministicRun

variable {o : Options} {lines : List JobLine} {s s' : Sim} {message : Option Message} {g g' : Globals}
  {c time : ℤ} {j : SimJob} {jobs jobs' : List SimJob} {phase : Phase}

/-- The loop over the quantum clocks has come past core `c`. -/
def Phase.QuantumSeen : Phase → ℤ → Prop
  | .quantum i, c => c < i
  | .arrive _, _ | .run, _ => True
  | _, _ => False

/-- What a step does to a job on a core. -/
inductive Fate (o : Options) (s : Sim) (j : SimJob) : Option Message → Sim → Prop
  | finishes {newJobId : ℤ} {s' : Sim} (finished : j.runTime = 0) :
      Fate o s j (some (.finished j.jobId j.coreId newJobId)) s'
  | expires {newJobId : ℤ} {s' : Sim} (scheme : o.scheme = .rr) (expired : s.quantumClock j.coreId = 0)
      (left : 0 < j.runTime) : Fate o s j (some (.quantumExpired j.jobId j.coreId newJobId)) s'
  | stays {message : Option Message} {s' : Sim} (other : ∀ m ∈ message, m.coreId ≠ j.coreId)
      (member : j ∈ s'.jobs) (snapshots : s'.snapshots = s.snapshots)
      (clock : s'.quantumClock j.coreId = s.quantumClock j.coreId)
      (seen : o.scheme = .rr → s'.phase.QuantumSeen j.coreId →
        s.phase.QuantumSeen j.coreId ∨ s.quantumClock j.coreId ≠ 0) : Fate o s j message s'
  | works {s' : Sim} (here : s.phase = .run) (member : j.worked ∈ s'.jobs)
      (snapshots : s'.snapshots = s.jobs :: s.snapshots)
      (clock : s'.quantumClock j.coreId = s.quantumClock j.coreId - 1) (head : s'.phase = .head) :
      Fate o s j none s'

theorem resetClock_self (scheme : o.scheme = .rr) (quantumClock : ℤ → ℤ) (c : ℤ) :
    o.resetClock quantumClock c c = o.quantum := by
  rw [Options.resetClock, if_pos scheme, Function.update_self]

theorem resetClock_of_ne {d : ℤ} (quantumClock : ℤ → ℤ) (other : d ≠ c) :
    o.resetClock quantumClock c d = quantumClock d := by
  rw [Options.resetClock]
  split
  · exact Function.update_of_ne other ..
  · rfl

/-- A move past the clock of a core finds it running. -/
theorem Move.seen (move : Move o s phase) (member : j ∈ s.jobs) (isCore : 0 ≤ j.coreId ∧ j.coreId < o.cores)
    (scheme : o.scheme = .rr) (seen : phase.QuantumSeen j.coreId) :
    s.phase.QuantumSeen j.coreId ∨ s.quantumClock j.coreId ≠ 0 := by
  cases move with
  | enter => exact seen.elim
  | leave => exact seen.elim
  | unfinished => exact seen.elim
  | allFinished =>
    change j.coreId < (0 : ℕ) at seen
    omega
  | @unexpired i here more running =>
    change j.coreId < (i + 1 : ℕ) at seen
    rw [here]
    by_cases same : j.coreId = i
    · refine .inr (running.elim (fun runs => same ▸ runs) fun free => (free j member same).elim)
    · refine .inl ?_
      change j.coreId < i
      omega
  | @allExpired i here last =>
    have past : ¬ i < o.cores := fun below => last ⟨scheme, below⟩
    rw [here]
    refine .inl ?_
    change j.coreId < i
    omega
  | notNow here =>
    rw [here]
    exact .inl trivial
  | allArrived here =>
    rw [here]
    exact .inl trivial

/-- A job on a core keeps it when another core gets a job. -/
theorem NextJob.keepsCore (next : NextJob time c jobs g jobs' g') (ids : (jobs.map SimJob.jobId).Nodup)
    (member : j ∈ jobs) (onCore : j.coreId ≠ -1) : j ∈ jobs' := by
  cases next with
  | idle => exact member
  | dispatch _ inJobs _ off =>
    refine mem_alter.mpr (.inr ⟨member, fun same => onCore ?_⟩)
    rw [eq_of_jobId ids member inJobs same, off]

theorem Transition.fate (transition : Transition o s message s') (inv : Inv o lines s)
    (patient : o.scheme.preempts = false) (member : j ∈ s.jobs) (onCore : j.coreId ≠ -1) :
    Fate o s j message s' := by
  have entries := inv.entries
  obtain ⟨arrived, hasCore, busy, _⟩ := inv.agree.onCore j member onCore
  have isCore : 0 ≤ j.coreId ∧ j.coreId < o.cores := inv.fixed.totalCores ▸ hasCore
  cases transition with
  | move move => exact .stays nofun member rfl rfl (move.seen member isCore)
  | @finish i job r newJobId jobs' g' here found finished isOn running called next =>
    by_cases same : j.coreId = job.coreId
    · obtain rfl := inv.agree.core_inj member (List.mem_of_getElem? found) onCore same
      exact .finishes finished
    · have perm := deleteJob_perm found
      have ids := (List.nodup_cons.mp ((perm.map SimJob.jobId).nodup_iff.mp inv.agree.ids)).2
      have other : j ≠ job := fun whole => same (congrArg SimJob.coreId whole)
      have kept : j ∈ deleteJob s.jobs i := (List.mem_cons.mp (perm.mem_iff.mp member)).resolve_left other
      refine .stays ?_ (next.keepsCore ids kept onCore) rfl (resetClock_of_ne _ same) fun _ => .inl
      rintro _ ⟨⟩
      exact Ne.symm same
  | @expire i k job r newJobId jobs' g' here more expired found isOn running called next =>
    rw [here] at entries
    have inJobs := List.mem_of_getElem? found
    have left := entries.positive (fun _ => id) member
    by_cases same : j.coreId = job.coreId
    · obtain rfl := inv.agree.core_inj member inJobs onCore same
      exact .expires more.1 (isOn ▸ expired) left
    · have released : s.jobs.set k (job.setCore (-1)) = s.jobs.map (alter job.jobId (·.setCore (-1))) :=
        set_eq_alter (·.setCore (-1)) inv.agree.ids found
      have ids : ((s.jobs.set k (job.setCore (-1))).map SimJob.jobId).Nodup := by
        rw [released, map_alter_jobId (by exact fun _ => rfl)]
        exact inv.agree.ids
      have kept : j ∈ s.jobs.set k (job.setCore (-1)) := by
        rw [released]
        refine mem_alter.mpr (.inr ⟨member, fun sameId => same ?_⟩)
        rw [eq_of_jobId inv.agree.ids member inJobs sameId]
      refine .stays ?_ (next.keepsCore ids kept onCore) rfl (resetClock_of_ne _ same) fun _ seen => .inl ?_
      · rintro _ ⟨⟩
        exact Ne.symm same
      · change j.coreId < (i + 1 : ℕ) at seen
        rw [here]
        change j.coreId < i
        omega
  | @arrive i job coreId jobs' g' here found now notArrived new =>
    have inJobs := List.mem_of_getElem? found
    have other : j.jobId ≠ job.jobId := fun same => by
      obtain rfl := eq_of_jobId inv.agree.ids member inJobs same
      exact Bool.noConfusion (notArrived.symm.trans arrived)
    have seen (_ : o.scheme = .rr) (_ : (Phase.arrive (i + 1)).QuantumSeen j.coreId) :
        s.phase.QuantumSeen j.coreId ∨ s.quantumClock j.coreId ≠ 0 := by
      rw [here]
      exact .inl trivial
    cases new with
    | idle head =>
      have isIdle : coreId ∈ s.globals.idle := head ▸ List.mem_cons_self ..
      have apart : coreId ≠ j.coreId := fun same => busy (same ▸ isIdle)
      refine .stays ?_ (mem_alter.mpr (.inr ⟨member, other⟩)) rfl ?_ seen
      · rintro _ ⟨⟩
        exact apart
      · change (if coreId = -1 then s.quantumClock else _) j.coreId = _
        split
        · rfl
        · exact resetClock_of_ne _ apart.symm
    | preempt _ preempts => exact (inv.notPreempts patient preempts).elim
    | wait =>
      refine .stays ?_ (mem_alter.mpr (.inr ⟨member, other⟩)) rfl rfl seen
      rintro _ ⟨⟩
      exact onCore.symm
  | run here =>
    refine .works here (List.mem_map_of_mem member) rfl ?_ rfl
    change tickClock s.jobs s.quantumClock j.coreId = _
    rw [tickClock, if_pos]
    exact List.mem_map_of_mem (List.mem_filter.mpr ⟨member, decide_eq_true onCore⟩)

/-! ## Dispatch -/

/-- A job that a message puts on a core is there, under round robin with a full quantum. -/
structure Dispatched (o : Options) (s : Sim) (c : ℤ) (j : SimJob) : Prop where
  member : j ∈ s.jobs
  here : j.coreId = c
  onCore : c ≠ -1
  clock : o.scheme = .rr → s.quantumClock c = o.quantum

theorem NextJob.dispatched {newJobId : ℤ} (next : NextJob time c jobs g jobs' g') (hasCore : g.HasCore c)
    (called : scheduleNextJob g c time = some (g', newJobId)) (named : newJobId ≠ -1) :
    ∃ j ∈ jobs', j.jobId = newJobId ∧ j.coreId = c := by
  cases next with
  | idle empty =>
    rw [scheduleNextJob_nil empty] at called
    cases called
    exact (named rfl).elim
  | @dispatch r rest job head member _ _ waits =>
    rw [scheduleNextJob_cons hasCore head] at called
    obtain rfl : r.jobId = newJobId := (Prod.mk.inj (Option.some.inj called)).2
    exact ⟨_, mem_alter.mpr (.inl ⟨job, member, rfl, rfl⟩), waits.jobId.symm, rfl⟩

theorem mem_dispatched_iff {newJobId jobId : ℤ} :
    jobId ∈ (if newJobId = -1 then [] else [newJobId]) ↔ newJobId ≠ -1 ∧ jobId = newJobId := by
  split
  · next none => exact ⟨nofun, fun both => (both.1 none).elim⟩
  · next some => exact List.mem_singleton.trans (and_iff_right some).symm

theorem Transition.dispatched {m : Message} {jobId : ℤ} (transition : Transition o s (some m) s')
    (inv : Inv o lines s) (patient : o.scheme.preempts = false) (named : jobId ∈ m.dispatched) :
    ∃ j, Dispatched o s' m.coreId j ∧ j.jobId = jobId := by
  cases transition with
  | @finish i job r newJobId jobs' g' here found finished onCore running called next =>
    obtain ⟨_, hasCore, _⟩ := inv.agree.onCore job (List.mem_of_getElem? found) onCore
    obtain ⟨some, rfl⟩ := mem_dispatched_iff.mp named
    obtain ⟨j, member, isJob, isCore⟩ := next.dispatched hasCore called some
    exact ⟨j, ⟨member, isCore, onCore, fun scheme => resetClock_self scheme _ _⟩, isJob⟩
  | @expire i k job r newJobId jobs' g' here more expired found isCore running called next =>
    have onCore : job.coreId ≠ -1 := by omega
    obtain ⟨_, hasCore, _⟩ := inv.agree.onCore job (List.mem_of_getElem? found) onCore
    obtain ⟨some, rfl⟩ := mem_dispatched_iff.mp named
    obtain ⟨j, member, isJob, isCore⟩ := next.dispatched hasCore called some
    exact ⟨j, ⟨member, isCore, onCore, fun scheme => resetClock_self scheme _ _⟩, isJob⟩
  | @arrive i job coreId jobs' g' here found now notArrived new =>
    have inJobs := List.mem_of_getElem? found
    have placed : coreId ≠ -1 ∧ jobId = job.jobId := by
      change jobId ∈ (if coreId = -1 then [] else [job.jobId]) at named
      split at named
      · cases named
      · next some => exact ⟨some, List.mem_singleton.mp named⟩
    obtain ⟨onCore, rfl⟩ := placed
    cases new with
    | idle =>
      refine ⟨job.start coreId, ⟨mem_alter.mpr (.inl ⟨job, inJobs, rfl, rfl⟩), rfl, onCore, fun scheme => ?_⟩, rfl⟩
      change (if coreId = -1 then _ else o.resetClock s.quantumClock coreId) coreId = o.quantum
      rw [if_neg onCore, resetClock_self scheme]
    | preempt _ preempts => exact (inv.notPreempts patient preempts).elim
    | wait => exact (onCore rfl).elim

/-! ## Stints -/

/-- From one state to another a job runs on a core for so many units, with no message about the core. -/
structure Stint (jobId c units : ℤ) (s s' : Sim) (later : Output) : Prop where
  runs : ∃ snapshots, s'.snapshots = snapshots ++ s.snapshots ∧ (snapshots.length : ℤ) = units ∧
    ∀ snapshot ∈ snapshots, ∃ j ∈ snapshot, j.jobId = jobId ∧ j.coreId = c
  undisturbed : ∀ entry ∈ later, entry.2.coreId ≠ c

/-- A job on a core whose clock has not run out unseen. -/
structure Serving (s : Sim) (j : SimJob) : Prop where
  member : j ∈ s.jobs
  onCore : j.coreId ≠ -1
  nonneg : 0 ≤ s.quantumClock j.coreId
  seen : s.phase.QuantumSeen j.coreId → 0 < s.quantumClock j.coreId

theorem Stint.none (jobId c : ℤ) (s : Sim) : Stint jobId c 0 s s [] := ⟨⟨[], rfl, rfl, nofun⟩, nofun⟩

/-- A step that leaves the job where it is comes before a stint. -/
theorem Stint.after_stays {jobId units : ℤ} {s₂ : Sim} {later : Output} (stint : Stint jobId c units s' s₂ later)
    (other : ∀ m ∈ message, m.coreId ≠ c) (snapshots : s'.snapshots = s.snapshots) :
    Stint jobId c units s s₂ (message.toList.map (s.time, ·) ++ later) where
  runs := snapshots ▸ stint.runs
  undisturbed entry member := by
    rcases List.mem_append.mp member with now | next
    · obtain ⟨m, isMessage, rfl⟩ := List.mem_map.mp now
      exact other m (Option.mem_toList.mp isMessage)
    · exact stint.undisturbed entry next

/-- A time unit comes before a stint. -/
theorem Stint.after_works {units : ℤ} {s₂ : Sim} {later : Output}
    (stint : Stint j.jobId j.coreId units s' s₂ later) (member : j ∈ s.jobs)
    (snapshots : s'.snapshots = s.jobs :: s.snapshots) : Stint j.jobId j.coreId (units + 1) s s₂ later where
  runs := by
    obtain ⟨ran, whole, length, runs⟩ := stint.runs
    refine ⟨ran ++ [s.jobs], ?_, ?_, fun snapshot taken => ?_⟩
    · rw [whole, snapshots, List.append_assoc]
      rfl
    · rw [List.length_append, List.length_singleton, Nat.cast_add, length, Nat.cast_one]
    · rcases List.mem_append.mp taken with before | now
      · exact runs snapshot before
      · exact ⟨j, List.mem_singleton.mp now ▸ member, rfl, rfl⟩
  undisturbed := stint.undisturbed

/-- The message that ends a stint. -/
def stintEnd (j : SimJob) (clock newJobId : ℤ) : Message :=
  if j.runTime ≤ clock then .finished j.jobId j.coreId newJobId else .quantumExpired j.jobId j.coreId newJobId

/-- The job runs until its units or its quantum are used up. -/
theorem Serving.stint (scheme : o.scheme = .rr) (inv : Inv o lines s) (serving : Serving s j) (output : Output) :
    ∃ n s' later newJobId, run (tracedStep o) n (s, output) = .ok (s', output ++ later) ∧
      Stint j.jobId j.coreId (min (s.quantumClock j.coreId) j.runTime) s s' later ∧
      printed o s' = some (stintEnd j (s.quantumClock j.coreId) newJobId) := by
  induction s using (InvImage.wf (Sim.measure o) (wellFounded_lt (α := ℕ ×ₗ ℕ))).induction
    generalizing j output with
  | _ s ih =>
    have nonneg := serving.nonneg
    have notDone : s.phase ≠ .done := fun done => by
      have empty := inv.entries.admits
      rw [done] at empty
      exact List.ne_nil_of_mem serving.member empty
    obtain ⟨s', taken, transition, closer⟩ := inv.traced notDone output
    have patient : o.scheme.preempts = false := scheme ▸ rfl
    have fate := transition.fate inv patient serving.member serving.onCore
    generalize shown : printed o s = message at taken fate
    cases fate with
    | @finishes newJobId _ finished =>
      refine ⟨0, s, [], newJobId, traced_run_zero o s output, ?_, ?_⟩
      · rw [finished, min_eq_right nonneg]
        exact .none ..
      · rw [shown, stintEnd, finished, if_pos nonneg]
    | @expires newJobId _ _ expired left =>
      refine ⟨0, s, [], newJobId, traced_run_zero o s output, ?_, ?_⟩
      · rw [expired, min_eq_left left.le]
        exact .none ..
      · rw [shown, stintEnd, expired, if_neg (not_le.mpr left)]
    | stays other member snapshots clock seen =>
      have serving' : Serving s' j := by
        refine ⟨member, serving.onCore, clock ▸ nonneg, fun past => ?_⟩
        rw [clock]
        rcases seen scheme past with before | runs
        · exact serving.seen before
        · omega
      obtain ⟨n, s₂, later, newJobId, ran, stint, ends⟩ := ih s' closer.less closer.inv serving' _
      rw [clock] at stint ends
      refine ⟨n + 1, s₂, _, newJobId, ?_, stint.after_stays other snapshots, ends⟩
      rw [run_succ taken, ran, Output.after, List.append_assoc]
    | works here member snapshots clock head =>
      have positive : 0 < s.quantumClock j.coreId := serving.seen (here ▸ trivial)
      have worked : j.worked.runTime = j.runTime - 1 := by rw [SimJob.worked, if_pos serving.onCore]
      have serving' : Serving s' j.worked := by
        refine ⟨member, j.worked_coreId ▸ serving.onCore, ?_, fun past => ?_⟩
        · rw [j.worked_coreId, clock]
          omega
        · rw [head] at past
          exact past.elim
      obtain ⟨n, s₂, later, newJobId, ran, stint, ends⟩ := ih s' closer.less closer.inv serving' _
      rw [j.worked_jobId, j.worked_coreId, clock, worked] at stint
      have longer := stint.after_works serving.member snapshots
      have units : min (s.quantumClock j.coreId - 1) (j.runTime - 1) + 1 =
          min (s.quantumClock j.coreId) j.runTime := by omega
      rw [units] at longer
      refine ⟨n + 1, s₂, later, newJobId, ?_, longer, ?_⟩
      · rw [run_succ taken, ran, Output.after_none]
      · rw [ends, stintEnd, stintEnd, j.worked_jobId, j.worked_coreId, clock, worked]
        simp only [sub_le_sub_iff_right]

end OsLabs.Scheduler
