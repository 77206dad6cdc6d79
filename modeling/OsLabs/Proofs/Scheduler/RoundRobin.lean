import OsLabs.Proofs.Scheduler.Fifo
import OsLabs.Proofs.Scheduler.Stints

/-! # Quanta

Under round robin a job that gets a core starts with a full quantum. The clocks tell the cores on which
a job finished in the current time unit from those whose quantum may expire.
-/

namespace OsLabs.Scheduler

open Globals DeterministicRun

variable {o : Options} {lines : List JobLine} {s s' : Sim} {message : Option Message} {output : Output}
  {phase : Phase}

/-! ## Stints -/

theorem stint_of_dispatch {m : Message} {jobId : ℤ} (scheme : o.scheme = .rr) (inv : Inv o lines s)
    (shown : printed o s = some m) (named : jobId ∈ m.dispatched) (output : Output) :
    ∃ s₁ output₁, tracedStep o (s, output) = .ok (s₁, output₁) ∧
      ∃ j ∈ s₁.jobs, j.jobId = jobId ∧ j.coreId = m.coreId ∧
        ∃ n s₂ later newJobId, run (tracedStep o) n (s₁, output₁) = .ok (s₂, output₁ ++ later) ∧
          Stint jobId m.coreId (min o.quantum j.runTime) s₁ s₂ later ∧
          printed o s₂ = some (stintEnd j o.quantum newJobId) := by
  obtain ⟨s₁, taken, transition, closer⟩ := inv.traced (notDone_of_printed shown) output
  rw [shown] at taken transition
  have patient : o.scheme.preempts = false := scheme ▸ rfl
  obtain ⟨j, dispatched, rfl⟩ := transition.dispatched inv patient named
  have clock := dispatched.clock scheme
  have positive := o.quantumPos scheme
  rw [← dispatched.here] at clock ⊢
  have serving : Serving s₁ j :=
    ⟨dispatched.member, dispatched.here ▸ dispatched.onCore, by omega, fun _ => by omega⟩
  have stint := serving.stint scheme closer.inv (output.after s.time (some m))
  rw [clock] at stint
  exact ⟨s₁, _, taken, j, dispatched.member, rfl, rfl, stint⟩

/-! ## Finished jobs and expired quanta -/

/-- The calls of the current time unit, as the clocks and the loop show them. -/
structure Apart (o : Options) (s : Sim) (output : Output) : Prop where
  past : ∀ entry ∈ output, entry.1 ≤ s.time
  fresh : ∀ jobId coreId newJobId, (s.time, .finished jobId coreId newJobId) ∈ output →
    s.quantumClock coreId = o.quantum
  looped : ∀ oldJobId coreId newJobId, (s.time, .quantumExpired oldJobId coreId newJobId) ∈ output →
    ∀ k, ¬ s.phase.FinishAhead k
  apart : ∀ time coreId jobId newJobId oldJobId newJobId', (time, .finished jobId coreId newJobId) ∈ output →
    (time, .quantumExpired oldJobId coreId newJobId') ∉ output

theorem Apart.start (o : Options) (s : Sim) : Apart o s [] where
  past _ member := (List.not_mem_nil member).elim
  fresh _ _ _ member := (List.not_mem_nil member).elim
  looped _ _ _ member := (List.not_mem_nil member).elim
  apart _ _ _ _ _ _ member := (List.not_mem_nil member).elim

theorem Move.finishAhead {k : ℕ} (move : Move o s phase) (ahead : phase.FinishAhead k) :
    ∃ k, s.phase.FinishAhead k := by
  cases move with
  | enter here => exact ⟨k, here ▸ trivial⟩
  | @unfinished i _ here => exact ⟨i, here ▸ Nat.le_refl i⟩
  | _ => exact ahead.elim

/-- A clock that is reset to the quantum. -/
theorem resetClock_fresh {c d : ℤ} {quantumClock : ℤ → ℤ} (scheme : o.scheme = .rr)
    (full : quantumClock d = o.quantum) : o.resetClock quantumClock c d = o.quantum := by
  by_cases same : d = c
  · rw [same, resetClock_self scheme]
  · rw [resetClock_of_ne _ same, full]

/-- A message, with what the step does to the clocks and where it leaves the loop. -/
theorem Apart.say {m : Message} (apart : Apart o s output) (time : s'.time = s.time)
    (clocks : ∀ c, s.quantumClock c = o.quantum → s'.quantumClock c = o.quantum)
    (loop : ∀ k, s'.phase.FinishAhead k → ∃ k, s.phase.FinishAhead k)
    (finishes : ∀ jobId coreId newJobId, m = .finished jobId coreId newJobId →
      s'.quantumClock coreId = o.quantum ∧ ∃ k, s.phase.FinishAhead k)
    (expires : ∀ oldJobId coreId newJobId, m = .quantumExpired oldJobId coreId newJobId →
      s.quantumClock coreId ≠ o.quantum ∧ ∀ k, ¬ s'.phase.FinishAhead k) :
    Apart o s' (output.after s.time (some m)) := by
  have cases_of {entry : ℤ × Message} (member : entry ∈ output.after s.time (some m)) :
      entry ∈ output ∨ entry = (s.time, m) :=
    (List.mem_append.mp member).imp_right List.mem_singleton.mp
  constructor
  · intro entry member
    rw [time]
    rcases cases_of member with old | rfl
    · exact apart.past entry old
    · exact le_rfl
  · intro jobId coreId newJobId member
    rw [time] at member
    rcases cases_of member with old | new
    · exact clocks coreId (apart.fresh jobId coreId newJobId old)
    · exact (finishes jobId coreId newJobId (Prod.mk.inj new).2.symm).1
  · intro oldJobId coreId newJobId member k ahead
    rw [time] at member
    rcases cases_of member with old | new
    · obtain ⟨k, ahead⟩ := loop k ahead
      exact apart.looped oldJobId coreId newJobId old k ahead
    · exact (expires oldJobId coreId newJobId (Prod.mk.inj new).2.symm).2 k ahead
  · intro time coreId jobId newJobId oldJobId newJobId' finished expired
    rcases cases_of finished with finished | new
    · rcases cases_of expired with expired | new
      · exact apart.apart time coreId jobId newJobId oldJobId newJobId' finished expired
      · obtain ⟨rfl, same⟩ := Prod.mk.inj new
        exact (expires oldJobId coreId newJobId' same.symm).1 (apart.fresh jobId coreId newJobId finished)
    · obtain ⟨rfl, same⟩ := Prod.mk.inj new
      obtain ⟨-, k, ahead⟩ := finishes jobId coreId newJobId same.symm
      rcases cases_of expired with expired | new
      · exact apart.looped oldJobId coreId newJobId' expired k ahead
      · cases same.trans (Prod.mk.inj new).2.symm

theorem Apart.transition (apart : Apart o s output) (scheme : o.scheme = .rr)
    (taken : Transition o s message s') : Apart o s' (output.after s.time message) := by
  have positive := o.quantumPos scheme
  cases taken with
  | move move =>
    rw [Output.after_none]
    refine ⟨apart.past, apart.fresh, fun oldJobId coreId newJobId member k ahead => ?_, apart.apart⟩
    obtain ⟨k, ahead⟩ := move.finishAhead ahead
    exact apart.looped oldJobId coreId newJobId member k ahead
  | @finish i job r newJobId jobs' g' here =>
    apply Apart.say apart
    · rfl
    · exact fun c full => resetClock_fresh scheme full
    · exact fun k ahead => ⟨k, ahead⟩
    · rintro _ _ _ ⟨⟩
      exact ⟨resetClock_self scheme _ _, i, here ▸ Nat.le_refl i⟩
    · rintro _ _ _ ⟨⟩
  | @expire i k job r newJobId jobs' g' here more expired found isCore =>
    apply Apart.say apart
    · rfl
    · exact fun c full => resetClock_fresh scheme full
    · exact fun k ahead => ahead.elim
    · rintro _ _ _ ⟨⟩
    · rintro _ _ _ ⟨⟩
      rw [isCore]
      exact ⟨by omega, fun _ => id⟩
  | @arrive i job coreId jobs' g' here =>
    apply Apart.say apart
    · rfl
    · intro c full
      change (if coreId = -1 then s.quantumClock else _) c = o.quantum
      split
      · exact full
      · exact resetClock_fresh scheme full
    · exact fun k ahead => ahead.elim
    · rintro _ _ _ ⟨⟩
    · rintro _ _ _ ⟨⟩
  | run here =>
    rw [Output.after_none]
    have earlier {message : Message} : (s.time + 1, message) ∉ output := fun member => by
      have le := apart.past _ member
      omega
    refine ⟨fun entry member => ?_, fun _ _ _ member => (earlier member).elim,
      fun _ _ _ member => (earlier member).elim, apart.apart⟩
    exact (apart.past entry member).trans (Int.lt_succ s.time).le

end OsLabs.Scheduler
