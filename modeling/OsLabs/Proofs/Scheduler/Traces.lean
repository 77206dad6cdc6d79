import OsLabs.Proofs.Scheduler.Steps
import OsLabs.ToMathlib.DeterministicRun

/-! # Traced runs

A traced step takes a transition and keeps its message. What every transition keeps, about the state
and the messages before it, holds along every run.
-/

namespace OsLabs.Scheduler

open DeterministicRun

variable {o : Options} {lines : List JobLine} {s : Sim}

/-- The messages after a step. -/
def Output.after (output : Output) (time : ℤ) (message : Option Message) : Output :=
  output ++ message.toList.map (time, ·)

@[simp] theorem Output.after_none (output : Output) (time : ℤ) : output.after time none = output :=
  List.append_nil output

theorem tracedStep_eq {s' : Sim} (taken : step o s = .ok s') (output : Output) :
    tracedStep o (s, output) = .ok (s', output.after s.time (printed o s)) := by
  rw [tracedStep, taken]
  rfl

theorem notDone_of_printed {message : Message} (shown : printed o s = some message) : s.phase ≠ .done := by
  intro done
  simp only [printed, done] at shown
  cases shown

/-- A traced step is a transition, with its message at the end of the output. -/
theorem Inv.traced (inv : Inv o lines s) (notDone : s.phase ≠ .done) (output : Output) :
    ∃ s', tracedStep o (s, output) = .ok (s', output.after s.time (printed o s)) ∧
      Transition o s (printed o s) s' ∧ Closer o lines s s' := by
  obtain ⟨s', taken, transition⟩ := inv.takes notDone
  exact ⟨s', tracedStep_eq taken output, transition, transition.closer inv⟩

theorem tracedStep_done (done : s.phase = .done) (output : Output) :
    tracedStep o (s, output) = .ok (s, output) := by
  have silent : printed o s = none := by simp only [printed, done]
  have taken : step o s = .ok s := by simp only [step, done]
  rw [tracedStep_eq taken, silent, Output.after_none]

theorem traced_run_zero (o : Options) (s : Sim) (output : Output) :
    run (tracedStep o) 0 (s, output) = .ok (s, output ++ []) := by
  rw [List.append_nil]
  rfl

/-- What every transition keeps holds along the run. -/
theorem traced_run {P : Sim → Output → Prop} {output : Output}
    (kept : ∀ s output message s', Inv o lines s → P s output → Transition o s message s' →
      P s' (output.after s.time message)) (inv : Inv o lines s) (start : P s output) (n : ℕ) :
    ∃ s' output', run (tracedStep o) n (s, output) = .ok (s', output') ∧ Inv o lines s' ∧ P s' output' := by
  have steps : ∀ x : Sim × Output, Inv o lines x.1 ∧ P x.1 x.2 →
      ∃ x', tracedStep o x = .ok x' ∧ Inv o lines x'.1 ∧ P x'.1 x'.2 := by
    rintro ⟨s, output⟩ ⟨inv, holds⟩
    by_cases done : s.phase = .done
    · exact ⟨_, tracedStep_done done output, inv, holds⟩
    · obtain ⟨s', taken, transition, closer⟩ := inv.traced done output
      exact ⟨_, taken, closer.inv, kept _ _ _ _ inv holds transition⟩
  obtain ⟨⟨s', output'⟩, ran, kept⟩ := run_inv steps n (s, output) ⟨inv, start⟩
  exact ⟨s', output', ran, kept⟩

end OsLabs.Scheduler
