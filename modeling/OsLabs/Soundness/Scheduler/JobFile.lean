import OsLabs.Model.Scheduler.Simulator

/-! # The format of the job file

A file is in the format if every line behind the first has three fields, and a field is worth the number
it starts with. The simulator reads exactly the files in the format, and the jobs that they spell.
-/

namespace OsLabs.Scheduler

open CStrings

variable {file text : List Char} {job : JobLine} {jobs : List JobLine}

/-- A line with three fields, and the job that they spell. -/
inductive Row : List Char → JobLine → Prop
  | mk {text arrival run priority : List Char} {job : JobLine} (fields : Fields ',' text [arrival, run, priority])
      (arrivalTime : Value arrival job.arrivalTime) (runTime : Value run job.runTime)
      (priorityValue : Value priority job.priority) : Row text job

/-- A file and the jobs in its lines, up to a NUL each. -/
def Table (file : List Char) (jobs : List JobLine) : Prop :=
  ∃ lines, Lines lineSize file lines ∧ List.Forall₂ (fun buffer job => Row (cString buffer) job) lines.tail jobs

theorem readJob_iff {buffer : List Char} : readJob buffer = some job ↔ Row (cString buffer) job := by
  rw [readJob]
  constructor
  · intro read
    dsimp only at read
    split at read
    · next arrivalTime runTime priority foundArrival foundRun foundPriority =>
      cases read
      have third := fields_cons_iff.mpr ⟨_, Prod.ext foundPriority rfl, .nil _⟩
      have second := fields_cons_iff.mpr ⟨_, Prod.ext foundRun rfl, third⟩
      have first := fields_cons_iff.mpr ⟨_, Prod.ext foundArrival rfl, second⟩
      exact .mk first (value_iff.mpr rfl) (value_iff.mpr rfl) (value_iff.mpr rfl)
    · cases read
  · rintro ⟨fields, arrivalTime, runTime, priorityValue⟩
    obtain ⟨rest, foundArrival, fields⟩ := fields_cons_iff.mp fields
    obtain ⟨rest', foundRun, fields⟩ := fields_cons_iff.mp fields
    obtain ⟨rest'', foundPriority, -⟩ := fields_cons_iff.mp fields
    simp only [foundArrival, foundRun, foundPriority, value_iff.mp arrivalTime, value_iff.mp runTime,
      value_iff.mp priorityValue]

/-- The simulator reads the files in the format, and the jobs in them. -/
theorem readJobs_iff : readJobs file = some jobs ↔ Table file jobs := by
  rw [readJobs, mapM_eq_some_iff, Table]
  simp only [readJob_iff, lines_iff (by decide : 1 < lineSize), exists_eq_left']

end OsLabs.Scheduler
