import OsLabs.Model.Scheduler.Simulator
import OsLabs.ToMathlib.CStrings

/-! # The timing diagram

At the end of a time unit `simulator.c` appends to the row of every core the label of the job that runs
there, or a dash. All rows live in blocks of `core_timing_diagram_size + 1` characters, which are doubled
when a row does not fit, and the labels in arrays of 11 characters. A write outside of them is undefined
behaviour. The size is a number without a bound, and memory is not exhausted.
-/

namespace OsLabs.Scheduler

open CStrings

/-- What is printed for a job: one character for each of the first 62, then the number, cut off by
`snprintf` behind nine characters. -/
def jobLabel (jobId : ℤ) : List Char :=
  if jobId < 10 then decimal jobId
  else if jobId < 10 + 26 then [Char.ofNat (jobId - 10 + 'a'.toNat).toNat]
  else if jobId < 10 + 26 + 26 then [Char.ofNat (jobId - 10 - 26 + 'A'.toNat).toNat]
  else ('(' :: (decimal jobId ++ [')'])).take 9

def timeStringSize : ℕ := 11

/-- The time strings after the loop over the jobs. -/
def timeStrings : List SimJob → (ℤ → List Char) → Except Fault (ℤ → List Char)
  | [], strings => .ok strings
  | job :: jobs, strings =>
    if job.coreId ≠ -1 then
      if (jobLabel job.jobId).length < timeStringSize then
        timeStrings jobs (Function.update strings job.coreId (jobLabel job.jobId))
      else .error .undefinedBehaviour
    else timeStrings jobs strings

/-- The rows of the cores, and `core_timing_diagram_size`. -/
structure Diagram where
  rows : List (List Char)
  size : ℕ

def Diagram.start (cores : ℕ) : Diagram := ⟨List.replicate cores [], 1024⟩

/-- Double the size while a row of some length does not fit; the first argument bounds the doublings. -/
def grow : ℕ → ℕ → ℕ → ℕ
  | 0, _, size => size
  | fuel + 1, length, size => if length ≥ size then grow fuel length (size * 2) else size

/-- Append to the rows of the cores from `i` on. -/
def drawRows (strings : ℤ → List Char) : ℕ → List (List Char) → ℕ → Except Fault (List (List Char) × ℕ)
  | _, [], size => .ok ([], size)
  | i, row :: rows, size =>
    let cell := if strings i = [] then ['-'] else strings i
    let length := row.length + cell.length
    let size := grow length length size
    -- `strcat` ends the row with a NUL
    if length < size + 1 then do
      let (rows, size) ← drawRows strings (i + 1) rows size
      return ((row ++ cell) :: rows, size)
    else .error .undefinedBehaviour

def Diagram.draw (d : Diagram) (jobs : List SimJob) : Except Fault Diagram := do
  let strings ← timeStrings jobs fun _ => []
  let (rows, size) ← drawRows strings 0 d.rows d.size
  return ⟨rows, size⟩

/-- One step, with what it draws. -/
def drawnStep (o : Options) (x : Sim × Diagram) : Except Fault (Sim × Diagram) := do
  let s ← step o x.1
  let d ← if x.1.phase = .run then x.2.draw x.1.jobs else .ok x.2
  return (s, d)

end OsLabs.Scheduler
