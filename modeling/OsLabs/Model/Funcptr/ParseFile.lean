import Mathlib.Logic.Function.Iterate
import OsLabs.ToMathlib.ScanFormat

/-! # The process file

`parse_file` of `util.c`: a header line, and then one process for each call of `fscanf` until `feof`.
A character stands for a byte. `locals` is what the variables of the loop hold before `fscanf` stores
into the first of them. `pptr` is total: from `P_SIZE` on it is the memory behind the array. `stores`
records the entries written; the code never reads it.
-/

namespace OsLabs.Funcptr

open ScanFormat

/-- `P_SIZE`. -/
def pSize : ℕ := 7

structure Process where
  pid : ℤ
  arrivalTime : ℤ
  priority : ℤ
deriving DecidableEq, Repr

def processCtr (pid arrivalTime priority : ℤ) : Process := ⟨pid, arrivalTime, priority⟩

/-- `"%d,%d,%d\n"`. -/
def rowFormat : List Directive := [.int, .literal ',', .int, .literal ',', .int, .space]

/-- The variables of `parse_file`. -/
structure ParseFile where
  f : Stream
  pptr : ℕ → Process
  s : ℕ
  stores : List ℕ

namespace ParseFile

/-- In front of the loop. -/
def start (malloc : ℕ → Process) (content : List Char) : ParseFile where
  f := Stream.skipLine ⟨content, false⟩
  pptr := malloc
  s := 0
  stores := []

/-- One iteration of the loop, if there is another one. -/
def step (locals : ℕ → Process) (p : ParseFile) : ParseFile :=
  if p.f.eof then p
  else
    let (f, numbers) := fscanf rowFormat p.f
    let t := locals p.s
    let process := processCtr (numbers.getD 0 t.pid) (numbers.getD 1 t.arrivalTime) (numbers.getD 2 t.priority)
    { f, pptr := Function.update p.pptr p.s process, s := p.s + 1, stores := p.s :: p.stores }

/-- `parse_file` after so many iterations. -/
def parseFile (locals malloc : ℕ → Process) (content : List Char) (n : ℕ) : ParseFile :=
  (step locals)^[n] (start malloc content)

end ParseFile

end OsLabs.Funcptr
