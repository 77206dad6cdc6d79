import Mathlib.Data.Int.Notation
import Mathlib.Data.Nat.Notation
import OsLabs.ToMathlib.Monitor

/-! # Producers and consumers

`producer_consumer.c`: a circular queue under one mutex with the condition variables `notFull` and
`notEmpty`, and two counters shared by the threads. A step of a thread is the critical section of
one iteration, or the part of it up to the next wait; the work outside of the mutex touches nothing that
is shared. The items added and removed are recorded; the code never reads these records.
-/

namespace OsLabs.Pthreads

open Monitor

def queueSize : ℕ := 5

def workMax : ℤ := 30

/-- `queue`, without its mutex and condition variables. -/
structure Queue where
  buf : ℕ → ℤ
  head : ℕ
  tail : ℕ
  full : Bool
  empty : Bool

/-- `queueInit`, where `buf` is what the allocated memory holds. -/
def queueInit (buf : ℕ → ℤ) : Queue := ⟨buf, 0, 0, false, true⟩

/-- The index after `i`, wrapped around at the end of the array. -/
def wrap (i : ℕ) : ℕ := if i + 1 = queueSize then 0 else i + 1

def queueAdd (q : Queue) (item : ℤ) : Queue :=
  let tail := wrap q.tail
  { q with
    buf := Function.update q.buf q.tail item
    tail
    full := if tail = q.head then true else q.full
    empty := false }

/-- The item removed, and the queue after it. -/
def queueRemove (q : Queue) : ℤ × Queue :=
  let head := wrap q.head
  (q.buf q.head, { q with head, empty := if head = q.tail then true else q.empty, full := false })

/-- What the threads share. -/
structure Shared where
  fifo : Queue
  totalProduced : ℤ
  totalConsumed : ℤ
  added : List ℤ
  removed : List ℤ

inductive Cond where
  | notFull
  | notEmpty
deriving DecidableEq, Repr

/-- A thread is at the top of its loop or has exited. -/
inductive Point where
  | working
  | exited
deriving DecidableEq, Repr

inductive Thread (pros cons : ℕ) where
  | producer (tid : Fin pros)
  | consumer (tid : Fin cons)
deriving DecidableEq, Repr

/-- `item_produced = (*total_produced)++` and `queueAdd`. -/
def Shared.produce (s : Shared) : Shared :=
  { s with
    totalProduced := s.totalProduced + 1
    fifo := queueAdd s.fifo s.totalProduced
    added := s.added ++ [s.totalProduced] }

/-- `queueRemove` and `(*total_consumed)++`. -/
def Shared.consume (s : Shared) : Shared :=
  { s with
    fifo := (queueRemove s.fifo).2
    totalConsumed := s.totalConsumed + 1
    removed := s.removed ++ [(queueRemove s.fifo).1] }

/-- The critical section of `producer`. -/
def producer (s : Shared) : Outcome Shared Point Cond :=
  if s.fifo.full = true ∧ s.totalProduced ≠ workMax then .wait .notFull
  else if workMax ≤ s.totalProduced then .leave s .exited []
  else .leave s.produce .working [.broadcast .notEmpty]

/-- The critical section of `consumer`. -/
def consumer (s : Shared) : Outcome Shared Point Cond :=
  if s.fifo.empty = true ∧ s.totalConsumed ≠ workMax then .wait .notEmpty
  else if workMax ≤ s.totalConsumed then .leave s .exited []
  else .leave s.consume .working [.broadcast .notFull]

/-- The threads that `main` creates. -/
def program (pros cons : ℕ) : Program (Thread pros cons) Shared Point Cond where
  run
    | _, .exited, _ => .ended
    | .producer _, .working, s => producer s
    | .consumer _, .working, s => consumer s
  environment _ _ := False

abbrev System (pros cons : ℕ) := State (Thread pros cons) Shared Point Cond

/-- All threads at their start, with the given values in the allocated memory. -/
def initial (pros cons : ℕ) (buf : ℕ → ℤ) (procount concount : ℤ) : System pros cons where
  shared := ⟨queueInit buf, procount, concount, [], []⟩
  place _ := .code .working

end OsLabs.Pthreads
