import OsLabs.Model.Pthreads.Table
import OsLabs.ToMathlib.Monitor

/-! # The waiter solution

`dp_waiter.c` for any number of philosophers: the flags of the chopsticks under the mutex `waiter`, and
a condition variable `can_eat` for each philosopher. `main` sets `Stop` at any time. Thinking, eating
and the progress counters touch nothing that the threads share.
-/

namespace OsLabs.Pthreads.Waiter

open Monitor

variable {n : ℕ}

structure Shared (n : ℕ) where
  availableChopsticks : Fin n → Bool
  stop : Bool

/-- Where a philosopher stands in `dp_thread`: at the test of `Stop`, before the first and before the
second `pthread_mutex_lock`, or at the end. -/
inductive Point where
  | loop
  | hungry
  | eating
  | finished
deriving DecidableEq, Repr

/-- Set the flags of both chopsticks of a philosopher. -/
def Shared.setChopsticks (id : Fin n) (available : Bool) (s : Shared n) : Shared n :=
  { s with availableChopsticks :=
      Function.update (Function.update s.availableChopsticks (leftChop id) available) (rightChop id) available }

/-- Take the chopsticks, or wait on `can_eat`. -/
def take (id : Fin n) (s : Shared n) : Outcome (Shared n) Point (Fin n) :=
  if s.availableChopsticks (leftChop id) && s.availableChopsticks (rightChop id) then
    .leave (s.setChopsticks id false) .eating []
  else .wait id

/-- Put the chopsticks back and signal both neighbours. -/
def release (id : Fin n) (s : Shared n) : Outcome (Shared n) Point (Fin n) :=
  .leave (s.setChopsticks id true) .loop [.signal (leftPhil id), .signal (rightPhil id)]

/-- `dp_thread` for each philosopher, and `main`. -/
def program (n : ℕ) : Program (Fin n) (Shared n) Point (Fin n) where
  run
    | _, .loop, s => .leave s (if s.stop then .finished else .hungry) []
    | id, .hungry, s => take id s
    | id, .eating, s => release id s
    | _, .finished, _ => .ended
  environment s s' := s' = { s with stop := true }

abbrev System (n : ℕ) := State (Fin n) (Shared n) Point (Fin n)

def setTable (n : ℕ) : System n where
  shared := ⟨fun _ => true, false⟩
  place _ := .code .loop

end OsLabs.Pthreads.Waiter
