import Mathlib.Logic.Function.Basic
import Mathlib.Logic.Relation
import OsLabs.Model.Pthreads.Table

/-! # The asymmetric solution

`dp_asymmetric.c` for any number of philosophers: a mutex for each chopstick, which an `unlock` by any
thread releases. A step is one `pthread_mutex_lock` or `pthread_mutex_unlock`, or the test of `Stop`.
`main` sets `Stop`, unlocks every chopstick in turn and joins the philosophers; the deadlock check
before it only reads the progress counters, so `Stop` may be set at any time.
-/

namespace OsLabs.Pthreads.Asymmetric

variable {n : ℕ}

/-- Where a philosopher stands in `dp_thread`: at the test of `Stop`, before the first and before the
second lock, between the second lock and the first unlock, before the second unlock, or at the end. -/
inductive Point where
  | loop
  | first
  | second
  | eating
  | putDown
  | finished
deriving DecidableEq, Repr

/-- Where `main` stands: before it sets `Stop`, before it unlocks a chopstick, or at the joins. -/
inductive Main where
  | serving
  | unlocking (chop : ℕ)
  | joining
deriving DecidableEq, Repr

structure System (n : ℕ) where
  locked : Fin n → Bool
  point : Fin n → Point
  stop : Bool
  main : Main

def setTable (n : ℕ) : System n where
  locked _ := false
  point _ := .loop
  stop := false
  main := .serving

/-- The chopstick of the first lock: philosophers with an even id start on the left. -/
def firstChop (id : Fin n) : Fin n := if id.val % 2 = 0 then leftChop id else rightChop id

def secondChop (id : Fin n) : Fin n := if id.val % 2 = 1 then leftChop id else rightChop id

/-- Set a mutex and move on. -/
def System.act (t : System n) (id : Fin n) (chop : Fin n) (locked : Bool) (point : Point) : System n :=
  { t with locked := Function.update t.locked chop locked, point := Function.update t.point id point }

inductive Step : System n → System n → Prop
  | test {t : System n} {id : Fin n} (here : t.point id = .loop) :
      Step t { t with point := Function.update t.point id (if t.stop then .finished else .first) }
  | lockFirst {t : System n} {id : Fin n} (here : t.point id = .first) (free : t.locked (firstChop id) = false) :
      Step t (t.act id (firstChop id) true .second)
  | lockSecond {t : System n} {id : Fin n} (here : t.point id = .second)
      (free : t.locked (secondChop id) = false) : Step t (t.act id (secondChop id) true .eating)
  | unlockRight {t : System n} {id : Fin n} (here : t.point id = .eating) :
      Step t (t.act id (rightChop id) false .putDown)
  | unlockLeft {t : System n} {id : Fin n} (here : t.point id = .putDown) :
      Step t (t.act id (leftChop id) false .loop)
  | setStop {t : System n} (here : t.main = .serving) : Step t { t with stop := true, main := .unlocking 0 }
  | mainUnlock {t : System n} {chop : Fin n} (here : t.main = .unlocking chop) :
      Step t { t with locked := Function.update t.locked chop false, main := .unlocking (chop + 1) }
  | mainJoin {t : System n} (here : t.main = .unlocking n) : Step t { t with main := .joining }

def Reachable (n : ℕ) : System n → Prop := Relation.ReflTransGen Step (setTable n)

/-- The philosopher stands before a lock that is taken. -/
def Blocked (t : System n) (id : Fin n) : Prop :=
  (t.point id = .first ∧ t.locked (firstChop id) = true) ∨
    (t.point id = .second ∧ t.locked (secondChop id) = true)

end OsLabs.Pthreads.Asymmetric
