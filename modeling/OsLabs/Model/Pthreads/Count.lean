import Mathlib.Algebra.Group.Nat.Defs
import Mathlib.Data.Int.Notation
import Mathlib.Data.Nat.Notation
import Mathlib.Logic.Function.Basic
import Mathlib.Logic.Relation

/-! # The counting threads

`inc_count` of `ptcount_mutex.c` and of `ptcount_atomic.c` for any number of threads, all with the same
arguments as `main` passes them. Under the mutex the addition is a load into a register of the thread and
a store, so that an addition of another thread could come in between; `__atomic_add_fetch` is one step.
`main` prints `count` when all threads have finished. `count` and `loc` are `int`s, and a sum that is none
wraps around.
-/

namespace OsLabs.Pthreads.Count

variable {n : ℕ}

/-- `thread_args`, without the number that is only printed. -/
structure ThreadArgs where
  inc : ℤ
  loop : ℤ
deriving DecidableEq, Repr

/-- `a + b` in `int`. -/
def addInt (a b : ℤ) : ℤ := (a + b).bmod (2 ^ 32)

/-! ## `ptcount_atomic.c` -/

namespace Atomic

/-- Where a thread stands: at the test of the loop, before the addition to `count`, before the one to
`loc`, or behind the loop. -/
inductive Point where
  | test
  | add
  | addLoc
  | finished
deriving DecidableEq, Repr

structure Thread where
  point : Point
  i : ℤ
  loc : ℤ
deriving DecidableEq, Repr

structure System (n : ℕ) where
  count : ℤ
  thread : Fin n → Thread

def main (n : ℕ) : System n where
  count := 0
  thread _ := ⟨.test, 0, 0⟩

def System.move (t : System n) (id : Fin n) (thread : Thread) : System n :=
  { t with thread := Function.update t.thread id thread }

/-- One step of `inc_count` of a thread. -/
inductive Step (args : ThreadArgs) : System n → System n → Prop
  | test {t : System n} {id : Fin n} {thread : Thread} (is : t.thread id = thread) (here : thread.point = .test) :
      Step args t (t.move id { thread with point := if thread.i < args.loop then .add else .finished })
  | add {t : System n} {id : Fin n} {thread : Thread} (is : t.thread id = thread) (here : thread.point = .add) :
      Step args t { t.move id { thread with point := .addLoc } with count := addInt t.count args.inc }
  | addLoc {t : System n} {id : Fin n} {thread : Thread} (is : t.thread id = thread)
      (here : thread.point = .addLoc) :
      Step args t (t.move id { thread with point := .test, loc := addInt thread.loc args.inc, i := thread.i + 1 })

def Reachable (args : ThreadArgs) (n : ℕ) : System n → Prop := Relation.ReflTransGen (Step args) (main n)

end Atomic

/-! ## `ptcount_mutex.c` -/

namespace Mutex

/-- Where a thread stands: at the test of the loop, before the lock, before the load and before the store
of `count`, before the unlock, before the addition to `loc`, or behind the loop. -/
inductive Point where
  | test
  | lock
  | load
  | store
  | unlock
  | addLoc
  | finished
deriving DecidableEq, Repr

/-- A thread with the register that it loads `count` into. -/
structure Thread where
  point : Point
  i : ℤ
  loc : ℤ
  register : ℤ
deriving DecidableEq, Repr

structure System (n : ℕ) where
  count : ℤ
  countMutex : Bool
  thread : Fin n → Thread

def main (n : ℕ) : System n where
  count := 0
  countMutex := false
  thread _ := ⟨.test, 0, 0, 0⟩

def System.move (t : System n) (id : Fin n) (thread : Thread) : System n :=
  { t with thread := Function.update t.thread id thread }

/-- One step of `inc_count` of a thread. -/
inductive Step (args : ThreadArgs) : System n → System n → Prop
  | test {t : System n} {id : Fin n} {thread : Thread} (is : t.thread id = thread) (here : thread.point = .test) :
      Step args t (t.move id { thread with point := if thread.i < args.loop then .lock else .finished })
  | lock {t : System n} {id : Fin n} {thread : Thread} (is : t.thread id = thread) (here : thread.point = .lock)
      (free : t.countMutex = false) :
      Step args t { t.move id { thread with point := .load } with countMutex := true }
  | load {t : System n} {id : Fin n} {thread : Thread} (is : t.thread id = thread) (here : thread.point = .load) :
      Step args t (t.move id { thread with point := .store, register := t.count })
  | store {t : System n} {id : Fin n} {thread : Thread} (is : t.thread id = thread)
      (here : thread.point = .store) :
      Step args t { t.move id { thread with point := .unlock } with count := addInt thread.register args.inc }
  | unlock {t : System n} {id : Fin n} {thread : Thread} (is : t.thread id = thread)
      (here : thread.point = .unlock) :
      Step args t { t.move id { thread with point := .addLoc } with countMutex := false }
  | addLoc {t : System n} {id : Fin n} {thread : Thread} (is : t.thread id = thread)
      (here : thread.point = .addLoc) :
      Step args t (t.move id { thread with point := .test, loc := addInt thread.loc args.inc, i := thread.i + 1 })

def Reachable (args : ThreadArgs) (n : ℕ) : System n → Prop := Relation.ReflTransGen (Step args) (main n)

end Mutex

end OsLabs.Pthreads.Count
