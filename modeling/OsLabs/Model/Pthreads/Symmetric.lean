import OsLabs.Model.Pthreads.Asymmetric

/-! # The symmetric table

`dining_philosophers.c`, and `dine.c` as it is built with `DEADLOCK` set, for any number of philosophers:
everybody locks the left chopstick first. What the threads and `main` do otherwise is what they do in
`dp_asymmetric.c`, so the steps are stated for any order of the two locks. The deadlock check of `main`
reads progress counters or the times of the threads, so `Stop` may be set at any time.
-/

namespace OsLabs.Pthreads

open Asymmetric (System Point Main)

variable {n : ℕ}

/-- The steps of `dp_thread` and of `main`, with the chopsticks of the two locks. -/
inductive OrderedStep (firstChop secondChop : Fin n → Fin n) : System n → System n → Prop
  | test {t : System n} {id : Fin n} (here : t.point id = .loop) :
      OrderedStep firstChop secondChop t
        { t with point := Function.update t.point id (if t.stop then .finished else .first) }
  | lockFirst {t : System n} {id : Fin n} (here : t.point id = .first) (free : t.locked (firstChop id) = false) :
      OrderedStep firstChop secondChop t (t.act id (firstChop id) true .second)
  | lockSecond {t : System n} {id : Fin n} (here : t.point id = .second)
      (free : t.locked (secondChop id) = false) :
      OrderedStep firstChop secondChop t (t.act id (secondChop id) true .eating)
  | unlockRight {t : System n} {id : Fin n} (here : t.point id = .eating) :
      OrderedStep firstChop secondChop t (t.act id (rightChop id) false .putDown)
  | unlockLeft {t : System n} {id : Fin n} (here : t.point id = .putDown) :
      OrderedStep firstChop secondChop t (t.act id (leftChop id) false .loop)
  | setStop {t : System n} (here : t.main = .serving) :
      OrderedStep firstChop secondChop t { t with stop := true, main := .unlocking 0 }
  | mainUnlock {t : System n} {chop : Fin n} (here : t.main = .unlocking chop) :
      OrderedStep firstChop secondChop t
        { t with locked := Function.update t.locked chop false, main := .unlocking (chop + 1) }
  | mainJoin {t : System n} (here : t.main = .unlocking n) :
      OrderedStep firstChop secondChop t { t with main := .joining }

/-- The asymmetric program is this one with its own order. -/
theorem Asymmetric.step_iff {t t' : System n} :
    Asymmetric.Step t t' ↔ OrderedStep Asymmetric.firstChop Asymmetric.secondChop t t' := by
  constructor
  · intro step
    cases step with
    | test here => exact .test here
    | lockFirst here free => exact .lockFirst here free
    | lockSecond here free => exact .lockSecond here free
    | unlockRight here => exact .unlockRight here
    | unlockLeft here => exact .unlockLeft here
    | setStop here => exact .setStop here
    | mainUnlock here => exact .mainUnlock here
    | mainJoin here => exact .mainJoin here
  · intro step
    cases step with
    | test here => exact .test here
    | lockFirst here free => exact .lockFirst here free
    | lockSecond here free => exact .lockSecond here free
    | unlockRight here => exact .unlockRight here
    | unlockLeft here => exact .unlockLeft here
    | setStop here => exact .setStop here
    | mainUnlock here => exact .mainUnlock here
    | mainJoin here => exact .mainJoin here

/-- `main` in the end: every philosopher has finished, and so `main` gets through its joins. -/
def Finished (t : System n) : Prop := t.main = .joining ∧ ∀ id, t.point id = .finished

namespace Symmetric

def setTable (n : ℕ) : System n := Asymmetric.setTable n

abbrev Step : System n → System n → Prop := OrderedStep leftChop rightChop

def Reachable (n : ℕ) : System n → Prop := Relation.ReflTransGen Step (setTable n)

/-- The philosopher stands before a lock that is taken. -/
def Blocked (t : System n) (id : Fin n) : Prop :=
  (t.point id = .first ∧ t.locked (leftChop id) = true) ∨ (t.point id = .second ∧ t.locked (rightChop id) = true)

/-- `main` sets `Stop`. -/
def setStop (t : System n) : System n := { t with stop := true, main := .unlocking 0 }

end Symmetric

end OsLabs.Pthreads
