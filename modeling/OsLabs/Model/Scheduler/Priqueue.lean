import Mathlib.Data.Int.Notation
import OsLabs.ToMathlib.ListWindow

/-! # The priority queue

`libpriqueue.c` keeps its entries in a ring of `size` slots from `start` on. A pointer that the
queue stores is a value of `α`, and NULL is `none`. `data` is total: outside `0 .. size - 1` it is
the memory around the block. `malloc n` is what a new block of `n` slots holds; every resize asks
for another number of slots, so one function covers whatever the calls of a run find.
-/

namespace OsLabs.Scheduler

open ListWindow

def initialSize : ℕ := 10

/-- `priqueue_t`. -/
structure Priqueue (α : Type*) where
  data : ℤ → α
  size : ℕ
  count : ℕ
  start : ℕ
  comparer : α → α → ℤ
  malloc : ℕ → ℤ → α
  positive : 0 < size
  fits : count ≤ size

namespace Priqueue

variable {α : Type*}

def priqueueInit (malloc : ℕ → ℤ → α) (comparer : α → α → ℤ) : Priqueue α where
  data := malloc initialSize
  size := initialSize
  count := 0
  start := 0
  comparer := comparer
  malloc := malloc
  positive := by decide
  fits := Nat.zero_le _

def priqueueGetTrueIndex (q : Priqueue α) (index : ℤ) : ℤ := (index + q.start).tmod q.size

def priqueueResize (q : Priqueue α) : Priqueue α where
  data := fun i => if 0 ≤ i ∧ i < q.count then q.data (q.priqueueGetTrueIndex i)
    else q.malloc (q.size * 2 + 1) i
  size := q.size * 2 + 1
  count := q.count
  start := 0
  comparer := q.comparer
  malloc := q.malloc
  positive := Nat.succ_pos _
  fits := by have := q.fits; omega

def setData (q : Priqueue α) (index : ℤ) (ptr : α) : Priqueue α :=
  { q with data := Function.update q.data index ptr }

def priqueueSwap (q : Priqueue α) (index1 index2 : ℤ) : Priqueue α :=
  (q.setData index1 (q.data index2)).setData index2 (q.data index1)

/-- The first line of `priqueue_offer`. -/
def makeRoom (q : Priqueue α) : Priqueue α := if q.count = q.size then q.priqueueResize else q

/-- The search of `priqueue_offer` for the place of `ptr`; the first argument is `count - index`. -/
def offerIndex (q : Priqueue α) (ptr : α) : ℕ → ℕ → ℕ
  | 0, index => index
  | rest + 1, index =>
    if q.comparer ptr (q.data (q.priqueueGetTrueIndex index)) ≥ 0 then offerIndex q ptr rest (index + 1)
    else index

/-- `for(int i = q->count; i>index; i--)` of `priqueue_offer`; the last argument is `i - index`. -/
def swapDown (q : Priqueue α) (index : ℕ) : ℕ → Priqueue α
  | 0 => q
  | steps + 1 =>
    swapDown (q.priqueueSwap (q.priqueueGetTrueIndex (index + steps + 1 : ℕ))
      (q.priqueueGetTrueIndex (index + steps : ℕ))) index steps

/-- `for(int i = index; i < q->count-1; i++)` of `priqueue_remove_at`; the last argument is the number
of iterations left. -/
def swapUp (q : Priqueue α) (i : ℕ) : ℕ → Priqueue α
  | 0 => q
  | steps + 1 =>
    swapUp (q.priqueueSwap (q.priqueueGetTrueIndex i) (q.priqueueGetTrueIndex (i + 1 : ℕ))) (i + 1) steps

theorem makeRoom_lt (q : Priqueue α) : q.makeRoom.count < q.makeRoom.size := by
  have fits := q.fits
  rw [makeRoom]
  split
  · change q.count < q.size * 2 + 1
    omega
  · omega

/-- The fields that no write to `data` changes. -/
structure SameShape (q q' : Priqueue α) : Prop where
  size : q'.size = q.size
  count : q'.count = q.count
  start : q'.start = q.start
  comparer : q'.comparer = q.comparer
  malloc : q'.malloc = q.malloc

theorem swapDown_shape (q : Priqueue α) (index steps : ℕ) : SameShape q (q.swapDown index steps) := by
  induction steps generalizing q with
  | zero => exact ⟨rfl, rfl, rfl, rfl, rfl⟩
  | succ steps ih =>
    obtain ⟨size, count, start, comparer, malloc⟩ := ih (q.priqueueSwap _ _)
    exact ⟨size, count, start, comparer, malloc⟩

theorem swapUp_shape (q : Priqueue α) (i steps : ℕ) : SameShape q (q.swapUp i steps) := by
  induction steps generalizing q i with
  | zero => exact ⟨rfl, rfl, rfl, rfl, rfl⟩
  | succ steps ih =>
    obtain ⟨size, count, start, comparer, malloc⟩ := ih (q.priqueueSwap _ _) (i + 1)
    exact ⟨size, count, start, comparer, malloc⟩

/-- `priqueue_offer`, with the index it returns. -/
def priqueueOffer (q : Priqueue α) (ptr : α) : Priqueue α × ℕ :=
  let r := q.makeRoom
  let index := r.offerIndex ptr r.count 0
  let s := r.setData (r.priqueueGetTrueIndex r.count) ptr
  let t := s.swapDown index (s.count - index)
  have room : t.count + 1 ≤ t.size := by
    have shape := swapDown_shape s index (s.count - index)
    rw [shape.count, shape.size]
    exact q.makeRoom_lt
  ({ t with count := t.count + 1, fits := room }, index)

def priqueueSize (q : Priqueue α) : ℕ := q.count

def priqueueIsEmpty (q : Priqueue α) : Bool := q.count = 0

def priqueuePeek (q : Priqueue α) : Option α :=
  if q.priqueueSize = 0 then none else some (q.data (q.priqueueGetTrueIndex 0))

def priqueuePoll (q : Priqueue α) : Priqueue α × Option α :=
  if q.priqueueSize = 0 then (q, none)
  else ({ q with start := q.start + 1, count := q.count - 1, fits := Nat.le_trans (Nat.sub_le ..) q.fits },
    some (q.data (q.priqueueGetTrueIndex 0)))

def priqueueAt (q : Priqueue α) (index : ℤ) : Option α :=
  if index ≥ q.count then none else some (q.data (q.priqueueGetTrueIndex index))

def priqueueRemoveAt (q : Priqueue α) (index : ℤ) : Priqueue α × Option α :=
  if index < 0 ∨ index ≥ q.count then (q, none)
  else
    let r := q.swapUp index.toNat (q.count - 1 - index.toNat)
    let s := { r with count := r.count - 1, fits := Nat.le_trans (Nat.sub_le ..) r.fits }
    (s, some (s.data (s.priqueueGetTrueIndex s.count)))

/-- The loop of `priqueue_remove`; the second argument is `q->count - i`, which every iteration
decreases by one. -/
def removeLoop [DecidableEq α] (ptr : α) : ℕ → Priqueue α → ℕ → ℕ → Priqueue α × ℕ
  | 0, q, _, removed => (q, removed)
  | rest + 1, q, i, removed =>
    if ptr = q.data (q.priqueueGetTrueIndex i) then
      removeLoop ptr rest (q.priqueueRemoveAt i).1 i (removed + 1)
    else removeLoop ptr rest q (i + 1) removed

def priqueueRemove [DecidableEq α] (q : Priqueue α) (ptr : α) : Priqueue α × ℕ :=
  removeLoop ptr q.count q 0 0

/-- The entry at a place of the queue. -/
def entry (q : Priqueue α) (i : ℕ) : α := q.data (q.priqueueGetTrueIndex i)

/-- The entries of the queue from its head. -/
def toList (q : Priqueue α) : List α := window q.entry q.count

end Priqueue

end OsLabs.Scheduler
