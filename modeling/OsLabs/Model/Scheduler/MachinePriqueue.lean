import OsLabs.Model.Scheduler.Priqueue

/-! # The priority queue in machine arithmetic

The operations of `libpriqueue.c` once more, now on the fields of `priqueue_t` as 32-bit signed
ints. Sums that a long run can drive out of the range of int are checked, and so is every index into
the block behind `data`; a run ends at the first one that fails. Loop counters and the steps of
`count` downwards stay between -1 and `count` and need no check.
-/

namespace OsLabs.Scheduler

def intMax : ℤ := 2147483647

/-- What a run may not do: a sum that is no int, or a slot outside the block. -/
inductive IntFault where
  | overflow
  | outOfBounds
deriving DecidableEq, Repr

/-- `a + b` in int. -/
def addInt (a b : ℤ) : Except IntFault ℤ :=
  if -intMax - 1 ≤ a + b ∧ a + b ≤ intMax then .ok (a + b) else .error .overflow

/-- An index into a block of `slots` slots. -/
def slot (slots index : ℤ) : Except IntFault ℤ :=
  if 0 ≤ index ∧ index < slots then .ok index else .error .outOfBounds

/-- The fields of `priqueue_t` as the machine has them. -/
structure PriqueueT (α : Type) where
  data : ℤ → α
  size : ℤ
  count : ℤ
  start : ℤ
  comparer : α → α → ℤ
  malloc : ℕ → ℤ → α

namespace PriqueueT

variable {α : Type}

def priqueueInit (malloc : ℕ → ℤ → α) (comparer : α → α → ℤ) : PriqueueT α where
  data := malloc initialSize
  size := initialSize
  count := 0
  start := 0
  comparer := comparer
  malloc := malloc

def priqueueGetTrueIndex (q : PriqueueT α) (index : ℤ) : Except IntFault ℤ := do
  let sum ← addInt index q.start
  return sum.tmod q.size

/-- `q->data[index]`. -/
def load (q : PriqueueT α) (index : ℤ) : Except IntFault α := do
  let index ← slot q.size index
  return q.data index

/-- `q->data[index] = ptr`. -/
def store (q : PriqueueT α) (index : ℤ) (ptr : α) : Except IntFault (PriqueueT α) := do
  let index ← slot q.size index
  return { q with data := Function.update q.data index ptr }

/-- `q->data[priqueue_get_true_index(q, index)]`. -/
def entry (q : PriqueueT α) (index : ℤ) : Except IntFault α := do
  let index ← q.priqueueGetTrueIndex index
  q.load index

/-- The copying loop of `priqueue_resize` into a block of `slots` slots; the first number is `count - i`. -/
def copyLoop (q : PriqueueT α) (slots : ℤ) (data : ℤ → α) : ℕ → ℕ → Except IntFault (ℤ → α)
  | 0, _ => .ok data
  | rest + 1, i => do
    let ptr ← q.entry i
    let index ← slot slots i
    copyLoop q slots (Function.update data index ptr) rest (i + 1)

def priqueueResize (q : PriqueueT α) : Except IntFault (PriqueueT α) := do
  let slots ← addInt (q.size * 2) 1
  let data ← q.copyLoop slots (q.malloc slots.toNat) q.count.toNat 0
  return { q with data := data, size := slots, start := 0 }

def priqueueSwap (q : PriqueueT α) (index1 index2 : ℤ) : Except IntFault (PriqueueT α) := do
  let save ← q.load index1
  let other ← q.load index2
  let q ← q.store index1 other
  q.store index2 save

/-- `priqueue_swap` of two places of the queue. -/
def swapPlaces (q : PriqueueT α) (place1 place2 : ℤ) : Except IntFault (PriqueueT α) := do
  let index1 ← q.priqueueGetTrueIndex place1
  let index2 ← q.priqueueGetTrueIndex place2
  q.priqueueSwap index1 index2

/-- The first line of `priqueue_offer`. -/
def makeRoom (q : PriqueueT α) : Except IntFault (PriqueueT α) :=
  if q.count = q.size then q.priqueueResize else .ok q

/-- The search of `priqueue_offer`; the first number is `count - index`. -/
def offerIndex (q : PriqueueT α) (ptr : α) : ℕ → ℕ → Except IntFault ℕ
  | 0, index => .ok index
  | rest + 1, index => do
    let other ← q.entry index
    if q.comparer ptr other ≥ 0 then offerIndex q ptr rest (index + 1) else return index

/-- The moves of `priqueue_offer`; the last number is `i - index`. -/
def swapDown (q : PriqueueT α) (index : ℕ) : ℕ → Except IntFault (PriqueueT α)
  | 0 => .ok q
  | steps + 1 => do
    let q ← q.swapPlaces (index + steps + 1 : ℕ) (index + steps : ℕ)
    swapDown q index steps

/-- The moves of `priqueue_remove_at`; the last number is that of the iterations left. -/
def swapUp (q : PriqueueT α) (i : ℕ) : ℕ → Except IntFault (PriqueueT α)
  | 0 => .ok q
  | steps + 1 => do
    let q ← q.swapPlaces i (i + 1 : ℕ)
    swapUp q (i + 1) steps

def priqueueOffer (q : PriqueueT α) (ptr : α) : Except IntFault (PriqueueT α × ℕ) := do
  let q ← q.makeRoom
  let index ← q.offerIndex ptr q.count.toNat 0
  let last ← q.priqueueGetTrueIndex q.count
  let q ← q.store last ptr
  let q ← q.swapDown index (q.count.toNat - index)
  let count ← addInt q.count 1
  return ({ q with count := count }, index)

def priqueueSize (q : PriqueueT α) : ℤ := q.count

def priqueuePeek (q : PriqueueT α) : Except IntFault (Option α) :=
  if q.priqueueSize = 0 then .ok none else some <$> q.entry 0

def priqueuePoll (q : PriqueueT α) : Except IntFault (PriqueueT α × Option α) :=
  if q.priqueueSize = 0 then .ok (q, none)
  else do
    let ret ← q.entry 0
    let start ← addInt q.start 1
    return ({ q with start := start, count := q.count - 1 }, some ret)

def priqueueAt (q : PriqueueT α) (index : ℤ) : Except IntFault (Option α) :=
  if index ≥ q.count then .ok none else some <$> q.entry index

def priqueueRemoveAt (q : PriqueueT α) (index : ℤ) : Except IntFault (PriqueueT α × Option α) :=
  if index < 0 ∨ index ≥ q.count then .ok (q, none)
  else do
    let q ← q.swapUp index.toNat (q.count.toNat - 1 - index.toNat)
    let q := { q with count := q.count - 1 }
    let ret ← q.entry q.count
    return (q, some ret)

/-- The loop of `priqueue_remove`; the second argument is `q->count - i`. -/
def removeLoop [DecidableEq α] (ptr : α) : ℕ → PriqueueT α → ℕ → ℕ → Except IntFault (PriqueueT α × ℕ)
  | 0, q, _, removed => .ok (q, removed)
  | rest + 1, q, i, removed => do
    let other ← q.entry i
    if ptr = other then
      let r ← q.priqueueRemoveAt i
      removeLoop ptr rest r.1 i (removed + 1)
    else removeLoop ptr rest q (i + 1) removed

def priqueueRemove [DecidableEq α] (q : PriqueueT α) (ptr : α) : Except IntFault (PriqueueT α × ℕ) :=
  removeLoop ptr q.count.toNat q 0 0

end PriqueueT

end OsLabs.Scheduler
