import Mathlib.Algebra.Group.Nat.Defs
import Mathlib.Data.Nat.Notation
import Mathlib.Logic.Function.Basic

/-! # The generated deques

The functions that `IMPLEMENT_DEQUE` and `IMPLEMENT_DEQUE_MEMORY_POOL` generate for an element type `α`.
Both macros have the same text but for the allocator and for `free`, which only the first one calls; `Allocator`
holds the difference. `size_t` arithmetic is arithmetic modulo `2 ^ 64`, also where a number of elements
becomes a number of bytes. A block holds the whole elements that its bytes have room for; an access to
another element, or to a block that was given back, ends the run as undefined. A function to be applied is
a value of `φ`, and its calls are listed in order.
-/

namespace OsLabs.Quash.RingDeque

variable {α φ : Type}

/-! ## `size_t` -/

def sizeMod : ℕ := 2 ^ 64

def add (a b : ℕ) : ℕ := (a + b) % sizeMod

def sub (a b : ℕ) : ℕ := (a + sizeMod - b) % sizeMod

def mul (a b : ℕ) : ℕ := a * b % sizeMod

/-! ## State -/

/-- The `sizeof` of an element, what the `n`th allocation finds in its block when it asks for so many bytes,
and whether blocks are given back. -/
structure Allocator (α : Type) where
  elementSize : ℕ
  alloc : ℕ → ℕ → Option (ℕ → α)
  frees : Bool

/-- A block, with the number of its elements. -/
structure Block (α : Type) where
  size : ℕ
  element : ℕ → α

def Block.set (block : Block α) (i : ℕ) (element : α) : Block α :=
  { block with element := Function.update block.element i element }

/-- The generated `struct`, and the blocks by the number of their allocation. -/
structure Deque (α φ : Type) where
  heap : ℕ → Option (Block α)
  allocated : ℕ
  data : Option ℕ
  cap : ℕ
  front : ℕ
  back : ℕ
  destructor : Option φ

/-- How a call ends the process: by an assertion or an explicit check, for want of memory, or by an access
that C leaves undefined. -/
inductive Failure where
  | assertion
  | outOfMemory
  | undefined
deriving DecidableEq, Repr

abbrev Run := Except Failure

/-- `assert(deq->data != NULL)`. -/
def Deque.valid (deq : Deque α φ) : Run ℕ :=
  match deq.data with
  | none => .error .assertion
  | some data => .ok data

def Deque.load (deq : Deque α φ) (p i : ℕ) : Run α :=
  match deq.heap p with
  | none => .error .undefined
  | some block => if i < block.size then .ok (block.element i) else .error .undefined

def Deque.setBlock (deq : Deque α φ) (p : ℕ) (block : Option (Block α)) : Deque α φ :=
  { deq with heap := Function.update deq.heap p block }

def Deque.store (deq : Deque α φ) (p i : ℕ) (element : α) : Run (Deque α φ) :=
  match deq.heap p with
  | none => .error .undefined
  | some block =>
    if i < block.size then .ok (deq.setBlock p (some (block.set i element))) else .error .undefined

/-- A new block for `cap` elements as the data. -/
def Deque.allocate (lib : Allocator α) (cap : ℕ) (deq : Deque α φ) : Run (ℕ × Deque α φ) :=
  let bytes := mul cap lib.elementSize
  match lib.alloc deq.allocated bytes with
  | none => .error .outOfMemory
  | some element => .ok (deq.allocated, { deq.setBlock deq.allocated (some ⟨bytes / lib.elementSize, element⟩) with
      data := some deq.allocated
      allocated := deq.allocated + 1 })

def Deque.free (lib : Allocator α) (p : ℕ) (deq : Deque α φ) : Run (Deque α φ) :=
  if lib.frees then
    match deq.heap p with
    | none => .error .undefined
    | some _ => .ok (deq.setBlock p none)
  else .ok deq

/-! ## Construction -/

def isEmpty (deq : Deque α φ) : Run Bool := do
  let _ ← deq.valid
  return decide (deq.front = deq.back)

def length (deq : Deque α φ) : Run ℕ := do
  let _ ← deq.valid
  return add (sub deq.back deq.front) deq.cap % deq.cap

/-- The elements at the indices that `index` has for `i` and the numbers behind it, with the iterations that are
left. -/
def loadLoop (deq : Deque α φ) (p : ℕ) (index : ℕ → ℕ) : ℕ → ℕ → Run (List α)
  | 0, _ => .ok []
  | rest + 1, i => do
    let element ← deq.load p (index i)
    let elements ← loadLoop deq p index rest (i + 1)
    return element :: elements

def apply (deq : Deque α φ) (func : φ) : Run (List (φ × α)) := do
  let data ← deq.valid
  let len ← length deq
  let elements ← loadLoop deq data (fun i => add deq.front i % deq.cap) len 0
  return elements.map fun element => (func, element)

/-- `apply` of the destructor, if there is one. -/
def applyDestructor (deq : Deque α φ) : Run (List (φ × α)) :=
  match deq.destructor with
  | none => .ok []
  | some destructor => apply deq destructor

/-- `assert(!is_empty(deq))`. -/
def notEmpty (deq : Deque α φ) : Run Unit := do
  if (← isEmpty deq) then .error .assertion else .ok ()

def peekFront (deq : Deque α φ) : Run α := do
  let data ← deq.valid
  notEmpty deq
  deq.load data deq.front

/-- The index of the last element. -/
def Deque.last (deq : Deque α φ) : ℕ := sub (add deq.back deq.cap) 1 % deq.cap

def peekBack (deq : Deque α φ) : Run α := do
  let data ← deq.valid
  notEmpty deq
  deq.load data deq.last

/-! ## Writing -/

/-- The loops that copy the elements into a new block, with the iterations that are left. -/
def copyLoop (old data front cap : ℕ) : ℕ → ℕ → Deque α φ → Run (Deque α φ)
  | 0, _, deq => .ok deq
  | rest + 1, i, deq => do
    let element ← deq.load old (add front i % cap)
    let deq ← deq.store data i element
    copyLoop old data front cap rest (i + 1) deq

/-- A block for `cap` elements in place of the old one, with `count` elements from `front` on at its start. -/
def Deque.move (lib : Allocator α) (oldCap count : ℕ) (deq : Deque α φ) : Run (Deque α φ) := do
  let old ← deq.valid
  let (data, deq) ← deq.allocate lib deq.cap
  let deq ← copyLoop old data deq.front oldCap count 0 deq
  let deq ← deq.free lib old
  return { deq with front := 0, back := count }

/-- `__on_push`. -/
def onPush (lib : Allocator α) (deq : Deque α φ) : Run (Deque α φ) :=
  if deq.front = add deq.back 1 % deq.cap then
    Deque.move lib deq.cap (sub deq.cap 1) { deq with cap := mul 2 deq.cap }
  else .ok deq

def pushFront (lib : Allocator α) (deq : Deque α φ) (element : α) : Run (Deque α φ) := do
  let _ ← deq.valid
  let deq ← onPush lib deq
  let data ← deq.valid
  let front := sub (add deq.front deq.cap) 1 % deq.cap
  let deq ← deq.store data front element
  return { deq with front }

def pushBack (lib : Allocator α) (deq : Deque α φ) (element : α) : Run (Deque α φ) := do
  let _ ← deq.valid
  let deq ← onPush lib deq
  let data ← deq.valid
  let deq ← deq.store data deq.back element
  return { deq with back := add deq.back 1 % deq.cap }

def popFront (deq : Deque α φ) : Run (α × Deque α φ) := do
  let data ← deq.valid
  notEmpty deq
  return (← deq.load data deq.front, { deq with front := add deq.front 1 % deq.cap })

def popBack (deq : Deque α φ) : Run (α × Deque α φ) := do
  let data ← deq.valid
  notEmpty deq
  return (← deq.load data deq.last, { deq with back := deq.last })

/-- The assignment to an element of a deque that is not empty. -/
def update (deq : Deque α φ) (index : ℕ) (element : α) : Run (Deque α φ) := do
  let data ← deq.valid
  notEmpty deq
  deq.store data index element

def updateFront (deq : Deque α φ) (element : α) : Run (Deque α φ) := update deq deq.front element

def updateBack (deq : Deque α φ) (element : α) : Run (Deque α φ) := update deq deq.last element

/-- The call of the destructor on an element, if there is one. -/
def destroyElement (deq : Deque α φ) (index : ℕ) : Run (List (φ × α)) := do
  let data ← deq.valid
  notEmpty deq
  match deq.destructor with
  | none => return []
  | some destructor => return [(destructor, ← deq.load data index)]

def updateAndDestroyFront (deq : Deque α φ) (element : α) : Run (List (φ × α) × Deque α φ) := do
  return (← destroyElement deq deq.front, ← update deq deq.front element)

def updateAndDestroyBack (deq : Deque α φ) (element : α) : Run (List (φ × α) × Deque α φ) := do
  return (← destroyElement deq deq.last, ← update deq deq.last element)

def empty (deq : Deque α φ) : Run (List (φ × α) × Deque α φ) := do
  let _ ← deq.valid
  let destroyed ← applyDestructor deq
  return (destroyed, { deq with front := 0, back := 0 })

/-! ## Ends -/

def destroy (lib : Allocator α) (deq : Deque α φ) : Run (List (φ × α) × Deque α φ) :=
  match deq.data with
  | none => .ok ([], deq)
  | some data => do
    let destroyed ← applyDestructor deq
    let deq ← deq.free lib data
    return (destroyed, { deq with data := none, cap := 0, front := 0, back := 0 })

/-- `__reallign`. -/
def reallign (lib : Allocator α) (deq : Deque α φ) : Run (Deque α φ) := do
  let _ ← deq.valid
  if deq.front ≠ 0 then
    let len ← length deq
    deq.move lib deq.cap len
  else return deq

/-- `as_array`: the elements of the block that it returns, up to the length that it returns. -/
def asArray (lib : Allocator α) (deq : Deque α φ) : Run (List α × Deque α φ) := do
  let deq ← reallign lib deq
  let data ← deq.valid
  let len ← length deq
  return (← loadLoop deq data id len 0, { deq with data := none, cap := 0, front := 0, back := 0 })

end OsLabs.Quash.RingDeque
