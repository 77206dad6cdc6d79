import Mathlib.Data.Int.Notation
import Mathlib.Data.Nat.Notation
import OsLabs.Model.Quash.Deque

/-! # The memory pool of the parser

`memory_pool.c` hands out memory from blocks that it obtains from `malloc`, each meant to be twice as large
as the one before, and keeps the blocks in a deque. Sizes and addresses are unbounded numbers, and NULL is
`none`. `malloc` is a parameter, and so is whether the deque finds memory for another element; both may
answer differently at every request. `held` records the blocks obtained; the code never reads it.
-/

namespace OsLabs.Quash

/-- A range of addresses. -/
structure Extent where
  addr : ℕ
  size : ℕ
deriving DecidableEq, Repr

def Extent.Apart (a b : Extent) : Prop := a.addr + a.size ≤ b.addr ∨ b.addr + b.size ≤ a.addr

def Extent.Within (a b : Extent) : Prop := b.addr ≤ a.addr ∧ a.addr + a.size ≤ b.addr + b.size

instance (a b : Extent) : Decidable (a.Apart b) := inferInstanceAs (Decidable (_ ∨ _))

instance (a b : Extent) : Decidable (a.Within b) := inferInstanceAs (Decidable (_ ∧ _))

/-- What the `n`th request for memory gets while the blocks `held` are not given back. `malloc` returns
no memory of a block that it has handed out. -/
structure Malloc where
  malloc : ℕ → List Extent → ℕ → Option ℕ
  grows : ℕ → Bool
  apart : ∀ n held size addr, malloc n held size = some addr → ∀ block ∈ held, Extent.Apart ⟨addr, size⟩ block

structure MemoryPool where
  pool : Option ℕ
  size : ℕ
  next : Option ℕ
deriving DecidableEq, Repr

/-- `pool_deq`, with the blocks obtained and the number of requests for memory. -/
structure Pools where
  poolDeq : List MemoryPool
  held : List Extent
  requests : ℕ

/-- How a call does not return: the process exits, an assertion fails, or a loop never ends. -/
inductive Ending where
  | exit
  | assertion
  | endless
deriving DecidableEq, Repr

/-- An assertion that a deque is not empty, and what is read from it. -/
def assertSome {α : Type} : Option α → Except Ending α
  | none => .error .assertion
  | some a => .ok a

def assert (condition : Prop) [Decidable condition] : Except Ending Unit :=
  if condition then .ok () else .error .assertion

/-- `__initialize_memory_pool`. -/
def initializePool (m : Malloc) (s : Pools) (size : ℕ) : Pools × MemoryPool :=
  if size = 0 then (s, ⟨none, size, none⟩)
  else
    let s' := { s with requests := s.requests + 1 }
    match m.malloc s.requests s.held size with
    | none => (s', ⟨none, 0, none⟩)
    | some mem => ({ s' with held := ⟨mem, size⟩ :: s.held }, ⟨some mem, size, some mem⟩)

/-- `__low_memory_initialize_memory_pool`, with the iterations that are left. -/
def lowMemory (m : Malloc) (requiredSize : ℕ) : ℕ → Pools → ℕ → Except Ending (Pools × MemoryPool)
  | 0, _, _ => .error .endless
  | fuel + 1, s, failedRequestedSize =>
    if failedRequestedSize ≤ requiredSize then .error .exit
    else
      let halved := failedRequestedSize >>> 1
      let failedRequestedSize := if halved < requiredSize then requiredSize else halved
      let (s, ret) := initializePool m s failedRequestedSize
      if ret.pool ≠ none then .ok (s, ret) else lowMemory m requiredSize fuel s failedRequestedSize

/-- A pool of the requested size, or as large as `malloc` still gives. Every iteration in search of less
makes the size smaller. -/
def initializeOrLess (m : Malloc) (requiredSize : ℕ) (s : Pools) (size : ℕ) : Except Ending (Pools × MemoryPool) :=
  let (s, pool) := initializePool m s size
  if pool.pool = none then lowMemory m requiredSize (size + 1) s size else .ok (s, pool)

/-- `push_back_MemoryPoolDeque`, which exits when the deque finds no memory. -/
def pushPool (m : Malloc) (s : Pools) (pool : MemoryPool) : Except Ending Pools :=
  if m.grows s.requests then .ok { s with poolDeq := pushBack s.poolDeq pool, requests := s.requests + 1 }
  else .error .exit

/-- `initialize_memory_pool`. -/
def initializeMemoryPool (m : Malloc) (size : ℕ) : Except Ending Pools := do
  let size := if size = 0 then 1 else size
  assertGrows
  let (s, pool) ← initializeOrLess m 1 ⟨newDeque, [], 1⟩ size
  pushPool m s pool
where
  /-- `new_destructable_MemoryPoolDeque`. -/
  assertGrows : Except Ending Unit := if m.grows 0 then .ok () else .error .exit

/-- The test of the loop: the pool has no room for `size` bytes. -/
def MemoryPool.tooSmall (pool : MemoryPool) (size : ℕ) : Prop :=
  ((pool.next.getD 0 : ℕ) : ℤ) - ((pool.pool.getD 0 : ℕ) : ℤ) + size > pool.size

instance (pool : MemoryPool) (size : ℕ) : Decidable (pool.tooSmall size) := inferInstanceAs (Decidable (_ > _))

/-- One iteration of the loop of `memory_pool_alloc`. -/
def growPools (m : Malloc) (size initSize : ℕ) (s : Pools) : Except Ending (Pools × MemoryPool) := do
  let newPoolSize := initSize * (2 <<< (s.poolDeq.length - 1))
  let (s, pool) ← if newPoolSize < size then .ok (initializePool m s 0) else initializeOrLess m size s newPoolSize
  return (← pushPool m s pool, pool)

/-- The loop of `memory_pool_alloc`, with the iterations that are left. -/
def growLoop (m : Malloc) (size initSize : ℕ) : ℕ → Pools → MemoryPool → Except Ending (Pools × MemoryPool)
  | 0, s, pool => if pool.tooSmall size then .error .endless else .ok (s, pool)
  | fuel + 1, s, pool =>
    if pool.tooSmall size then do
      let (s, pool) ← growPools m size initSize s
      growLoop m size initSize fuel s pool
    else .ok (s, pool)

/-- `memory_pool_alloc`. While the first pool is not empty, the sizes double, so more iterations than
`size + 1` mean a loop that never ends. -/
def memoryPoolAlloc (m : Malloc) (s : Pools) (size : ℕ) : Except Ending (Pools × Option ℕ) := do
  let pool ← assertSome (peekBack s.poolDeq)
  let initSize := (← assertSome (peekFront s.poolDeq)).size
  assert (pool.pool ≠ none)
  assert (pool.size ≠ 0)
  assert (pool.next ≠ none)
  let (s, pool) ← growLoop m size initSize (size + 1) s pool
  assert (pool.next = (← assertSome (peekBack s.poolDeq)).next)
  let poolDeq ← assertSome (updateBack s.poolDeq { pool with next := pool.next.map (· + size) })
  return ({ s with poolDeq }, pool.next)

/-- Requests one after the other, with the range of each as it is handed out. -/
def memoryPoolAllocs (m : Malloc) (s : Pools) : List ℕ → Except Ending (Pools × List (Option Extent))
  | [] => .ok (s, [])
  | size :: sizes => do
    let (s, p) ← memoryPoolAlloc m s size
    let (s, ranges) ← memoryPoolAllocs m s sizes
    return (s, p.map (⟨·, size⟩) :: ranges)

end OsLabs.Quash
