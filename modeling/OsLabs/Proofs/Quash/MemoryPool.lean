import OsLabs.Model.Quash.MemoryPool
import Mathlib.Tactic.Common

/-! # What one request keeps of the memory pool

The pool at the back is the only one that memory is taken from. Its block is one that `malloc` gave, and
no range handed out overlaps the part of it beyond `next`. The loop of an allocation may put empty pools
at the back in between; the deque gets longer with each, so that the next size soon suffices.
-/

namespace OsLabs.Quash

/-- The call returns with `post`, or the process exits. -/
def ExitsOr {α : Type} (post : α → Prop) : Except Ending α → Prop
  | .error ending => ending = .exit
  | .ok a => post a

section Calls

variable {α β : Type} {post : α → Prop} {post' : β → Prop} {x : Except Ending α}

theorem ExitsOr.bind {f : α → Except Ending β} (first : ExitsOr post x)
    (rest : ∀ a, post a → ExitsOr post' (f a)) : ExitsOr post' (x >>= f) := by
  cases x with
  | error ending => exact first
  | ok a => exact rest a first

theorem ExitsOr.imp {post' : α → Prop} (first : ExitsOr post x) (weaker : ∀ a, post a → post' a) :
    ExitsOr post' x := by
  cases x with
  | error ending => exact first
  | ok a => exact weaker a first

theorem exitsOr_assert {condition : Prop} [Decidable condition] (holds : condition) :
    ExitsOr (fun _ => True) (assert condition) := by
  rw [assert, if_pos holds]
  trivial

theorem assertSome_eq {a : α} {value : Option α} (some_a : value = some a) : assertSome value = .ok a := by
  rw [some_a, assertSome]

end Calls

theorem Extent.Apart.symm {a b : Extent} (apart : a.Apart b) : b.Apart a := Or.symm apart

theorem Extent.Apart.mono {a b part : Extent} (apart : a.Apart b) (within : part.Within a) : part.Apart b := by
  simp only [Extent.Apart, Extent.Within] at *
  omega

variable {m : Malloc} {s s' : Pools} {pool : MemoryPool} {ranges : List Extent} {size initSize fuel : ℕ}

/-- `pool` is new, and its block is apart from all that were held before. -/
structure Pools.Obtains (s s' : Pools) (pool : MemoryPool) : Prop where
  deq : s'.poolDeq = s.poolDeq
  held : s.held ⊆ s'.held
  nonempty : pool.size ≠ 0
  block : ∃ addr, pool = ⟨some addr, pool.size, some addr⟩ ∧ ⟨addr, pool.size⟩ ∈ s'.held ∧
    ∀ block ∈ s.held, Extent.Apart ⟨addr, pool.size⟩ block

theorem initializePool_spec (m : Malloc) (s : Pools) (size : ℕ) :
    (initializePool m s size).2 = ⟨none, 0, none⟩ ∧ (initializePool m s size).1.poolDeq = s.poolDeq ∧
        (initializePool m s size).1.held = s.held ∨
      (initializePool m s size).2.pool ≠ none ∧ (initializePool m s size).2.size = size ∧
        s.Obtains (initializePool m s size).1 (initializePool m s size).2 := by
  rw [initializePool]
  split
  case isTrue zero => exact .inl ⟨by rw [zero], rfl, rfl⟩
  case isFalse nonzero =>
    cases found : m.malloc s.requests s.held size with
    | none => exact .inl ⟨rfl, rfl, rfl⟩
    | some addr =>
      have apart := m.apart _ _ _ _ found
      exact .inr ⟨by simp, rfl, rfl, List.subset_cons_self _ _, nonzero, addr, rfl, List.mem_cons_self, apart⟩

theorem lowMemory_spec (m : Malloc) (requiredSize : ℕ) {fuel failed : ℕ} (enough : failed < fuel) (s : Pools) :
    ExitsOr (fun r => s.Obtains r.1 r.2 ∧ requiredSize ≤ r.2.size) (lowMemory m requiredSize fuel s failed) := by
  induction fuel generalizing s failed with
  | zero => omega
  | succ fuel ih =>
    simp only [lowMemory]
    split
    case isTrue => rfl
    case isFalse larger =>
      set next := if failed >>> 1 < requiredSize then requiredSize else failed >>> 1 with next_def
      have required : requiredSize ≤ next := by split at next_def <;> omega
      have less : next < failed := by
        rw [Nat.shiftRight_eq_div_pow, Nat.pow_one] at next_def
        split at next_def <;> omega
      cases initializePool_spec m s next with
      | inl none =>
        obtain ⟨pool, deq, held⟩ := none
        rw [if_neg (by rw [pool]; simp)]
        apply (ih (by omega) _).imp
        rintro r ⟨obtains, size⟩
        exact ⟨⟨obtains.deq.trans deq, held ▸ obtains.held, obtains.nonempty, held ▸ obtains.block⟩, size⟩
      | inr some =>
        obtain ⟨pool, size, obtains⟩ := some
        rw [if_pos pool]
        exact ⟨obtains, Nat.le_trans required (Nat.le_of_eq size.symm)⟩

theorem initializeOrLess_spec (m : Malloc) {requiredSize size : ℕ} (required : requiredSize ≤ size) (s : Pools) :
    ExitsOr (fun r => s.Obtains r.1 r.2 ∧ requiredSize ≤ r.2.size) (initializeOrLess m requiredSize s size) := by
  rw [initializeOrLess]
  cases initializePool_spec m s size with
  | inl none =>
    obtain ⟨pool, deq, held⟩ := none
    simp only [pool, if_true]
    apply (lowMemory_spec m requiredSize (Nat.lt_succ_self size) _).imp
    rintro r ⟨obtains, least⟩
    exact ⟨⟨obtains.deq.trans deq, held ▸ obtains.held, obtains.nonempty, held ▸ obtains.block⟩, least⟩
  | inr some =>
    obtain ⟨pool, size_eq, obtains⟩ := some
    simp only [if_neg pool]
    exact ⟨obtains, Nat.le_trans required (Nat.le_of_eq size_eq.symm)⟩

theorem pushPool_spec (m : Malloc) (s : Pools) (pool : MemoryPool) :
    ExitsOr (fun s' => s'.poolDeq = pushBack s.poolDeq pool ∧ s'.held = s.held) (pushPool m s pool) := by
  rw [pushPool]
  split
  case isTrue => exact ⟨rfl, rfl⟩
  case isFalse => rfl

/-- The ranges handed out, over the blocks held. -/
structure Pools.Keeps (s : Pools) (initSize : ℕ) (ranges : List Extent) : Prop where
  nonempty : initSize ≠ 0
  front : ∃ first, peekFront s.poolDeq = some first ∧ first.size = initSize
  within : ∀ range ∈ ranges, ∃ block ∈ s.held, range.Within block
  apart : ranges.Pairwise Extent.Apart

/-- The pool has a block, and the part of it beyond `next` overlaps no range handed out. -/
structure MemoryPool.Open (pool : MemoryPool) (s : Pools) (ranges : List Extent) : Prop where
  nonempty : pool.size ≠ 0
  free : ∃ addr next, pool.pool = some addr ∧ pool.next = some next ∧ addr ≤ next ∧ next ≤ addr + pool.size ∧
    ⟨addr, pool.size⟩ ∈ s.held ∧ ∀ range ∈ ranges, range.Apart ⟨next, addr + pool.size - next⟩

/-- Before a request. -/
structure Pools.Ready (s : Pools) (initSize : ℕ) (ranges : List Extent) : Prop extends s.Keeps initSize ranges where
  back : ∃ pool, peekBack s.poolDeq = some pool ∧ pool.Open s ranges

theorem Pools.Obtains.isOpen (obtains : s.Obtains s' pool)
    (within : ∀ range ∈ ranges, ∃ block ∈ s.held, range.Within block) : pool.Open s' ranges := by
  obtain ⟨addr, fresh, held, apart⟩ := obtains.block
  have start : pool.pool = some addr ∧ pool.next = some addr := by
    rw [fresh]
    exact ⟨rfl, rfl⟩
  refine ⟨obtains.nonempty, addr, addr, start.1, start.2, Nat.le_refl addr, Nat.le_add_right addr _, held, ?_⟩
  intro range mem
  obtain ⟨block, mem_held, inside⟩ := within range mem
  rw [Nat.add_sub_cancel_left]
  exact (apart block mem_held).symm.mono inside

theorem MemoryPool.Open.of_held (isOpen : pool.Open s ranges) (held : s'.held = s.held) : pool.Open s' ranges := by
  obtain ⟨nonempty, free⟩ := isOpen
  exact ⟨nonempty, held ▸ free⟩

theorem Pools.Keeps.push {initSize : ℕ} {ranges : List Extent} (keeps : s.Keeps initSize ranges)
    (deq : s'.poolDeq = pushBack s.poolDeq pool) (held : s.held ⊆ s'.held) : s'.Keeps initSize ranges := by
  obtain ⟨first, front, size⟩ := keeps.front
  refine ⟨keeps.nonempty, ⟨first, ?_, size⟩, ?_, keeps.apart⟩
  · rw [peekFront] at front
    rw [deq, peekFront, pushBack, List.head?_append, front, Option.some_or]
  · intro range mem
    obtain ⟨block, mem_held, inside⟩ := keeps.within range mem
    exact ⟨block, held mem_held, inside⟩

theorem peekBack_pushBack (deq : List MemoryPool) (pool : MemoryPool) : peekBack (pushBack deq pool) = some pool :=
  List.getLast?_concat

theorem length_pushBack (deq : List MemoryPool) (pool : MemoryPool) : (pushBack deq pool).length = deq.length + 1 :=
  List.length_append

/-- What the loop knows of the pool at the back: it is the one looked at, and an empty one was put there
only because the next size was too small. -/
structure Looks (s : Pools) (pool : MemoryPool) (initSize size : ℕ) (ranges : List Extent) : Prop
    extends s.Keeps initSize ranges where
  back : peekBack s.poolDeq = some pool
  real : pool.Open s ranges ∨ pool = ⟨none, 0, none⟩ ∧ size ≠ 0

theorem growPools_spec (looks : Looks s pool initSize size ranges) (m : Malloc) :
    ExitsOr (fun r => Looks r.1 r.2 initSize size ranges ∧ r.1.poolDeq.length = s.poolDeq.length + 1 ∧
      (r.2.tooSmall size → s.poolDeq.length < size)) (growPools m size initSize s) := by
  have long : s.poolDeq ≠ [] := by
    obtain ⟨first, front, -⟩ := looks.front
    intro empty
    rw [empty] at front
    cases front
  set newPoolSize := initSize * (2 <<< (s.poolDeq.length - 1)) with new_def
  -- The size is at least the length of the deque.
  have length_lt : s.poolDeq.length < newPoolSize := by
    have positive := List.length_pos_iff.mpr long
    calc
      s.poolDeq.length < 2 ^ s.poolDeq.length := Nat.lt_two_pow_self
      _ = 2 <<< (s.poolDeq.length - 1) := by
        rw [Nat.shiftLeft_eq, ← Nat.pow_succ']
        congr 1
        omega
      _ ≤ newPoolSize := Nat.le_mul_of_pos_left _ (Nat.pos_of_ne_zero looks.nonempty)
  rw [growPools]
  split
  case isTrue tooSmall =>
    simp only [initializePool, if_true]
    apply ExitsOr.bind (pushPool_spec m s ⟨none, 0, none⟩)
    rintro s' ⟨deq, held⟩
    refine ⟨⟨looks.toKeeps.push deq (held ▸ List.Subset.refl _), ?_, ?_⟩, ?_, ?_⟩
    · rw [deq, peekBack_pushBack]
    · exact .inr ⟨rfl, by omega⟩
    · rw [deq, length_pushBack]
    · intro _
      omega
  case isFalse enough =>
    apply ExitsOr.bind (initializeOrLess_spec m (by omega) s)
    rintro ⟨s₁, pool⟩ ⟨obtains, least⟩
    apply ExitsOr.bind (pushPool_spec m s₁ pool)
    rintro s₂ ⟨deq, held⟩
    rw [obtains.deq] at deq
    refine ⟨⟨looks.toKeeps.push deq (held ▸ obtains.held), ?_, ?_⟩, ?_, ?_⟩
    · rw [deq, peekBack_pushBack]
    · exact .inl ((obtains.isOpen looks.within).of_held held)
    · rw [deq, length_pushBack]
    · obtain ⟨addr, fresh, -⟩ := obtains.block
      intro tooSmall
      rw [MemoryPool.tooSmall, fresh] at tooSmall
      simp only at tooSmall least
      omega

theorem growLoop_spec (m : Malloc) (fuel : ℕ) (looks : Looks s pool initSize size ranges)
    (enough : pool.tooSmall size → 0 < fuel ∧ size < fuel + s.poolDeq.length) :
    ExitsOr (fun r => Looks r.1 r.2 initSize size ranges ∧ ¬ r.2.tooSmall size)
      (growLoop m size initSize fuel s pool) := by
  induction fuel generalizing s pool with
  | zero =>
    rw [growLoop]
    split
    case isTrue tooSmall => exact absurd (enough tooSmall).1 (Nat.lt_irrefl 0)
    case isFalse fits => exact ⟨looks, fits⟩
  | succ fuel ih =>
    rw [growLoop]
    split
    case isTrue tooSmall =>
      apply ExitsOr.bind (growPools_spec looks m)
      rintro ⟨s', pool'⟩ ⟨looks', longer, again⟩
      apply ih looks'
      intro tooSmall'
      have short := again tooSmall'
      have fuelled := enough tooSmall
      simp only at longer ⊢
      omega
    case isFalse fits => exact ⟨looks, fits⟩

/-- The request takes the range at `next`. -/
theorem Looks.take (looks : Looks s pool initSize size ranges) (fits : ¬ pool.tooSmall size)
    (deq : updateBack s.poolDeq { pool with next := pool.next.map (· + size) } = some s'.poolDeq)
    (held : s'.held = s.held) :
    ∃ p, pool.next = some p ∧ s'.Ready initSize (⟨p, size⟩ :: ranges) := by
  cases looks.real with
  | inr empty =>
    obtain ⟨rfl, nonzero⟩ := empty
    simp only [MemoryPool.tooSmall, Option.getD_none] at fits
    omega
  | inl isOpen =>
    obtain ⟨nonempty, addr, p, start, next, low, high, mem_held, apart⟩ := isOpen
    simp only [MemoryPool.tooSmall, start, next, Option.getD_some] at fits
    have inside : Extent.Within ⟨p, size⟩ ⟨p, addr + pool.size - p⟩ := ⟨Nat.le_refl p, by simp only; omega⟩
    have long : s.poolDeq ≠ [] := by
      intro empty
      have back := looks.back
      rw [empty] at back
      cases back
    rw [updateBack, if_neg long, Option.some.injEq] at deq
    refine ⟨p, next, ⟨looks.nonempty, ?_, ?_, ?_⟩, ?_⟩
    · -- A single pool is the front as well, and keeps its size.
      obtain ⟨first, front, first_size⟩ := looks.front
      have back := looks.back
      rw [← deq, peekFront]
      cases rest : s.poolDeq.dropLast with
      | cons other others =>
        have same := List.dropLast_concat_getLast long
        rw [rest] at same
        rw [← same] at front
        exact ⟨first, front, first_size⟩
      | nil =>
        have single := List.dropLast_concat_getLast long
        rw [rest] at single
        rw [peekFront, ← single] at front
        rw [peekBack, ← single] at back
        have same : first = pool := Option.some.inj (front.symm.trans back)
        exact ⟨_, rfl, by rw [← first_size, same]⟩
    · intro range mem
      rw [held]
      cases List.mem_cons.mp mem with
      | inl new =>
        rw [new]
        exact ⟨_, mem_held, low, by simp only; omega⟩
      | inr old => exact looks.within range old
    · rw [List.pairwise_cons]
      exact ⟨fun range mem => (apart range mem).symm.mono inside, looks.apart⟩
    · refine ⟨{ pool with next := pool.next.map (· + size) }, ?_, nonempty, addr, p + size, start, ?_, ?_⟩
      · rw [← deq, peekBack, List.getLast?_concat]
      · rw [next, Option.map_some]
      · refine ⟨by omega, by simp only; omega, held.symm ▸ mem_held, ?_⟩
        intro range mem
        cases List.mem_cons.mp mem with
        | inl new =>
          rw [new]
          exact .inl (Nat.le_refl _)
        | inr old =>
          have before := apart range old
          simp only [Extent.Apart] at before ⊢
          omega

end OsLabs.Quash
