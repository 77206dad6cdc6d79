import OsLabs.Proofs.Quash.MemoryPool

/-! # Allocations from the memory pool

Every request comes back with memory of its own, or the process exits: no assertion of
`memory_pool_alloc` fails and neither of its loops goes on for ever, whatever `malloc` refuses.
-/

namespace OsLabs.Quash

variable {s : Pools} {initSize : ℕ} {ranges : List Extent}

theorem initializeMemoryPool_spec (m : Malloc) (size : ℕ) :
    ExitsOr (fun s => ∃ initSize, s.Ready initSize []) (initializeMemoryPool m size) := by
  rw [initializeMemoryPool, initializeMemoryPool.assertGrows]
  set first := if size = 0 then 1 else size with first_def
  have positive : 1 ≤ first := by split at first_def <;> omega
  cases m.grows 0 with
  | false => rfl
  | true =>
    apply ExitsOr.bind (initializeOrLess_spec m positive ⟨newDeque, [], 1⟩)
    rintro ⟨s₁, pool⟩ ⟨obtains, -⟩
    apply (pushPool_spec m s₁ pool).imp
    rintro s₂ ⟨deq, held⟩
    rw [obtains.deq] at deq
    have isOpen : pool.Open s₁ [] := obtains.isOpen (List.forall_mem_nil _)
    exact ⟨pool.size, ⟨obtains.nonempty, ⟨pool, by rw [deq]; rfl, rfl⟩, List.forall_mem_nil _, List.Pairwise.nil⟩,
      pool, by rw [deq]; rfl, isOpen.of_held held⟩

theorem memoryPoolAlloc_spec (ready : s.Ready initSize ranges) (m : Malloc) (size : ℕ) :
    ExitsOr (fun r => ∃ p, r.2 = some p ∧ r.1.Ready initSize (⟨p, size⟩ :: ranges)) (memoryPoolAlloc m s size) := by
  obtain ⟨pool, back, isOpen⟩ := ready.back
  obtain ⟨first, front, first_size⟩ := ready.front
  have looks : Looks s pool initSize size ranges := ⟨ready.toKeeps, back, .inl isOpen⟩
  obtain ⟨nonempty, addr, next, pool_some, next_some, -⟩ := isOpen
  rw [memoryPoolAlloc, assertSome_eq back, assertSome_eq front]
  apply ExitsOr.bind (exitsOr_assert (by rw [pool_some]; simp))
  rintro - -
  apply ExitsOr.bind (exitsOr_assert nonempty)
  rintro - -
  apply ExitsOr.bind (exitsOr_assert (by rw [next_some]; simp))
  rintro - -
  rw [first_size]
  have grown := growLoop_spec m (size + 1) looks (fun _ => ⟨Nat.succ_pos size, by omega⟩)
  apply grown.bind
  rintro ⟨s', pool'⟩ ⟨looks', fits⟩
  have long : s'.poolDeq ≠ [] := by
    intro empty
    have back' := looks'.back
    rw [empty] at back'
    cases back'
  dsimp only
  rw [assertSome_eq looks'.back]
  apply ExitsOr.bind (exitsOr_assert rfl)
  rintro - -
  rw [updateBack, if_neg long]
  exact looks'.take fits (by rw [updateBack, if_neg long]) rfl

theorem memoryPoolAllocs_spec (ready : s.Ready initSize ranges) (m : Malloc) (sizes : List ℕ) :
    ExitsOr (fun r => ∃ new : List Extent, r.2 = new.map some ∧ new.map (·.size) = sizes ∧
      r.1.Ready initSize (new.reverse ++ ranges)) (memoryPoolAllocs m s sizes) := by
  induction sizes generalizing s ranges with
  | nil => exact ⟨[], rfl, rfl, ready⟩
  | cons size sizes ih =>
    rw [memoryPoolAllocs]
    apply ExitsOr.bind (memoryPoolAlloc_spec ready m size)
    rintro ⟨s₁, _⟩ ⟨p, rfl, ready₁⟩
    apply ExitsOr.bind (ih ready₁)
    rintro ⟨s₂, _⟩ ⟨new, rfl, sizes_eq, ready₂⟩
    refine ⟨⟨p, size⟩ :: new, rfl, congrArg (size :: ·) sizes_eq, ?_⟩
    rw [List.reverse_cons, List.append_assoc]
    exact ready₂

/-- However `malloc` answers, the process exits or every request of a sequence returns, with ranges that lie
in blocks from `malloc` and do not overlap. What a request returns before an exit is what it returns when
the sequence ends there. -/
theorem allocations_apart (m : Malloc) (size : ℕ) (sizes : List ℕ) :
    ExitsOr (fun r => ∃ ranges : List Extent, r.2 = ranges.map some ∧ ranges.map (·.size) = sizes ∧
        (∀ range ∈ ranges, ∃ block ∈ r.1.held, range.Within block) ∧ ranges.Pairwise Extent.Apart)
      (initializeMemoryPool m size >>= fun s => memoryPoolAllocs m s sizes) := by
  apply ExitsOr.bind (initializeMemoryPool_spec m size)
  rintro s ⟨initSize, ready⟩
  apply (memoryPoolAllocs_spec ready m sizes).imp
  rintro ⟨s', _⟩ ⟨ranges, rfl, sizes_eq, ready'⟩
  rw [List.append_nil] at ready'
  refine ⟨ranges, rfl, sizes_eq, ?_, ?_⟩
  · intro range mem
    exact ready'.within range (List.mem_reverse.mpr mem)
  · have apart := List.pairwise_reverse.mp ready'.apart
    exact apart.imp Extent.Apart.symm

/-- A heap that hands out memory beyond all blocks held, and refuses some requests. -/
def Malloc.rising (refuses : ℕ → Bool) : Malloc where
  malloc n held _ := if refuses n then none else some (held.foldr (fun block top => max top (block.addr + block.size)) 8)
  grows _ := true
  apart := by
    intro n held size addr found block mem
    split at found
    case isTrue => cases found
    case isFalse =>
      cases found
      apply Or.inr
      induction held with
      | nil => cases mem
      | cons first rest ih =>
        rw [List.foldr_cons]
        cases List.mem_cons.mp mem with
        | inl here => exact here ▸ Nat.le_max_right _ _
        | inr later => exact Nat.le_trans (ih later) (Nat.le_max_left _ _)

/-- The second request needs three empty pools, and memory for the fourth is short at first. -/
example : (initializeMemoryPool (.rising (· == 6)) 4 >>= fun s => memoryPoolAllocs (.rising (· == 6)) s [3, 40, 2]).map
      (fun r => (r.2, r.1.poolDeq.map (·.size))) =
    .ok ([some ⟨8, 3⟩, some ⟨12, 40⟩, some ⟨52, 2⟩], [4, 0, 0, 0, 40, 128]) := rfl

end OsLabs.Quash
