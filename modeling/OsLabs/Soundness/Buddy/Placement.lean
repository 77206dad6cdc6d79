import OsLabs.Soundness.Buddy.Partition

/-! # Where an allocation is placed

Every free list is in the order of the addresses. A request takes the lowest block of the smallest
order that has one; the lists between this order and that of the request are empty, and the right
halves that the splits leave are their only new blocks.
-/

namespace OsLabs.Buddy

open DyadicTiling DyadicTiling.Block

variable {before s s' : Memory} {live : List Live} {size : ℤ} {k addr o i : ℕ}

/-- How the free lists change when a request of order `k` is served by block `i` of order `o`. -/
structure Placed (s s' : Memory) (k addr o i : ℕ) : Prop where
  smallest : IsLeast {o | k ≤ o ∧ o ≤ maxOrder ∧ s.freeList o ≠ []} o
  lowest : IsLeast {j | j ∈ s.freeList o} i
  base : addr = pageToAddr i
  removed : s.freeList o = i :: s'.freeList o
  added : ∀ j, k ≤ j → j < o → ∃ half, s'.freeList j = half :: s.freeList j ∧ pageToAddr half = addr + 2 ^ j
  kept : ∀ j, minOrder ≤ j → j ≤ maxOrder → j < k ∨ o < j → s'.freeList j = s.freeList j

theorem DefinedRun.inv (run : DefinedRun before s live) : ∃ lists free, Inv s live lists free := by
  obtain ⟨lists, free, inv, -⟩ := run_inv run fun _ allowed whole => allowed whole
  exact ⟨lists, free, inv⟩

theorem pageToAddr_half {b : Block} {j : ℕ} (coarse : minOrder ≤ b.order) (low : minOrder ≤ j) :
    pageToAddr (addrToPage (b.start + 2 ^ j)) = b.start + 2 ^ j := by
  have page : pageSize ∣ 2 ^ j := Nat.pow_dvd_pow 2 low
  exact Nat.div_mul_cancel (Nat.dvd_add (pageSize_dvd_start coarse) page)

theorem Inv.placed {lists : ℕ → List ℕ} {free : Set Block} (inv : Inv s live lists free)
    (success : buddyAlloc s size = some (s', some addr)) : ∃ o i, Placed s s' (orderFor size) addr o i := by
  rcases buddyAlloc_spec inv.valid inv.rings (size_le_of_buddyAlloc success) with
    ⟨failed, -⟩ | ⟨t, b, ran, allocated⟩
  · cases failed.symm.trans success
  cases ran.symm.trans success
  obtain ⟨free', rest, o, above, high, first, empty, valid', rings'⟩ := allocated.result
  have low : minOrder ≤ orderFor size := minOrder_le_orderFor size
  have coarse : minOrder ≤ b.order := allocated.order ▸ low
  have before (j : ℕ) (low : minOrder ≤ j) (high : j ≤ maxOrder) : s.freeList j = lists j :=
    freeList_eq inv low high
  have after (j : ℕ) (low : minOrder ≤ j) (high : j ≤ maxOrder) : s'.freeList j =
      splitLists (Function.update lists o rest) b.start (orderFor size) o j :=
    rings'.freeList_eq low high (valid'.lists_length j)
  have front : s.freeList o = headPage b :: rest := (before o (low.trans above) high).trans first
  refine ⟨o, headPage b, ?_, ?_, (pageToAddr_headPage coarse).symm, ?_, ?_, ?_⟩
  · refine ⟨⟨above, high, front ▸ List.cons_ne_nil _ _⟩, ?_⟩
    rintro j ⟨aboveJ, highJ, nonempty⟩
    rw [before j (low.trans aboveJ) highJ] at nonempty
    exact Nat.le_of_not_lt fun below => nonempty (empty j aboveJ below)
  · rw [front]
    refine ⟨List.mem_cons_self, ?_⟩
    intro i member
    have sorted := inv.valid.sorted o
    rw [first, List.pairwise_cons] at sorted
    cases List.mem_cons.mp member with
    | inl same => exact same.ge
    | inr later => exact (sorted.1 i later).le
  · rw [front, after o (low.trans above) high, splitLists, if_neg (by omega), Function.update_self]
  · intro j aboveJ below
    refine ⟨addrToPage (b.start + 2 ^ j), ?_, pageToAddr_half coarse (low.trans aboveJ)⟩
    rw [before j (low.trans aboveJ) (by omega), after j (low.trans aboveJ) (by omega), splitLists,
      if_pos ⟨aboveJ, below⟩, empty j aboveJ below]
  · intro j lowJ highJ outside
    rw [before j lowJ highJ, after j lowJ highJ, splitLists, if_neg (by omega),
      Function.update_of_ne (by omega)]

/-- In every run the free lists are in the order of the addresses, and a request of order `k` that
succeeds takes the lowest block of the smallest sufficient order and leaves the right halves. -/
theorem buddy_alloc_placement (run : DefinedRun before s live) :
    (∀ o, minOrder ≤ o → o ≤ maxOrder → (s.freeList o).Pairwise (· < ·)) ∧
    ∀ size s' addr k, IsLeast {k | minOrder ≤ k ∧ size ≤ 2 ^ k} k →
      buddyAlloc s size = some (s', some addr) → ∃ o i, Placed s s' k addr o i := by
  obtain ⟨lists, free, inv⟩ := run.inv
  constructor
  · intro o low high
    rw [freeList_eq inv low high]
    exact inv.valid.sorted o
  · intro size s' addr k least success
    obtain rfl := least.unique (orderFor_isLeast size)
    exact inv.placed success

/-- The first page splits the whole memory, down to the page. -/
theorem buddy_alloc_placement_page : ∃ s', buddyAlloc (buddyInit zeroed) 4096 = some (s', some 0) ∧
    ∃ o i, Placed (buddyInit zeroed) s' minOrder 0 o i := by
  have start : DefinedRun zeroed (buddyInit zeroed) [] := .init
  have result : (buddyAlloc (buddyInit zeroed) 4096).map (·.2) = some (some 0) := by decide
  obtain ⟨⟨s', _⟩, success, rfl⟩ := Option.map_eq_some_iff.mp result
  have least : IsLeast {k | minOrder ≤ k ∧ (4096 : ℤ) ≤ 2 ^ k} minOrder :=
    ⟨⟨Nat.le_refl _, by decide⟩, fun _ fits => fits.1⟩
  exact ⟨s', success, (buddy_alloc_placement start).2 4096 s' 0 minOrder least success⟩

end OsLabs.Buddy
