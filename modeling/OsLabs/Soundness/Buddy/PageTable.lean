import OsLabs.Soundness.Buddy.Runs

/-! # Bounds of the page table

`buddy_free` looks up the buddy of the block it frees before any guard on the order. The buddy of
the whole memory lies behind `g_pages`, so freeing a block of `MAX_ORDER` computes index 256; every
other call computes indices of `g_pages` only.
-/

namespace OsLabs.Buddy

open LinkedRing DyadicTiling DyadicTiling.Block

variable {before s s' : Memory} {lists : ℕ → List ℕ} {free : Set Block} {live : List Live}

/-- Every computed index is one of `g_pages`, and no block size exceeds `MAX_ORDER`. -/
structure PageTableBounds (s : Memory) : Prop where
  lookups : ∀ i ∈ s.lookups, i < nPages
  blockSize : ∀ i < nPages, (s.gPages i).blockSize ≤ maxOrder

theorem buddyCombine_lookups {depth thePage buddyPage resPage : ℕ}
    (ran : buddyCombine depth s thePage buddyPage = some (s', resPage)) : s.lookups ⊆ s'.lookups := by
  induction depth generalizing s thePage buddyPage with
  | zero => exact absurd ran (Option.some_ne_none _).symm
  | succ depth ih =>
    simp only [buddyCombine] at ran
    split_ifs at ran
    all_goals first
      | exact List.Subset.trans (List.subset_cons_self ..) (ih ran)
      | obtain ⟨rfl, _⟩ := Prod.mk.inj (Option.some.inj ran)
        exact List.Subset.refl _

/-- `buddy_free` looks up the buddy whatever the order of the freed block. -/
theorem buddyFree_lookups {addr : ℕ} (ran : buddyFree s addr = some s') :
    addrToPage (buddyAddr addr (s.gPages (addrToPage addr)).blockSize) ∈ s'.lookups := by
  simp only [buddyFree, Option.bind_eq_bind, Option.bind_eq_some_iff, setIsFree_blockSize,
    Option.pure_def, Option.some.injEq] at ran
  obtain ⟨⟨t, resPage⟩, combined, loc, _, rfl⟩ := ran
  exact buddyCombine_lookups combined (List.mem_cons_self ..)

theorem InBounds.lookups_lt (bounds : InBounds s s') (old : ∀ i ∈ s.lookups, i < nPages) :
    ∀ i ∈ s'.lookups, i < nPages := fun i member => (bounds.lookups i member).elim (old i) id

/-- Runs that never free the whole-memory block compute indices of `g_pages` only. -/
theorem run_lookups (run : Run before (fun l => orderFor l.size < maxOrder) s live) :
    ∀ i ∈ s.lookups, i < nPages := by
  induction run with
  | init => exact fun i none => (List.not_mem_nil none).elim
  | alloc run success ih =>
    obtain ⟨lists, free, inv, _⟩ := run_inv run fun l small whole => absurd whole small.ne
    obtain ⟨_, _, _, bounds⟩ := inv.alloc success
    exact bounds.lookups_lt ih
  | outOfMemory run failure ih =>
    obtain ⟨lists, free, inv, _⟩ := run_inv run fun l small whole => absurd whole small.ne
    exact inv.outOfMemory failure ▸ ih
  | free run member allowed success ih =>
    obtain ⟨lists, free, inv, _⟩ := run_inv run fun l small whole => absurd whole small.ne
    obtain ⟨s', _, _, freed, _, _, bounds, _⟩ := inv.release member fun whole => absurd whole allowed.ne
    obtain rfl := Option.some.inj (freed.symm.trans success)
    exact (bounds allowed).lookups_lt ih

/-- Freeing a live block of the whole memory computes the index behind `g_pages`. -/
theorem Inv.whole_lookup (inv : Inv s live lists free) {l : Live} (member : l ∈ live)
    (whole : orderFor l.size = maxOrder) (freed : buddyFree s l.addr = some s') :
    nPages ∈ s'.lookups := by
  have inLive : l.block ∈ free ∪ (∅ ∪ liveSet live) := .inr (.inr (mem_liveSet member))
  have zero : l.addr = 0 := by
    rw [← inv.starts l member, start, index_eq_zero_of_order (inv.valid.within inLive) whole, zero_mul]
  have recorded : (s.gPages (addrToPage l.addr)).blockSize = maxOrder := by
    rw [← inv.starts l member, ← whole]
    exact inv.valid.blockSize _ inLive
  have looked := buddyFree_lookups freed
  rw [recorded, zero] at looked
  exact looked

/-- A run that has freed no whole-memory block keeps the bounds; the first free of such a block
breaks them. -/
theorem page_table_bounds (run : Run before (fun l => orderFor l.size < maxOrder) s live) :
    PageTableBounds s ∧ ∀ l ∈ live, orderFor l.size = maxOrder →
      ∀ s', buddyFree s l.addr = some s' → ¬ PageTableBounds s' := by
  obtain ⟨lists, free, inv, _⟩ := run_inv run fun l small whole => absurd whole small.ne
  refine ⟨⟨run_lookups run, inv.valid.bounded⟩, ?_⟩
  intro l member whole s' freed bounds
  exact absurd (bounds.lookups _ (inv.whole_lookup member whole freed)) (lt_irrefl _)

theorem page_table_bounds_first : ∃ s, Run zeroed (fun l => orderFor l.size < maxOrder) s [⟨0, 1048576⟩] ∧
    PageTableBounds s ∧ ∀ s', buddyFree s 0 = some s' → ¬ PageTableBounds s' := by
  have start : Run zeroed (fun l => orderFor l.size < maxOrder) (buddyInit zeroed) [] := .init
  have result : (buddyAlloc (buddyInit zeroed) 1048576).map (·.2) = some (some 0) := by decide
  obtain ⟨s, run⟩ := run_alloc start result
  obtain ⟨bounds, broken⟩ := page_table_bounds run
  exact ⟨s, run, bounds, broken _ (List.mem_singleton_self _) (by decide)⟩

/-- Allocating and freeing the whole memory computes index 256. -/
theorem page_table_bounds_broken : ¬ ∀ before s live, AnyRun before s live → PageTableBounds s := by
  intro bounded
  have computed : ((buddyAlloc (buddyInit zeroed) 1048576).bind fun r =>
      (buddyFree r.1 0).map fun s => (r.2, s.lookups)) = some (some 0, [256]) := by decide
  obtain ⟨⟨s₁, result⟩, allocated, computed⟩ := Option.bind_eq_some_iff.mp computed
  obtain ⟨s₂, freed, same⟩ := Option.map_eq_some_iff.mp computed
  obtain ⟨rfl, lookups⟩ := Prod.mk.inj same
  have run : AnyRun zeroed s₂ _ := (Run.init.alloc allocated).free (List.mem_singleton_self _) trivial freed
  have small := (bounded _ _ _ run).lookups 256 (by rw [lookups]; decide)
  exact absurd small (by decide)

end OsLabs.Buddy
