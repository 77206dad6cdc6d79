import OsLabs.Soundness.Buddy.Runs

/-! # The free lists have no history

Full coalescing makes the free blocks a function of the live blocks, and every free list is sorted.
So two runs that end with the same live blocks end with the same free lists.
-/

namespace OsLabs.Buddy

open LinkedRing DyadicTiling DyadicTiling.Block

variable {before before' s s' : Memory} {lists lists' : ℕ → List ℕ} {free free' : Set Block}
  {live live' : List Live}

/-- Addresses and orders of the live blocks. -/
def liveBlocks (live : List Live) : Set (ℕ × ℕ) := {p | ∃ l ∈ live, p = (l.addr, orderFor l.size)}

def SameFreeLists (s s' : Memory) : Prop :=
  ∀ o, minOrder ≤ o → o ≤ maxOrder → s.freeList o = s'.freeList o

theorem mem_liveSet_iff (inv : Inv s live lists free) (b : Block) :
    b ∈ liveSet live ↔ (b.start, b.order) ∈ liveBlocks live := by
  constructor
  · intro member
    obtain ⟨l, inLive, rfl⟩ := List.mem_map.mp member
    exact ⟨l, inLive, congrArg (·, orderFor l.size) (inv.starts l inLive)⟩
  · rintro ⟨l, inLive, same⟩
    obtain ⟨starts, orders⟩ := Prod.mk.inj same
    have block : l.block = b := by
      rw [Live.block, ← starts, ← orders, blockAt_start]
    exact block ▸ mem_liveSet inLive

theorem Inv.sameFreeLists (inv : Inv s live lists free) (inv' : Inv s' live' lists' free')
    (same : liveBlocks live = liveBlocks live') : SameFreeLists s s' := by
  have lives : liveSet live = liveSet live' := by
    ext b
    rw [mem_liveSet_iff inv, mem_liveSet_iff inv', same]
  have frees : free = free' :=
    inv.valid.coalesced.free_unique (lives ▸ inv'.valid.coalesced)
  subst frees
  intro o low high
  rw [inv.rings.freeList_eq low high (inv.valid.lists_length o),
    inv'.rings.freeList_eq low high (inv'.valid.lists_length o), inv.valid.lists_unique inv'.valid o]

/-- `buddy_init` leaves the whole memory as the one free block. -/
theorem buddyInit_freeList (before : Memory) {o : ℕ} (low : minOrder ≤ o) (high : o ≤ maxOrder) :
    (buddyInit before).freeList o = if o = maxOrder then [0] else [] := by
  have inv := inv_init before
  rw [inv.rings.freeList_eq low high (inv.valid.lists_length o), Function.update_apply]

/-- The live blocks at the end of a run determine the free lists, list by list and entry by entry:
an allocation and its free cancel, frees commute, and freeing everything restores `buddy_init`. -/
theorem free_lists_determined (past : (before.gPages nPages).isFree = false)
    (past' : (before'.gPages nPages).isFree = false) (run : AnyRun before s live) :
    (∀ s' live', AnyRun before' s' live' → liveBlocks live = liveBlocks live' → SameFreeLists s s') ∧
    (∀ size s₁ addr, buddyAlloc s size = some (s₁, some addr) →
      ∃ s₂, buddyFree s₁ addr = some s₂ ∧ SameFreeLists s s₂) ∧
    (∀ a ∈ live, ∀ b ∈ live, a ≠ b → ∃ s₁ s₂ s₃ s₄, buddyFree s a.addr = some s₁ ∧
      buddyFree s₁ b.addr = some s₂ ∧ buddyFree s b.addr = some s₃ ∧
      buddyFree s₃ a.addr = some s₄ ∧ SameFreeLists s₂ s₄) ∧
    (live = [] → ∀ o, minOrder ≤ o → o ≤ maxOrder →
      s.freeList o = if o = maxOrder then [0] else []) := by
  obtain ⟨lists, free, inv, kept⟩ := run_inv run fun _ _ _ => past
  have unset : (s.gPages nPages).isFree = false := kept nPages le_rfl ▸ past
  refine ⟨?_, ?_, ?_, ?_⟩
  · intro s' live' run' same
    obtain ⟨lists', free', inv', _⟩ := run_inv run' fun _ _ _ => past'
    exact inv.sameFreeLists inv' same
  · intro size s₁ addr success
    obtain ⟨lists₁, free₁, inv₁, bounds⟩ := inv.alloc success
    have unset₁ : (s₁.gPages nPages).isFree = false := bounds.past nPages le_rfl ▸ unset
    obtain ⟨s₂, lists₂, free₂, freed, inv₂, _⟩ := inv₁.release (List.mem_cons_self ..) fun _ => unset₁
    rw [List.erase_cons_head] at inv₂
    exact ⟨s₂, freed, inv.sameFreeLists inv₂ rfl⟩
  · intro a inA b inB ne
    have twice {a b : Live} (inA : a ∈ live) (inB : b ∈ live) (ne : a ≠ b) :
        ∃ s₁ s₂ lists₂ free₂, buddyFree s a.addr = some s₁ ∧ buddyFree s₁ b.addr = some s₂ ∧
          Inv s₂ ((live.erase a).erase b) lists₂ free₂ := by
      obtain ⟨s₁, _, _, freed, inv₁, kept₁, _⟩ := inv.release inA fun _ => unset
      have rest : b ∈ live.erase a := (List.mem_erase_of_ne ne.symm).mpr inB
      have unset₁ : (s₁.gPages nPages).isFree = false := kept₁ nPages le_rfl ▸ unset
      obtain ⟨s₂, lists₂, free₂, freed', inv₂, _⟩ := inv₁.release rest fun _ => unset₁
      exact ⟨s₁, s₂, lists₂, free₂, freed, freed', inv₂⟩
    obtain ⟨s₁, s₂, _, _, freeA, thenB, inv₂⟩ := twice inA inB ne
    obtain ⟨s₃, s₄, _, _, freeB, thenA, inv₄⟩ := twice inB inA ne.symm
    have same : liveBlocks ((live.erase a).erase b) = liveBlocks ((live.erase b).erase a) := by
      rw [List.erase_comm]
    exact ⟨s₁, s₂, s₃, s₄, freeA, thenB, freeB, thenA, inv₂.sameFreeLists inv₄ same⟩
  · rintro rfl o low high
    rw [inv.sameFreeLists (inv_init before) rfl o low high, buddyInit_freeList before low high]

theorem free_lists_determined_page : ∃ s, AnyRun zeroed s [⟨0, 4096⟩] ∧
    ∀ s' live', AnyRun zeroed s' live' → liveBlocks [⟨0, 4096⟩] = liveBlocks live' → SameFreeLists s s' := by
  have start : AnyRun zeroed (buddyInit zeroed) [] := .init
  have result : (buddyAlloc (buddyInit zeroed) 4096).map (·.2) = some (some 0) := by decide
  obtain ⟨s, run⟩ := run_alloc start result
  exact ⟨s, run, (free_lists_determined rfl rfl run).1⟩

end OsLabs.Buddy
