import OsLabs.Proofs.Buddy.Free

/-! # The invariant over runs

`buddy_init` establishes the invariant with the whole memory as one free block; each call of a run
keeps it. The record behind `g_pages` is never written.
-/

namespace OsLabs.Buddy

open LinkedRing DyadicTiling DyadicTiling.Block

variable {before s s' : Memory} {lists : ℕ → List ℕ} {free : Set Block} {live : List Live}
  {freeable : Live → Prop} {size : ℤ}

def Live.block (l : Live) : Block := blockAt l.addr (orderFor l.size)

/-- The blocks of a list of allocations. -/
def liveSet (live : List Live) : Set Block := {b | b ∈ live.map Live.block}

@[simp] theorem liveSet_nil : liveSet [] = ∅ := by
  ext b
  simp only [liveSet, List.map_nil, List.not_mem_nil, Set.mem_ofPred_eq, Set.mem_empty_iff_false]

@[simp] theorem liveSet_cons (l : Live) (live : List Live) :
    liveSet (l :: live) = insert l.block (liveSet live) := by
  ext b
  simp only [liveSet, List.map_cons, List.mem_cons, Set.mem_ofPred_eq, Set.mem_insert_iff]

theorem mem_liveSet {l : Live} (member : l ∈ live) : l.block ∈ liveSet live :=
  List.mem_map_of_mem member

theorem blockAt_start (b : Block) : blockAt b.start b.order = b := by
  rw [blockAt, start, Nat.mul_div_cancel _ (Nat.two_pow_pos _)]

/-- The invariant of a state between two calls. -/
structure Inv (s : Memory) (live : List Live) (lists : ℕ → List ℕ) (free : Set Block) : Prop where
  valid : Valid s lists free ∅ (liveSet live)
  rings : FreeLists s.links lists
  starts : ∀ l ∈ live, l.block.start = l.addr
  distinct : (live.map Live.block).Nodup

/-- The globals as the program starts, all zero. -/
def zeroed : Memory := ⟨⟨fun _ => .poison, fun _ => .poison⟩, fun _ => ⟨0, false, 0⟩, []⟩

/-! ## `buddy_init` -/

theorem initListHead_foldl (orders : List ℕ) (l : Links Node) (o : ℕ)
    (initial : o ∈ orders ∨ (l.next (.freeArea o) = .freeArea o ∧ l.prev (.freeArea o) = .freeArea o)) :
    let l' := orders.foldl (fun links i => initListHead links (.freeArea i)) l
    l'.next (.freeArea o) = .freeArea o ∧ l'.prev (.freeArea o) = .freeArea o := by
  induction orders generalizing l with
  | nil => exact initial.resolve_left List.not_mem_nil
  | cons i orders ih =>
    refine ih _ ?_
    by_cases same : o = i
    · subst same
      exact .inr ⟨by simp only [initListHead, Links.setPrev_next, Links.setNext_next, ↓reduceIte],
        by simp only [initListHead, Links.setPrev_prev, ↓reduceIte]⟩
    · rcases initial with member | loops
      · exact .inl ((List.mem_cons.mp member).resolve_left same)
      · refine .inr ?_
        simpa only [initListHead, Links.setPrev_next, Links.setNext_next, Links.setPrev_prev,
          Links.setNext_prev, Node.freeArea.injEq, same, ↓reduceIte] using loops

theorem initListHead_lists (l : Links Node) :
    FreeLists ((List.range' minOrder (maxOrder + 1 - minOrder)).foldl
      (fun links i => initListHead links (.freeArea i)) l) fun _ => [] where
  ring o low high := by
    have member : o ∈ List.range' minOrder (maxOrder + 1 - minOrder) := by
      rw [List.mem_range'_1]
      have bounds : minOrder ≤ maxOrder := by decide
      omega
    exact ⟨initListHead_foldl _ l o (.inl member), List.pairwise_singleton _ _⟩
  apart _ _ _ none := (List.not_mem_nil none).elim

theorem buddyInit_gPages (before : Memory) {i : ℕ} (small : i < nPages) :
    (buddyInit before).gPages i = ⟨i, true, if i = 0 then maxOrder else 0⟩ := by
  change Function.update _ 0 _ i = _
  by_cases zero : i = 0
  · subst zero
    rfl
  · rw [Function.update_of_ne zero, if_neg zero]
    exact if_pos small

theorem buddyInit_past (before : Memory) {i : ℕ} (large : nPages ≤ i) :
    (buddyInit before).gPages i = before.gPages i := by
  have positive : 0 < nPages := by decide
  change Function.update _ 0 _ i = _
  rw [Function.update_of_ne (by omega)]
  exact if_neg (by omega)

theorem inv_init (before : Memory) :
    Inv (buddyInit before) [] (Function.update (fun _ => []) maxOrder [0]) {⟨maxOrder, 0⟩} where
  valid := by
    have head : headPage ⟨maxOrder, 0⟩ = 0 := by decide
    rw [liveSet_nil]
    refine ⟨?_, fun _ none => none.elim, ?_, ?_, ?_, ?_, ?_, ?_⟩
    · rw [Set.union_empty]
      exact Coalesced.whole (by decide)
    · intro o i
      have none (o i : ℕ) : i ∈ ([] : List ℕ) ↔ ∃ b ∈ (∅ : Set Block), b.order = o ∧ headPage b = i := by
        simp only [List.not_mem_nil, Set.mem_empty_iff_false, false_and, exists_false]
      have grown (i : ℕ) : i ∈ [0] ↔ i = headPage ⟨maxOrder, 0⟩ ∨ i ∈ ([] : List ℕ) := by
        rw [head, List.mem_singleton, or_iff_left List.not_mem_nil]
      have added := listed_insert none grown o i
      rwa [insert_empty_eq] at added
    · exact pairwise_update (fun _ => List.Pairwise.nil) (List.pairwise_singleton _ _)
    · intro i small
      rw [buddyInit_gPages before small]
    · intro i small
      rw [buddyInit_gPages before small]
      change (if i = 0 then maxOrder else 0) ≤ maxOrder
      split
      · exact le_rfl
      · exact Nat.zero_le _
    · intro i small
      rw [buddyInit_gPages before small]
      simp only [Bool.true_eq_false, Set.mem_empty_iff_false, false_and, exists_false]
    · intro b member
      rw [Set.union_empty, Set.union_empty, Set.mem_singleton_iff] at member
      rw [member, head, buddyInit_gPages before (by decide)]
      rfl
  rings := (initListHead_lists before.links).listAdd (by decide) le_rfl fun _ => List.not_mem_nil
  starts _ none := (List.not_mem_nil none).elim
  distinct := List.nodup_nil

/-! ## The calls -/

theorem Inv.alloc (inv : Inv s live lists free) {addr : ℕ}
    (success : buddyAlloc s size = some (s', some addr)) :
    ∃ lists' free', Inv s' (⟨addr, size⟩ :: live) lists' free' ∧ InBounds s s' := by
  rcases buddyAlloc_spec inv.valid inv.rings (size_le_of_buddyAlloc success) with
    ⟨failed, _⟩ | ⟨t, b, ran, allocated⟩
  · simp only [failed, Option.some.injEq, Prod.mk.injEq, reduceCtorEq, and_false] at success
  · simp only [ran, Option.some.injEq, Prod.mk.injEq] at success
    obtain ⟨rfl, rfl⟩ := success
    obtain ⟨free', rest, p, _, _, first, _, valid', rings'⟩ := allocated.result
    have block : (Live.mk b.start size).block = b := by
      rw [Live.block, ← allocated.order, blockAt_start]
    refine ⟨_, free', ⟨?_, rings', ?_, ?_⟩, allocated.bounds⟩
    · rwa [liveSet_cons, block]
    · intro l member
      rcases List.mem_cons.mp member with rfl | member
      · rw [block]
      · exact inv.starts l member
    · rw [List.map_cons, block]
      refine List.nodup_cons.mpr ⟨fun member => ?_, inv.distinct⟩
      exact inv.valid.notMem_lists (.inr member) p (first ▸ List.mem_cons_self ..)

theorem Inv.outOfMemory (inv : Inv s live lists free) (failure : buddyAlloc s size = some (s', none)) :
    s' = s := by
  rcases buddyAlloc_spec inv.valid inv.rings (size_le_of_buddyAlloc failure) with
    ⟨failed, _⟩ | ⟨t, b, ran, _⟩
  · simp only [failed, Option.some.injEq, Prod.mk.injEq, and_true] at failure
    exact failure.symm
  · simp only [ran, Option.some.injEq, Prod.mk.injEq, reduceCtorEq, and_false] at failure

theorem liveSet_erase {l : Live} (distinct : (live.map Live.block).Nodup) (member : l ∈ live) :
    liveSet (live.erase l) = liveSet live \ {l.block} := by
  have perm := List.perm_cons_erase member
  have nodup := ((perm.map Live.block).nodup_iff).mp distinct
  rw [List.map_cons, List.nodup_cons] at nodup
  have whole : liveSet live = insert l.block (liveSet (live.erase l)) := by
    rw [← liveSet_cons]
    ext b
    exact (perm.map Live.block).mem_iff
  have absent : l.block ∉ liveSet (live.erase l) := nodup.1
  rw [whole, Set.insert_sdiff_self_of_notMem absent]

/-- `buddy_free` of a live block is defined and keeps the invariant. -/
theorem Inv.release (inv : Inv s live lists free) {l : Live} (member : l ∈ live)
    (past : orderFor l.size = maxOrder → (s.gPages nPages).isFree = false) :
    ∃ s' lists' free', buddyFree s l.addr = some s' ∧ Inv s' (live.erase l) lists' free' ∧
      (∀ i, nPages ≤ i → s'.gPages i = s.gPages i) ∧
      (orderFor l.size < maxOrder → InBounds s s') ∧
      (orderFor l.size = maxOrder → s'.lookups = nPages :: s.lookups) := by
  obtain ⟨s', lists', free', ran, valid', rings', kept, bounds, last⟩ :=
    buddyFree_spec inv.valid inv.rings (mem_liveSet member) past
  rw [inv.starts l member] at ran
  rw [← liveSet_erase inv.distinct member] at valid'
  have shorter : live.erase l ⊆ live := List.erase_subset
  refine ⟨s', lists', free', ran, ⟨valid', rings', ?_, ?_⟩, kept, bounds, last⟩
  · exact fun k inRest => inv.starts k (shorter inRest)
  · exact inv.distinct.sublist (List.erase_sublist.map _)

theorem run_alloc {addr : ℕ} (run : Run before freeable s live)
    (result : (buddyAlloc s size).map (·.2) = some (some addr)) :
    ∃ s', Run before freeable s' (⟨addr, size⟩ :: live) := by
  obtain ⟨⟨s', _⟩, success, rfl⟩ := Option.map_eq_some_iff.mp result
  exact ⟨s', run.alloc success⟩

/-- The invariant holds after every run. -/
theorem run_inv (run : Run before freeable s live)
    (past : ∀ l, freeable l → orderFor l.size = maxOrder → (before.gPages nPages).isFree = false) :
    ∃ lists free, Inv s live lists free ∧ ∀ i, nPages ≤ i → s.gPages i = before.gPages i := by
  induction run with
  | init => exact ⟨_, _, inv_init before, fun _ large => buddyInit_past before large⟩
  | alloc _ success ih =>
    obtain ⟨lists, free, inv, kept⟩ := ih
    obtain ⟨lists', free', inv', bounds⟩ := inv.alloc success
    exact ⟨lists', free', inv', fun i large => (bounds.past i large).trans (kept i large)⟩
  | outOfMemory _ failure ih =>
    obtain ⟨lists, free, inv, kept⟩ := ih
    exact inv.outOfMemory failure ▸ ⟨lists, free, inv, kept⟩
  | free _ member allowed success ih =>
    obtain ⟨lists, free, inv, kept⟩ := ih
    obtain ⟨s', lists', free', ran, inv', kept', _⟩ :=
      inv.release member fun whole => kept nPages le_rfl ▸ past _ allowed whole
    obtain rfl := Option.some.inj (ran.symm.trans success)
    exact ⟨lists', free', inv', fun i large => (kept' i large).trans (kept i large)⟩

end OsLabs.Buddy
