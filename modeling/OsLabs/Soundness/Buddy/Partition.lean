import Mathlib.Data.List.Nodup
import Mathlib.Order.Bounds.Basic
import OsLabs.Soundness.Buddy.Runs

/-! # The blocks partition the memory

The blocks are read off the state itself: a free block from the list that holds its page, a live
block from the record of the page at its address. Over any run these blocks tile `g_memory`, and a
request fails only when no aligned range of its size is left.
-/

namespace OsLabs.Buddy

open LinkedRing DyadicTiling DyadicTiling.Block

variable {before s s' : Memory} {lists : ℕ → List ℕ} {free : Set Block} {live : List Live} {size : ℤ}

/-- The bytes of a block of an order at an address. -/
structure Extent where
  addr : ℕ
  order : ℕ
deriving DecidableEq, Repr

def Extent.Holds (e : Extent) (byte : ℕ) : Prop := e.addr ≤ byte ∧ byte < e.addr + 2 ^ e.order

def Extent.Apart (e f : Extent) : Prop := ∀ byte, e.Holds byte → ¬ f.Holds byte

/-- The blocks on `free_area[MIN_ORDER..MAX_ORDER]`, list by list. -/
def freeExtents (s : Memory) : List Extent :=
  (List.range' minOrder (maxOrder + 1 - minOrder)).flatMap fun o =>
    (s.freeList o).map fun i => ⟨pageToAddr i, o⟩

/-- A live block, with the order its head page records. -/
def liveExtent (s : Memory) (l : Live) : Extent := ⟨l.addr, (s.gPages (addrToPage l.addr)).blockSize⟩

def extents (s : Memory) (live : List Live) : List Extent := freeExtents s ++ live.map (liveExtent s)

/-- The free and the live blocks partition `g_memory`, and the page records agree with them. -/
structure Partition (s : Memory) (live : List Live) : Prop where
  rings : ∀ o, minOrder ≤ o → o ≤ maxOrder → s.links.Ring (.freeArea o) ((s.freeList o).map .page)
  apart : (extents s live).Pairwise Extent.Apart
  covered : ∀ byte, (∃ e ∈ extents s live, e.Holds byte) ↔ byte < 2 ^ maxOrder
  aligned : ∀ e ∈ extents s live, 2 ^ e.order ∣ e.addr
  freeHead : ∀ e ∈ freeExtents s, (s.gPages (addrToPage e.addr)).isFree = true ∧
    (s.gPages (addrToPage e.addr)).blockSize = e.order
  liveHead : ∀ l ∈ live, (s.gPages (addrToPage l.addr)).isFree = false ∧
    IsLeast {k | minOrder ≤ k ∧ l.size ≤ 2 ^ k} (s.gPages (addrToPage l.addr)).blockSize

/-! ## From blocks to extents -/

def extent (b : Block) : Extent := ⟨b.start, b.order⟩

theorem extent_holds (b : Block) (byte : ℕ) : (extent b).Holds byte ↔ b.Contains byte :=
  (contains_iff b byte).symm

theorem freeList_eq (inv : Inv s live lists free) {o : ℕ} (low : minOrder ≤ o) (high : o ≤ maxOrder) :
    s.freeList o = lists o := inv.rings.freeList_eq low high (inv.valid.lists_length o)

theorem mem_freeExtents (inv : Inv s live lists free) (e : Extent) :
    e ∈ freeExtents s ↔ ∃ b ∈ free, extent b = e := by
  simp only [freeExtents, List.mem_flatMap, List.mem_range'_1, List.mem_map]
  constructor
  · rintro ⟨o, ⟨low, high⟩, i, member, rfl⟩
    rw [freeList_eq inv low (by omega), inv.valid.listed] at member
    obtain ⟨b, inFree, rfl, rfl⟩ := member
    rw [pageToAddr_headPage low]
    exact ⟨b, inFree, rfl⟩
  · rintro ⟨b, inFree, rfl⟩
    have low := inv.valid.coarse (.inl inFree)
    have high := inv.valid.order_le (.inl inFree)
    refine ⟨b.order, ⟨low, by omega⟩, headPage b, ?_, ?_⟩
    · rw [freeList_eq inv low high]
      exact inv.valid.mem_lists inFree
    · rw [pageToAddr_headPage low]
      rfl

/-- No block is on the free lists twice. -/
theorem freeExtents_nodup (inv : Inv s live lists free) : (freeExtents s).Nodup := by
  refine List.nodup_flatMap.mpr ⟨fun o member => ?_, ?_⟩
  · rw [List.mem_range'_1] at member
    rw [freeList_eq inv member.1 (by omega)]
    have distinct : (lists o).Nodup := (inv.valid.sorted o).imp Nat.ne_of_lt
    refine distinct.map_on fun i _ j _ same => ?_
    exact Nat.eq_of_mul_eq_mul_right (by decide) (Extent.mk.inj same).1
  · have orders : (List.range' minOrder (maxOrder + 1 - minOrder)).Nodup := by decide
    refine orders.pairwise_of_forall_ne fun o _ o' _ ne => ?_
    simp only [Function.onFun, List.disjoint_left, List.mem_map]
    rintro e ⟨i, _, rfl⟩ ⟨j, _, same⟩
    exact ne (Extent.mk.inj same).2.symm

theorem liveExtent_eq (inv : Inv s live lists free) {l : Live} (member : l ∈ live) :
    liveExtent s l = extent l.block := by
  have recorded := inv.valid.blockSize l.block (.inr (.inr (mem_liveSet member)))
  rw [headPage, inv.starts l member] at recorded
  rw [liveExtent, recorded, extent, inv.starts l member]

theorem mem_extents (inv : Inv s live lists free) (e : Extent) :
    e ∈ extents s live ↔ ∃ b ∈ free ∪ (∅ ∪ liveSet live), extent b = e := by
  rw [extents, List.mem_append, mem_freeExtents inv]
  simp only [Set.mem_union, Set.mem_empty_iff_false, false_or, or_and_right, exists_or]
  refine or_congr_right ?_
  constructor
  · intro member
    obtain ⟨l, inLive, rfl⟩ := List.mem_map.mp member
    exact ⟨l.block, mem_liveSet inLive, (liveExtent_eq inv inLive).symm⟩
  · rintro ⟨b, member, rfl⟩
    obtain ⟨l, inLive, rfl⟩ := List.mem_map.mp member
    exact List.mem_map.mpr ⟨l, inLive, liveExtent_eq inv inLive⟩

theorem extents_nodup (inv : Inv s live lists free) : (extents s live).Nodup := by
  have injective : Function.Injective extent := by
    intro b c same
    rw [← blockAt_start b, ← blockAt_start c, (Extent.mk.inj same).1, (Extent.mk.inj same).2]
  refine List.nodup_append.mpr ⟨freeExtents_nodup inv, ?_, ?_⟩
  · have same : live.map (liveExtent s) = (live.map Live.block).map extent := by
      rw [List.map_map]
      exact List.map_congr_left fun l member => liveExtent_eq inv member
    rw [same]
    exact inv.distinct.map injective
  · intro e inFree f inLive same
    obtain ⟨b, isFree, rfl⟩ := (mem_freeExtents inv e).mp inFree
    obtain ⟨l, member, rfl⟩ := List.mem_map.mp inLive
    rw [liveExtent_eq inv member] at same
    exact inv.valid.coalesced.apart b isFree (.inr (injective same ▸ mem_liveSet member))

theorem orderFor_isLeast (size : ℤ) : IsLeast {k | minOrder ≤ k ∧ size ≤ 2 ^ k} (orderFor size) :=
  ⟨(orderFor_le_iff size _).mp le_rfl, fun k fits => (orderFor_le_iff size k).mpr fits⟩

theorem Inv.partition (inv : Inv s live lists free) : Partition s live where
  rings o low high := freeList_eq inv low high ▸ inv.rings.ring o low high
  apart := by
    refine (extents_nodup inv).pairwise_of_forall_ne ?_
    intro e inE f inF ne byte held held'
    obtain ⟨b, inB, rfl⟩ := (mem_extents inv e).mp inE
    obtain ⟨c, inC, rfl⟩ := (mem_extents inv f).mp inF
    rw [extent_holds] at held held'
    exact ne (congrArg extent (inv.valid.coalesced.tiling.unique b inB c inC byte held held'))
  covered byte := by
    constructor
    · rintro ⟨e, inE, held⟩
      obtain ⟨b, inB, rfl⟩ := (mem_extents inv e).mp inE
      exact inv.valid.within inB byte ((extent_holds b byte).mp held)
    · intro small
      obtain ⟨b, inB, holds⟩ := inv.valid.coalesced.tiling.cover byte small
      exact ⟨extent b, (mem_extents inv _).mpr ⟨b, inB, rfl⟩, (extent_holds b byte).mpr holds⟩
  aligned e member := by
    obtain ⟨b, _, rfl⟩ := (mem_extents inv e).mp member
    exact Nat.dvd_mul_left _ _
  freeHead e member := by
    obtain ⟨b, inFree, rfl⟩ := (mem_freeExtents inv e).mp member
    have notLive : b ∉ liveSet live := fun inLive => inv.valid.coalesced.apart b inFree (.inr inLive)
    exact ⟨inv.valid.isFree_of_notMem (.inl inFree) notLive, inv.valid.blockSize b (.inl inFree)⟩
  liveHead l member := by
    have inLive : l.block ∈ free ∪ (∅ ∪ liveSet live) := .inr (.inr (mem_liveSet member))
    have unset := (inv.valid.isFree _ (inv.valid.page_lt inLive)).mpr ⟨_, mem_liveSet member, rfl⟩
    have recorded := inv.valid.blockSize _ inLive
    rw [headPage, inv.starts l member] at unset recorded
    exact ⟨unset, recorded ▸ orderFor_isLeast l.size⟩

/-- Over every run the blocks partition the memory, and the legal calls are defined. -/
theorem buddy_partition (past : (before.gPages nPages).isFree = false) (run : AnyRun before s live) :
    Partition s live ∧ (∀ size ≤ 2 ^ 30, ∃ r, buddyAlloc s size = some r) ∧
      ∀ l ∈ live, ∃ s', buddyFree s l.addr = some s' := by
  obtain ⟨lists, free, inv, kept⟩ := run_inv run fun _ _ _ => past
  refine ⟨inv.partition, fun size bound => ?_, fun l member => ?_⟩
  · rcases buddyAlloc_spec inv.valid inv.rings bound with ⟨failed, _⟩ | ⟨s', b, ran, _⟩
    · exact ⟨_, failed⟩
    · exact ⟨_, ran⟩
  · obtain ⟨s', _, _, ran, _⟩ := inv.release member fun _ => kept nPages le_rfl ▸ past
    exact ⟨s', ran⟩

theorem buddy_partition_page : ∃ s, AnyRun zeroed s [⟨0, 4096⟩] ∧ Partition s [⟨0, 4096⟩] := by
  have start : AnyRun zeroed (buddyInit zeroed) [] := .init
  have result : (buddyAlloc (buddyInit zeroed) 4096).map (·.2) = some (some 0) := by decide
  obtain ⟨s, run⟩ := run_alloc start result
  exact ⟨s, run, (buddy_partition rfl run).1⟩

/-! ## Requests that fail -/

/-- An aligned range of `2 ^ k` bytes of `g_memory` that no live block touches. -/
def HasRoom (s : Memory) (live : List Live) (k : ℕ) : Prop :=
  ∃ addr, 2 ^ k ∣ addr ∧ addr + 2 ^ k ≤ 2 ^ maxOrder ∧
    ∀ l ∈ live, Extent.Apart ⟨addr, k⟩ (liveExtent s l)

theorem hasRoom_iff (inv : Inv s live lists free) {k : ℕ} (low : minOrder ≤ k) :
    HasRoom s live k ↔ ∃ j, k ≤ j ∧ j ≤ maxOrder ∧ lists j ≠ [] := by
  constructor
  · rintro ⟨addr, ⟨i, rfl⟩, inside, avoids⟩
    have starts : extent ⟨k, i⟩ = ⟨2 ^ k * i, k⟩ := congrArg (Extent.mk · k) (mul_comm i _)
    have holds (byte : ℕ) (member : (⟨k, i⟩ : Block).Contains byte) :
        Extent.Holds ⟨2 ^ k * i, k⟩ byte := starts ▸ (extent_holds _ byte).mpr member
    obtain ⟨f, inFree, covers⟩ := inv.valid.coalesced.exists_free_covers ⟨k, i⟩ low
      (fun byte member => (holds byte member).2.trans_le inside) fun c inTaken byte member inC => by
        obtain ⟨l, inLive, rfl⟩ := List.mem_map.mp (inTaken.resolve_left id)
        refine avoids l inLive byte (holds byte member) ?_
        rwa [liveExtent_eq inv inLive, extent_holds]
    exact ⟨f.order, covers.order_le, inv.valid.order_le (.inl inFree),
      List.ne_nil_of_mem (inv.valid.mem_lists inFree)⟩
  · rintro ⟨j, above, high, nonempty⟩
    obtain ⟨i, member⟩ := List.exists_mem_of_ne_nil _ nonempty
    obtain ⟨f, inFree, rfl, _⟩ := (inv.valid.listed j i).mp member
    have shorter : 2 ^ k ≤ 2 ^ f.order := Nat.pow_le_pow_right (by decide) above
    refine ⟨f.start, (Nat.pow_dvd_pow 2 above).trans (Nat.dvd_mul_left _ _), ?_, ?_⟩
    · have fits := start_add_le_of_within (inv.valid.within (.inl inFree))
      omega
    · intro l inLive byte held held'
      rw [liveExtent_eq inv inLive, extent_holds] at held'
      have inF : f.Contains byte := (extent_holds f byte).mp ⟨held.1, by
        have above := held.2
        change byte < f.start + 2 ^ f.order
        change byte < f.start + 2 ^ k at above
        omega⟩
      exact inv.valid.coalesced.free_disjoint_taken inFree (.inr (mem_liveSet inLive)) byte inF held'

/-- `buddy_alloc` returns NULL only when no block of the request's order fits, and then changes
nothing. -/
theorem buddy_alloc_complete (past : (before.gPages nPages).isFree = false) (run : AnyRun before s live)
    (bound : size ≤ 2 ^ 30) {k : ℕ} (least : IsLeast {k | minOrder ≤ k ∧ size ≤ 2 ^ k} k) :
    ((∃ s', buddyAlloc s size = some (s', none)) ↔ k > maxOrder ∨ ¬ HasRoom s live k) ∧
      (∀ s', buddyAlloc s size = some (s', none) → s' = s) ∧ ∃ r, buddyAlloc s size = some r := by
  obtain ⟨lists, free, inv, _⟩ := run_inv run fun _ _ _ => past
  obtain rfl := least.unique (orderFor_isLeast size)
  have room := hasRoom_iff inv (minOrder_le_orderFor size)
  rcases buddyAlloc_spec inv.valid inv.rings bound with ⟨failed, empty⟩ | ⟨t, b, ran, allocated⟩
  · refine ⟨iff_of_true ⟨s, failed⟩ (.inr ?_), fun s' => inv.outOfMemory, ⟨_, failed⟩⟩
    rw [room]
    rintro ⟨j, above, high, nonempty⟩
    exact nonempty (empty j above high)
  · obtain ⟨_, rest, p, above, high, first, _⟩ := allocated.result
    refine ⟨iff_of_false ?_ ?_, fun s' => inv.outOfMemory, ⟨_, ran⟩⟩
    · simp only [ran, Option.some.injEq, Prod.mk.injEq, reduceCtorEq, and_false, exists_false,
        not_false_eq_true]
    · rintro (large | full)
      · omega
      · exact full (room.mpr ⟨p, above, high, first ▸ List.cons_ne_nil _ _⟩)

theorem buddy_alloc_complete_full : ∃ s, AnyRun zeroed s [⟨0, 1048576⟩] ∧
    ((∃ s', buddyAlloc s 1 = some (s', none)) ↔
      orderFor 1 > maxOrder ∨ ¬ HasRoom s [⟨0, 1048576⟩] (orderFor 1)) := by
  have start : AnyRun zeroed (buddyInit zeroed) [] := .init
  have result : (buddyAlloc (buddyInit zeroed) 1048576).map (·.2) = some (some 0) := by decide
  obtain ⟨s, run⟩ := run_alloc start result
  exact ⟨s, run, (buddy_alloc_complete rfl run (by decide) (orderFor_isLeast 1)).1⟩

end OsLabs.Buddy
