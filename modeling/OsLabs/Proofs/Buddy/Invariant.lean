import Mathlib.Data.List.Perm.Subperm
import OsLabs.ToMathlib.DyadicTiling
import OsLabs.Proofs.Buddy.FreeLists

/-! # The allocator invariant

`Valid` relates the page records and the free lists to a coalesced tiling of `g_memory`. Between
two steps of an operation one block may be in hand: it is on no list and not yet live. A page has
`is_free` unset exactly when it heads a live block, which is why the stale records of pages inside
a block cannot mislead `buddy_combine`.
-/

namespace OsLabs.Buddy

open LinkedRing DyadicTiling DyadicTiling.Block

theorem memorySize_eq : 2 ^ maxOrder = nPages * pageSize := rfl

/-- The page that heads a block. -/
def headPage (b : Block) : ℕ := addrToPage b.start

/-- The block of an order at an address. -/
def blockAt (addr order : ℕ) : Block := ⟨order, addr / 2 ^ order⟩

theorem pageSize_dvd_start {b : Block} (coarse : minOrder ≤ b.order) : pageSize ∣ b.start :=
  (Nat.pow_dvd_pow 2 coarse).trans (Nat.dvd_mul_left _ _)

theorem pageToAddr_headPage {b : Block} (coarse : minOrder ≤ b.order) :
    pageToAddr (headPage b) = b.start :=
  Nat.div_mul_cancel (pageSize_dvd_start coarse)

theorem headPage_lt {b : Block} (within : b.Within (2 ^ maxOrder)) : headPage b < nPages :=
  Nat.div_lt_of_lt_mul (by
    rw [mul_comm, ← memorySize_eq]
    exact within _ (contains_start b))

/-- `BUDDY_ADDR` computes the start of the buddy block. -/
theorem buddyAddr_start (b : Block) : buddyAddr b.start b.order = b.buddy.start := by
  simp only [buddyAddr, start, buddy, ← Nat.shiftLeft_eq, ← Nat.shiftLeft_xor_distrib]

theorem lookup_eq {b : Block} (coarse : minOrder ≤ b.order) :
    addrToPage (buddyAddr (pageToAddr (headPage b)) b.order) = headPage b.buddy := by
  rw [pageToAddr_headPage coarse, buddyAddr_start, headPage]

/-- Distinct blocks of a tiling are headed by distinct pages. -/
theorem eq_of_headPage {blocks : Set Block} {b c : Block} (tiling : Tiling maxOrder minOrder blocks)
    (inB : b ∈ blocks) (inC : c ∈ blocks) (same : headPage b = headPage c) : b = c := by
  have starts : b.start = c.start := by
    rw [← pageToAddr_headPage (tiling.coarse b inB), ← pageToAddr_headPage (tiling.coarse c inC), same]
  exact tiling.unique b inB c inC b.start (contains_start b) (starts ▸ contains_start c)

/-- The page records, the free lists and the blocks of memory agree. -/
structure Valid (s : Memory) (lists : ℕ → List ℕ) (free hand live : Set Block) : Prop where
  coalesced : Coalesced maxOrder minOrder free (hand ∪ live)
  handApart : ∀ b ∈ hand, b ∉ live
  listed : ∀ o i, i ∈ lists o ↔ ∃ b ∈ free, b.order = o ∧ headPage b = i
  sorted : ∀ o, (lists o).Pairwise (· < ·)
  indexed : ∀ i < nPages, (s.gPages i).index = i
  bounded : ∀ i < nPages, (s.gPages i).blockSize ≤ maxOrder
  isFree : ∀ i < nPages, (s.gPages i).isFree = false ↔ ∃ b ∈ live, headPage b = i
  blockSize : ∀ b ∈ free ∪ (hand ∪ live), (s.gPages (headPage b)).blockSize = b.order

namespace Valid

variable {s : Memory} {lists : ℕ → List ℕ} {free hand live : Set Block} {b c : Block}

theorem coarse (valid : Valid s lists free hand live) (member : b ∈ free ∪ (hand ∪ live)) :
    minOrder ≤ b.order := valid.coalesced.tiling.coarse b member

theorem within (valid : Valid s lists free hand live) (member : b ∈ free ∪ (hand ∪ live)) :
    b.Within (2 ^ maxOrder) := valid.coalesced.tiling.within b member

theorem order_le (valid : Valid s lists free hand live) (member : b ∈ free ∪ (hand ∪ live)) :
    b.order ≤ maxOrder := order_le_of_within (valid.within member)

theorem page_lt (valid : Valid s lists free hand live) (member : b ∈ free ∪ (hand ∪ live)) :
    headPage b < nPages := headPage_lt (valid.within member)

theorem index_eq (valid : Valid s lists free hand live) (member : b ∈ free ∪ (hand ∪ live)) :
    (s.gPages (headPage b)).index = headPage b := valid.indexed _ (valid.page_lt member)

/-- The head page of a block that is not live has `is_free` set. -/
theorem isFree_of_notMem (valid : Valid s lists free hand live) (member : b ∈ free ∪ (hand ∪ live))
    (notLive : b ∉ live) : (s.gPages (headPage b)).isFree = true := by
  by_contra unset
  obtain ⟨c, inC, same⟩ :=
    (valid.isFree _ (valid.page_lt member)).mp (Bool.eq_false_iff.mpr unset)
  exact notLive (eq_of_headPage valid.coalesced.tiling member (.inr (.inr inC)) same.symm ▸ inC)

theorem mem_lists (valid : Valid s lists free hand live) (inFree : b ∈ free) :
    headPage b ∈ lists b.order := (valid.listed _ _).mpr ⟨b, inFree, rfl, rfl⟩

theorem notMem_lists (valid : Valid s lists free hand live) (inHand : b ∈ hand ∪ live) (o : ℕ) :
    headPage b ∉ lists o := by
  intro member
  obtain ⟨c, inFree, _, same⟩ := (valid.listed o _).mp member
  have equal := eq_of_headPage valid.coalesced.tiling (.inl inFree) (.inr inHand) same
  exact valid.coalesced.apart c inFree (equal ▸ inHand)

theorem lists_length (valid : Valid s lists free hand live) (o : ℕ) : (lists o).length ≤ nPages := by
  have small : ∀ i ∈ lists o, i ∈ List.range nPages := by
    intro i member
    obtain ⟨b, inFree, _, rfl⟩ := (valid.listed o i).mp member
    exact List.mem_range.mpr (valid.page_lt (.inl inFree))
  have distinct : (lists o).Nodup := (valid.sorted o).imp Nat.ne_of_lt
  exact (List.subperm_of_subset distinct small).length_le.trans_eq List.length_range

/-- What the free lists hold is determined by the free blocks. -/
theorem lists_unique {s' : Memory} {lists' : ℕ → List ℕ} {hand' live' : Set Block}
    (first : Valid s lists free hand live) (second : Valid s' lists' free hand' live') (o : ℕ) :
    lists o = lists' o := by
  have same : ∀ i, i ∈ lists o ↔ i ∈ lists' o := fun i => by rw [first.listed, second.listed]
  have perm : (lists o).Perm (lists' o) := (List.perm_ext_iff_of_nodup
    ((first.sorted o).imp Nat.ne_of_lt) ((second.sorted o).imp Nat.ne_of_lt)).mpr same
  exact perm.eq_of_pairwise (fun _ _ _ _ below above => absurd below (Nat.not_lt_of_gt above))
    (first.sorted o) (second.sorted o)

/-- Pointer writes and the ghost log do not matter to the page records. -/
theorem of_gPages {s' : Memory} (valid : Valid s lists free hand live)
    (same : s'.gPages = s.gPages) : Valid s' lists free hand live where
  coalesced := valid.coalesced
  handApart := valid.handApart
  listed := valid.listed
  sorted := valid.sorted
  indexed := same ▸ valid.indexed
  bounded := same ▸ valid.bounded
  isFree := same ▸ valid.isFree
  blockSize := same ▸ valid.blockSize

end Valid

theorem setPage_self (s : Memory) (i : ℕ) (page : PageT) : (s.setPage i page).gPages i = page :=
  Function.update_self ..

theorem setPage_of_ne (s : Memory) {i j : ℕ} (page : PageT) (ne : j ≠ i) :
    (s.setPage i page).gPages j = s.gPages j := Function.update_of_ne ne ..

@[simp] theorem setPage_links (s : Memory) (i : ℕ) (page : PageT) :
    (s.setPage i page).links = s.links := rfl

@[simp] theorem setLinks_links (s : Memory) (l : Links Node) : (s.setLinks l).links = l := rfl

@[simp] theorem setLinks_gPages (s : Memory) (l : Links Node) : (s.setLinks l).gPages = s.gPages := rfl

@[simp] theorem lookup_links (s : Memory) (i : ℕ) : (s.lookup i).links = s.links := rfl

@[simp] theorem lookup_gPages (s : Memory) (i : ℕ) : (s.lookup i).gPages = s.gPages := rfl

@[simp] theorem setBlockSize_links (s : Memory) (i size : ℕ) :
    (s.setBlockSize i size).links = s.links := rfl

@[simp] theorem setIsFree_links (s : Memory) (i : ℕ) (isFree : Bool) :
    (s.setIsFree i isFree).links = s.links := rfl

@[simp] theorem setBlockSize_index (s : Memory) (i size j : ℕ) :
    ((s.setBlockSize i size).gPages j).index = (s.gPages j).index := by
  by_cases same : j = i
  · subst same
    rw [Memory.setBlockSize, setPage_self]
  · rw [Memory.setBlockSize, setPage_of_ne _ _ same]

@[simp] theorem setBlockSize_isFree (s : Memory) (i size j : ℕ) :
    ((s.setBlockSize i size).gPages j).isFree = (s.gPages j).isFree := by
  by_cases same : j = i
  · subst same
    rw [Memory.setBlockSize, setPage_self]
  · rw [Memory.setBlockSize, setPage_of_ne _ _ same]

theorem setBlockSize_blockSize (s : Memory) (i size j : ℕ) :
    ((s.setBlockSize i size).gPages j).blockSize = if j = i then size else (s.gPages j).blockSize := by
  split
  · next same =>
    subst same
    rw [Memory.setBlockSize, setPage_self]
  · next ne => rw [Memory.setBlockSize, setPage_of_ne _ _ ne]

@[simp] theorem setIsFree_index (s : Memory) (i j : ℕ) (isFree : Bool) :
    ((s.setIsFree i isFree).gPages j).index = (s.gPages j).index := by
  by_cases same : j = i
  · subst same
    rw [Memory.setIsFree, setPage_self]
  · rw [Memory.setIsFree, setPage_of_ne _ _ same]

@[simp] theorem setIsFree_blockSize (s : Memory) (i j : ℕ) (isFree : Bool) :
    ((s.setIsFree i isFree).gPages j).blockSize = (s.gPages j).blockSize := by
  by_cases same : j = i
  · subst same
    rw [Memory.setIsFree, setPage_self]
  · rw [Memory.setIsFree, setPage_of_ne _ _ same]

theorem setIsFree_isFree (s : Memory) (i j : ℕ) (isFree : Bool) :
    ((s.setIsFree i isFree).gPages j).isFree = if j = i then isFree else (s.gPages j).isFree := by
  split
  · next same =>
    subst same
    rw [Memory.setIsFree, setPage_self]
  · next ne => rw [Memory.setIsFree, setPage_of_ne _ _ ne]

/-- A part of an operation that computes and writes indices of `g_pages` only. -/
structure InBounds (s s' : Memory) : Prop where
  lookups : ∀ i ∈ s'.lookups, i ∈ s.lookups ∨ i < nPages
  past : ∀ i, nPages ≤ i → s'.gPages i = s.gPages i

namespace InBounds

variable {s s' s'' : Memory} {i : ℕ}

theorem refl (s : Memory) : InBounds s s := ⟨fun _ member => .inl member, fun _ _ => rfl⟩

theorem trans (first : InBounds s s') (second : InBounds s' s'') : InBounds s s'' where
  lookups i member := by
    rcases second.lookups i member with member | small
    · exact first.lookups i member
    · exact .inr small
  past i large := (second.past i large).trans (first.past i large)

theorem setLinks (bounds : InBounds s s') (l : Links Node) : InBounds s (s'.setLinks l) :=
  ⟨bounds.lookups, bounds.past⟩

theorem lookup (bounds : InBounds s s') (small : i < nPages) : InBounds s (s'.lookup i) where
  lookups j member := by
    rcases List.mem_cons.mp member with rfl | member
    · exact .inr small
    · exact bounds.lookups j member
  past := bounds.past

theorem setPage (bounds : InBounds s s') (small : i < nPages) (page : PageT) :
    InBounds s (s'.setPage i page) where
  lookups := bounds.lookups
  past j large := (setPage_of_ne s' page (by omega)).trans (bounds.past j large)

theorem setBlockSize (bounds : InBounds s s') (small : i < nPages) (size : ℕ) :
    InBounds s (s'.setBlockSize i size) := bounds.setPage small _

theorem setIsFree (bounds : InBounds s s') (small : i < nPages) (isFree : Bool) :
    InBounds s (s'.setIsFree i isFree) := bounds.setPage small _

end InBounds

end OsLabs.Buddy
