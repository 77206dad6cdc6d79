import Mathlib.Data.Set.Insert
import Mathlib.Data.Nat.Bitwise
import Mathlib.Algebra.Order.Ring.Nat
import Mathlib.Tactic.Ring

/-! # Coalesced tilings by dyadic blocks

A dyadic block of order `o` is an interval of `2 ^ o` cells that starts at a multiple of `2 ^ o`.
Two dyadic blocks are nested or disjoint. A tiling of `2 ^ N` cells by free and taken blocks is
coalesced when no two buddies are free together; the taken blocks then determine the free ones,
and every block that avoids the taken cells lies inside one free block. Splitting, merging,
taking and releasing are the moves that keep a tiling coalesced.
-/

namespace DyadicTiling

/-- The block of the cells whose quotient by `2 ^ order` is `index`. -/
@[ext] structure Block where
  order : ℕ
  index : ℕ
deriving DecidableEq, Repr

namespace Block

def start (b : Block) : ℕ := b.index * 2 ^ b.order

def Contains (b : Block) (cell : ℕ) : Prop := cell / 2 ^ b.order = b.index

instance (b : Block) (cell : ℕ) : Decidable (b.Contains cell) :=
  inferInstanceAs (Decidable (_ = _))

/-- The other half of the parent block. -/
def buddy (b : Block) : Block := ⟨b.order, b.index ^^^ 1⟩

def parent (b : Block) : Block := ⟨b.order + 1, b.index / 2⟩

/-- The lower half of a block. -/
def lower (b : Block) : Block := ⟨b.order - 1, 2 * b.index⟩

def Within (limit : ℕ) (b : Block) : Prop := ∀ cell, b.Contains cell → cell < limit

def Disjoint (b c : Block) : Prop := ∀ cell, b.Contains cell → ¬ c.Contains cell

def Covers (b c : Block) : Prop := ∀ cell, c.Contains cell → b.Contains cell

theorem contains_iff (b : Block) (cell : ℕ) :
    b.Contains cell ↔ b.start ≤ cell ∧ cell < b.start + 2 ^ b.order := by
  have positive : 0 < 2 ^ b.order := Nat.two_pow_pos _
  rw [Contains, Nat.div_eq_iff positive, start]
  omega

theorem contains_start (b : Block) : b.Contains b.start :=
  Nat.mul_div_cancel _ (Nat.two_pow_pos _)

@[simp] theorem buddy_buddy (b : Block) : b.buddy.buddy = b := by
  ext
  · rfl
  · simp only [buddy, Nat.xor_assoc, Nat.xor_self, Nat.xor_zero]

theorem index_xor_one (n : ℕ) : n ^^^ 1 = if n % 2 = 0 then n + 1 else n - 1 := by
  split
  · next even => exact Nat.xor_one_of_even (Nat.even_iff.mpr even)
  · next odd => exact Nat.xor_one_of_odd (Nat.odd_iff.mpr (by omega))

theorem buddy_ne (b : Block) : b.buddy ≠ b := by
  intro equal
  have same := congrArg Block.index equal
  simp only [buddy, index_xor_one] at same
  split at same <;> omega

/-- The parent is exactly the union of a block and its buddy. -/
theorem parent_contains_iff (b : Block) (cell : ℕ) :
    b.parent.Contains cell ↔ b.Contains cell ∨ b.buddy.Contains cell := by
  simp only [Contains, parent, buddy, index_xor_one, Nat.pow_succ, ← Nat.div_div_eq_div_mul]
  split <;> omega

theorem parent_contains_of_child {b c : Block} {cell : ℕ} (child : b = c ∨ b = c.buddy)
    (inside : b.Contains cell) : c.parent.Contains cell := by
  rw [parent_contains_iff]
  rcases child with rfl | rfl
  · exact .inl inside
  · exact .inr inside

@[simp] theorem parent_buddy (b : Block) : b.buddy.parent = b.parent := by
  ext
  · rfl
  · simp only [parent, buddy, index_xor_one]
    split <;> omega

theorem buddy_disjoint (b : Block) : b.Disjoint b.buddy := by
  intro cell inside other
  exact buddy_ne b (Block.ext rfl (other.symm.trans inside))

theorem parent_lower (b : Block) (positive : 0 < b.order) : b.lower.parent = b := by
  ext
  · simp only [parent, lower]; omega
  · simp only [parent, lower]; omega

theorem start_lower (b : Block) (positive : 0 < b.order) : b.lower.start = b.start := by
  obtain ⟨order, index⟩ := b
  cases order with
  | zero => contradiction
  | succ order => simp only [lower, start, Nat.add_sub_cancel, Nat.pow_succ]; ring

theorem buddy_start_lower (b : Block) (positive : 0 < b.order) :
    b.lower.buddy.start = b.start + 2 ^ (b.order - 1) := by
  rw [← start_lower b positive]
  simp only [buddy, lower, start, index_xor_one, Nat.mul_mod_right, ↓reduceIte]
  ring

/-- The parent starts where the first of the two buddies starts. -/
theorem parent_start (b : Block) : b.parent.start = min b.start b.buddy.start := by
  have positive : 0 < 2 ^ b.order := Nat.two_pow_pos _
  simp only [start, parent, buddy, index_xor_one, Nat.pow_succ]
  split
  · next even =>
    rw [min_eq_left (Nat.mul_le_mul_right _ (by omega)), mul_comm (2 ^ b.order) 2, ← mul_assoc]
    congr 1
    omega
  · next odd =>
    rw [min_eq_right (Nat.mul_le_mul_right _ (by omega)), mul_comm (2 ^ b.order) 2, ← mul_assoc]
    congr 1
    omega

/-- Blocks that share a cell are nested, the smaller in the larger. -/
theorem covers_of_common {b c : Block} {cell : ℕ} (inB : b.Contains cell) (inC : c.Contains cell)
    (orders : c.order ≤ b.order) : b.Covers c := by
  intro other member
  have split : 2 ^ b.order = 2 ^ c.order * 2 ^ (b.order - c.order) := by
    rw [← Nat.pow_add, Nat.add_sub_cancel' orders]
  simp only [Contains] at *
  rw [split, ← Nat.div_div_eq_div_mul] at inB ⊢
  rw [member, ← inC, inB]

theorem eq_of_common {b c : Block} {cell : ℕ} (inB : b.Contains cell) (inC : c.Contains cell)
    (orders : c.order = b.order) : b = c := by
  simp only [Contains, orders] at inB inC
  exact Block.ext orders.symm (inB.symm.trans inC)

theorem Covers.within {b c : Block} {limit : ℕ} (covers : b.Covers c) (within : b.Within limit) :
    c.Within limit :=
  fun cell member => within cell (covers cell member)

theorem covers_parent_of_lt {b c : Block} {cell : ℕ} (inB : b.Contains cell)
    (inC : c.Contains cell) (orders : c.order < b.order) : b.Covers c.parent :=
  covers_of_common inB ((parent_contains_iff c cell).mpr (.inl inC)) orders

theorem Covers.order_le {b c : Block} (covers : b.Covers c) : c.order ≤ b.order := by
  by_contra large
  have inParent := covers_parent_of_lt (contains_start c) (covers _ (contains_start c))
    (Nat.not_le.mp large)
  have inBuddy := covers _ (inParent _ (parent_contains_of_child (.inr rfl) (contains_start b.buddy)))
  exact buddy_disjoint b _ inBuddy (contains_start _)

/-- A block covered by a larger one has its parent covered as well. -/
theorem Covers.eq_or_parent {b c : Block} (covers : b.Covers c) : b = c ∨ b.Covers c.parent := by
  rcases covers.order_le.lt_or_eq with small | same
  · exact .inr (covers_parent_of_lt (covers _ (contains_start c)) (contains_start c) small)
  · exact .inl (eq_of_common (covers _ (contains_start c)) (contains_start c) same)

theorem order_le_of_within {b : Block} {N : ℕ} (within : b.Within (2 ^ N)) : b.order ≤ N := by
  have positive : 0 < 2 ^ b.order := Nat.two_pow_pos _
  have last := within (b.start + (2 ^ b.order - 1)) ((contains_iff _ _).mpr (by omega))
  exact (Nat.pow_le_pow_iff_right (by decide : 1 < 2)).mp (by omega)

theorem index_eq_zero_of_order {b : Block} {N : ℕ} (within : b.Within (2 ^ N))
    (order : b.order = N) : b.index = 0 := by
  have first := within _ (contains_start b)
  rw [start, order] at first
  exact Nat.lt_one_iff.mp (Nat.lt_of_mul_lt_mul_right (by omega : b.index * 2 ^ N < 1 * 2 ^ N))

/-- Below the whole space a block's parent, hence its buddy, stays inside. -/
theorem parent_within {b : Block} {N : ℕ} (within : b.Within (2 ^ N)) (small : b.order < N) :
    b.parent.Within (2 ^ N) := by
  have whole : (⟨N, 0⟩ : Block).Contains b.start :=
    Nat.div_eq_of_lt (within _ (contains_start b))
  have covers := covers_parent_of_lt whole (contains_start b) small
  exact covers.within fun cell member =>
    (Nat.div_eq_zero_iff_lt (Nat.two_pow_pos N)).mp member

theorem buddy_within {b : Block} {N : ℕ} (within : b.Within (2 ^ N)) (small : b.order < N) :
    b.buddy.Within (2 ^ N) :=
  fun cell member => parent_within within small cell ((parent_contains_iff b cell).mpr (.inr member))

theorem start_add_le_of_within {b : Block} {limit : ℕ} (within : b.Within limit) :
    b.start + 2 ^ b.order ≤ limit := by
  have positive : 0 < 2 ^ b.order := Nat.two_pow_pos _
  have last := within (b.start + (2 ^ b.order - 1)) ((contains_iff _ _).mpr (by omega))
  omega

end Block

/-- The blocks of `blocks` partition `2 ^ N` cells and have order at least `m`. -/
structure Tiling (N m : ℕ) (blocks : Set Block) : Prop where
  cover : ∀ cell < 2 ^ N, ∃ b ∈ blocks, b.Contains cell
  unique : ∀ b ∈ blocks, ∀ c ∈ blocks, ∀ cell, b.Contains cell → c.Contains cell → b = c
  within : ∀ b ∈ blocks, b.Within (2 ^ N)
  coarse : ∀ b ∈ blocks, m ≤ b.order

namespace Tiling

open Block

variable {N m : ℕ} {blocks : Set Block}

theorem whole (bound : m ≤ N) : Tiling N m {⟨N, 0⟩} where
  cover cell small := ⟨⟨N, 0⟩, rfl, Nat.div_eq_of_lt small⟩
  unique b inB c inC _ _ _ := inB.trans inC.symm
  within := by
    rintro b rfl
    exact fun cell member => (Nat.div_eq_zero_iff_lt (Nat.two_pow_pos N)).mp member
  coarse := by
    rintro b rfl
    exact bound

/-- A block met by a tile of larger order is that tile's descendant, so no tile itself. -/
theorem eq_of_covers (tiling : Tiling N m blocks) {b c : Block} (inB : b ∈ blocks)
    (inC : c ∈ blocks) (covers : b.Covers c) : b = c :=
  tiling.unique b inB c inC _ (covers _ (contains_start c)) (contains_start c)

theorem parent_notMem (tiling : Tiling N m blocks) {b : Block} (member : b ∈ blocks) :
    b.parent ∉ blocks := by
  intro inParent
  have covers : b.parent.Covers b := fun _ inside => parent_contains_of_child (.inl rfl) inside
  have order := congrArg Block.order (tiling.eq_of_covers inParent member covers)
  simp only [parent] at order
  omega

/-- The halves of a tile are no tiles. -/
theorem child_notMem (tiling : Tiling N m blocks) {b c : Block} (parent : c.parent ∈ blocks)
    (child : b = c ∨ b = c.buddy) : b ∉ blocks := by
  intro member
  rcases child with rfl | rfl
  · exact tiling.parent_notMem member parent
  · exact tiling.parent_notMem member (parent_buddy c ▸ parent)

/-- Replacing a tile by its two halves. -/
theorem split (tiling : Tiling N m blocks) {c : Block} (parent : c.parent ∈ blocks)
    (coarse : m ≤ c.order) :
    Tiling N m {b | b = c ∨ b = c.buddy ∨ (b ∈ blocks ∧ b ≠ c.parent)} where
  cover cell bound := by
    obtain ⟨b, member, inside⟩ := tiling.cover cell bound
    by_cases equal : b = c.parent
    · rcases (parent_contains_iff c cell).mp (equal ▸ inside) with inside | inside
      · exact ⟨c, .inl rfl, inside⟩
      · exact ⟨c.buddy, .inr (.inl rfl), inside⟩
    · exact ⟨b, .inr (.inr ⟨member, equal⟩), inside⟩
  unique := by
    have kept {b d : Block} {cell : ℕ} (child : b = c ∨ b = c.buddy) (member : d ∈ blocks)
        (other : d ≠ c.parent) (inB : b.Contains cell) : ¬ d.Contains cell := by
      intro inD
      have inParent := parent_contains_of_child child inB
      exact other (tiling.unique d member _ parent cell inD inParent)
    rintro b (rfl | rfl | ⟨inB, neB⟩) d (rfl | rfl | ⟨inD, neD⟩) cell cellB cellD
    · rfl
    · exact (buddy_disjoint b cell cellB cellD).elim
    · exact (kept (.inl rfl) inD neD cellB cellD).elim
    · exact (buddy_disjoint d cell cellD cellB).elim
    · rfl
    · exact (kept (.inr rfl) inD neD cellB cellD).elim
    · exact (kept (.inl rfl) inB neB cellD cellB).elim
    · exact (kept (.inr rfl) inB neB cellD cellB).elim
    · exact tiling.unique b inB d inD cell cellB cellD
  within := by
    have inside := tiling.within _ parent
    rintro b (rfl | rfl | ⟨inB, _⟩) cell member
    · exact inside cell ((parent_contains_iff b cell).mpr (.inl member))
    · exact inside cell ((parent_contains_iff c cell).mpr (.inr member))
    · exact tiling.within b inB cell member
  coarse := by
    rintro b (rfl | rfl | ⟨inB, _⟩)
    · exact coarse
    · exact coarse
    · exact tiling.coarse b inB

/-- Replacing two buddies by their parent. -/
theorem merge (tiling : Tiling N m blocks) {c : Block} (first : c ∈ blocks)
    (second : c.buddy ∈ blocks) :
    Tiling N m {b | b = c.parent ∨ (b ∈ blocks ∧ b ≠ c ∧ b ≠ c.buddy)} where
  cover cell bound := by
    obtain ⟨b, member, inside⟩ := tiling.cover cell bound
    by_cases child : b = c ∨ b = c.buddy
    · exact ⟨c.parent, .inl rfl, parent_contains_of_child child inside⟩
    · exact ⟨b, .inr ⟨member, not_or.mp child⟩, inside⟩
  unique := by
    have kept {b : Block} {cell : ℕ} (member : b ∈ blocks) (other : b ≠ c ∧ b ≠ c.buddy)
        (inB : b.Contains cell) : ¬ c.parent.Contains cell := by
      intro inParent
      rcases (parent_contains_iff c cell).mp inParent with inside | inside
      · exact other.1 (tiling.unique b member c first cell inB inside)
      · exact other.2 (tiling.unique b member _ second cell inB inside)
    rintro b (rfl | ⟨inB, neB⟩) d (rfl | ⟨inD, neD⟩) cell cellB cellD
    · rfl
    · exact (kept inD neD cellD cellB).elim
    · exact (kept inB neB cellB cellD).elim
    · exact tiling.unique b inB d inD cell cellB cellD
  within := by
    rintro b (rfl | ⟨inB, _⟩) cell member
    · rcases (parent_contains_iff c cell).mp member with inside | inside
      · exact tiling.within c first cell inside
      · exact tiling.within _ second cell inside
    · exact tiling.within b inB cell member
  coarse := by
    rintro b (rfl | ⟨inB, _⟩)
    · exact (tiling.coarse c first).trans (Nat.le_succ _)
    · exact tiling.coarse b inB

/-- Whatever tile meets the first cell of a tile's buddy starts there and is no larger. -/
theorem exists_head_of_buddy (tiling : Tiling N m blocks) {b : Block} (member : b ∈ blocks)
    (small : b.order < N) :
    ∃ c ∈ blocks, c ≠ b ∧ c.start = b.buddy.start ∧ c.order ≤ b.order := by
  have inside := buddy_within (tiling.within b member) small
  obtain ⟨c, inC, meets⟩ := tiling.cover _ (inside _ (contains_start b.buddy))
  have other : c ≠ b := by
    rintro rfl
    exact buddy_disjoint c _ meets (contains_start _)
  have order : c.order ≤ b.order := by
    by_contra large
    have covers := covers_parent_of_lt meets (contains_start b.buddy) (Nat.not_le.mp large)
    rw [parent_buddy] at covers
    exact other (tiling.eq_of_covers inC member fun cell inB =>
      covers cell ((parent_contains_iff b cell).mpr (.inl inB)))
  refine ⟨c, inC, other, ?_, order⟩
  have divides : 2 ^ c.order ∣ b.buddy.start :=
    (Nat.pow_dvd_pow 2 order).trans (Nat.dvd_mul_left _ _)
  exact (congrArg (· * 2 ^ c.order) meets.symm).trans (Nat.div_mul_cancel divides)

end Tiling

/-- `free` and `taken` tile `2 ^ N` cells together, and no two buddies are both free. -/
structure Coalesced (N m : ℕ) (free taken : Set Block) : Prop where
  tiling : Tiling N m (free ∪ taken)
  apart : ∀ b ∈ free, b ∉ taken
  buddies : ∀ b ∈ free, b.buddy ∉ free

namespace Coalesced

open Block

variable {N m : ℕ} {free taken : Set Block}

theorem free_disjoint_taken (valid : Coalesced N m free taken) {b c : Block}
    (inFree : b ∈ free) (inTaken : c ∈ taken) : b.Disjoint c := by
  intro cell inB inC
  have equal := valid.tiling.unique b (.inl inFree) c (.inr inTaken) cell inB inC
  exact valid.apart b inFree (equal ▸ inTaken)

/-- The whole space as one free block. -/
theorem whole (bound : m ≤ N) : Coalesced N m {⟨N, 0⟩} ∅ where
  tiling := by simpa only [Set.union_empty] using Tiling.whole bound
  apart _ _ inTaken := inTaken
  buddies := by
    rintro b rfl
    exact buddy_ne _

/-- Taking a free block. -/
theorem take (valid : Coalesced N m free taken) {b : Block} (inFree : b ∈ free) :
    Coalesced N m (free \ {b}) (insert b taken) where
  tiling := by
    have same : free \ {b} ∪ insert b taken = free ∪ taken := by
      rw [Set.union_insert, ← Set.insert_union, Set.insert_sdiff_singleton, Set.insert_eq_of_mem inFree]
    exact same ▸ valid.tiling
  apart := by
    rintro c ⟨inC, ne⟩ (rfl | inTaken)
    · exact ne rfl
    · exact valid.apart c inC inTaken
  buddies c inC inBuddy := valid.buddies c inC.1 inBuddy.1

/-- Releasing a taken block whose buddy is not free. -/
theorem release (valid : Coalesced N m free taken) {b : Block} (inTaken : b ∈ taken)
    (alone : b.buddy ∉ free) : Coalesced N m (insert b free) (taken \ {b}) where
  tiling := by
    have same : insert b free ∪ taken \ {b} = free ∪ taken := by
      rw [Set.insert_union, ← Set.union_insert, Set.insert_sdiff_singleton, Set.insert_eq_of_mem inTaken]
    exact same ▸ valid.tiling
  apart := by
    rintro c (rfl | inC) ⟨other, ne⟩
    · exact ne rfl
    · exact valid.apart c inC other
  buddies := by
    rintro c (rfl | inC) (equal | inBuddy)
    · exact buddy_ne _ equal
    · exact alone inBuddy
    · exact alone (by rw [← equal, buddy_buddy]; exact inC)
    · exact valid.buddies c inC inBuddy

/-- Splitting a taken block: its child `c` stays taken, the buddy of `c` becomes free. -/
theorem split (valid : Coalesced N m free taken) {c : Block} (inTaken : c.parent ∈ taken)
    (coarse : m ≤ c.order) :
    Coalesced N m (insert c.buddy free) (insert c (taken \ {c.parent})) := by
  have fresh {b : Block} (child : b = c ∨ b = c.buddy) : b ∉ free ∪ taken :=
    valid.tiling.child_notMem (.inr inTaken) child
  refine ⟨?_, ?_, ?_⟩
  · convert valid.tiling.split (.inr inTaken) coarse using 1
    ext b
    have kept (inFree : b ∈ free) : b ≠ c.parent :=
      fun equal => valid.apart b inFree (equal ▸ inTaken)
    simp only [Set.mem_union, Set.mem_insert_iff, Set.mem_sdiff, Set.mem_singleton_iff, Set.mem_ofPred_eq]
    tauto
  · rintro b (rfl | inFree) (equal | ⟨inT, _⟩)
    · exact buddy_ne c equal
    · exact fresh (.inr rfl) (.inr inT)
    · exact fresh (.inl equal) (.inl inFree)
    · exact valid.apart b inFree inT
  · rintro b (rfl | inFree) (equal | inBuddy)
    · exact buddy_ne _ equal
    · rw [buddy_buddy] at inBuddy
      exact fresh (.inl rfl) (.inl inBuddy)
    · exact fresh (.inl (by rw [← buddy_buddy b, equal, buddy_buddy])) (.inl inFree)
    · exact valid.buddies b inFree inBuddy

/-- Merging a taken block with its free buddy; the parent is taken. -/
theorem merge (valid : Coalesced N m free taken) {b : Block} (inTaken : b ∈ taken)
    (inFree : b.buddy ∈ free) :
    Coalesced N m (free \ {b.buddy}) (insert b.parent (taken \ {b})) := by
  have fresh : b.parent ∉ free ∪ taken := valid.tiling.parent_notMem (.inr inTaken)
  refine ⟨?_, ?_, ?_⟩
  · convert valid.tiling.merge (.inr inTaken) (.inl inFree) using 1
    ext c
    have first (inC : c ∈ free) : c ≠ b := fun equal => valid.apart c inC (equal ▸ inTaken)
    have second (inC : c ∈ taken) : c ≠ b.buddy := fun equal => valid.apart _ inFree (equal ▸ inC)
    simp only [Set.mem_union, Set.mem_insert_iff, Set.mem_sdiff, Set.mem_singleton_iff, Set.mem_ofPred_eq]
    tauto
  · rintro c ⟨inC, _⟩ (rfl | ⟨inT, _⟩)
    · exact fresh (.inl inC)
    · exact valid.apart c inC inT
  · exact fun c inC inBuddy => valid.buddies c inC.1 inBuddy.1

/-- A block that avoids the taken cells lies inside one free block. -/
theorem exists_free_covers (valid : Coalesced N m free taken) (b : Block) (coarse : m ≤ b.order)
    (within : b.Within (2 ^ N)) (avoids : ∀ c ∈ taken, b.Disjoint c) : ∃ f ∈ free, f.Covers b := by
  obtain ⟨order, index⟩ := b
  change m ≤ order at coarse
  induction order, coarse using Nat.le_induction generalizing index with
  | base =>
    obtain ⟨f, member, inside⟩ := valid.tiling.cover _ (within _ (contains_start _))
    have covers := covers_of_common inside (contains_start ⟨m, index⟩) (valid.tiling.coarse f member)
    rcases member with inFree | inTaken
    · exact ⟨f, inFree, covers⟩
    · exact (avoids f inTaken _ (contains_start _) inside).elim
  | succ order coarse ih =>
    let child := (⟨order + 1, index⟩ : Block).lower
    have parent : child.parent = ⟨order + 1, index⟩ := parent_lower ⟨order + 1, index⟩ (Nat.succ_pos _)
    have half (b : Block) (isHalf : b = child ∨ b = child.buddy) : ∃ f ∈ free, f.Covers b := by
      have inside : ∀ cell, b.Contains cell → (⟨order + 1, index⟩ : Block).Contains cell :=
        fun cell member => parent ▸ parent_contains_of_child isHalf member
      have order : b.order = order := by rcases isHalf with rfl | rfl <;> rfl
      subst order
      exact ih b.index (fun cell member => within cell (inside cell member))
        fun c inTaken cell member => avoids c inTaken cell (inside cell member)
    obtain ⟨f, inFree, coversF⟩ := half child (.inl rfl)
    obtain ⟨g, inFree', coversG⟩ := half child.buddy (.inr rfl)
    -- If neither free block reaches beyond its half, the two halves are free buddies.
    rcases coversF.eq_or_parent with rfl | covers
    · rcases coversG.eq_or_parent with rfl | covers
      · exact (valid.buddies _ inFree inFree').elim
      · exact ⟨g, inFree', by rwa [parent_buddy, parent] at covers⟩
    · exact ⟨f, inFree, parent ▸ covers⟩

/-- The free blocks are exactly the largest blocks that avoid the taken cells. -/
theorem mem_free_iff (valid : Coalesced N m free taken) (b : Block) :
    b ∈ free ↔ m ≤ b.order ∧ b.Within (2 ^ N) ∧ (∀ c ∈ taken, b.Disjoint c) ∧
      ¬ (b.parent.Within (2 ^ N) ∧ ∀ c ∈ taken, b.parent.Disjoint c) := by
  constructor
  · intro inFree
    refine ⟨valid.tiling.coarse b (.inl inFree), valid.tiling.within b (.inl inFree),
      fun c inTaken => valid.free_disjoint_taken inFree inTaken, ?_⟩
    rintro ⟨within, avoids⟩
    have coarse : m ≤ b.parent.order := (valid.tiling.coarse b (.inl inFree)).trans (Nat.le_succ _)
    obtain ⟨f, member, covers⟩ := valid.exists_free_covers b.parent coarse within avoids
    have equal := valid.tiling.eq_of_covers (.inl member) (.inl inFree) fun cell inside =>
      covers cell (parent_contains_of_child (.inl rfl) inside)
    have order := (equal ▸ covers).order_le
    simp only [parent] at order
    omega
  · rintro ⟨coarse, within, avoids, largest⟩
    obtain ⟨f, member, covers⟩ := valid.exists_free_covers b coarse within avoids
    rcases covers.eq_or_parent with rfl | covers
    · exact member
    · exact (largest ⟨covers.within (valid.tiling.within f (.inl member)), fun c inTaken cell inside =>
        valid.free_disjoint_taken member inTaken cell (covers cell inside)⟩).elim

/-- The taken blocks determine the free ones. -/
theorem free_unique {free' : Set Block} (first : Coalesced N m free taken)
    (second : Coalesced N m free' taken) : free = free' := by
  ext b
  rw [first.mem_free_iff, second.mem_free_iff]

end Coalesced

end DyadicTiling
