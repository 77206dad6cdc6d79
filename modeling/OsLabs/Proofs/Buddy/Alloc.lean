import OsLabs.Proofs.Buddy.Invariant

/-! # Allocation

`buddy_split` splits the block in front of a list into a block in hand and its free buddy; the loop
of `buddy_alloc` repeats this on lists that are empty below the block it found, and the block left
in hand is the allocated one.
-/

namespace OsLabs.Buddy

open LinkedRing DyadicTiling DyadicTiling.Block

/-- A fresh free block joins the free lists. -/
theorem listed_insert {lists : ℕ → List ℕ} {free : Set Block} {b : Block} {list : List ℕ}
    (listed : ∀ o i, i ∈ lists o ↔ ∃ b ∈ free, b.order = o ∧ headPage b = i)
    (grown : ∀ i, i ∈ list ↔ i = headPage b ∨ i ∈ lists b.order) (o i : ℕ) :
    i ∈ Function.update lists b.order list o ↔ ∃ c ∈ insert b free, c.order = o ∧ headPage c = i := by
  by_cases same : o = b.order
  · subst same
    rw [Function.update_self, grown, listed]
    simp only [Set.mem_insert_iff, exists_eq_or_imp, true_and]
    exact or_congr_left eq_comm
  · rw [Function.update_of_ne same, listed]
    simp only [Set.mem_insert_iff, exists_eq_or_imp, Ne.symm same, false_and, false_or]

theorem pairwise_update {lists : ℕ → List ℕ} {k : ℕ} {list : List ℕ}
    (sorted : ∀ o, (lists o).Pairwise (· < ·)) (new : list.Pairwise (· < ·)) (o : ℕ) :
    (Function.update lists k list o).Pairwise (· < ·) := by
  by_cases same : o = k
  · rwa [same, Function.update_self]
  · rw [Function.update_of_ne same]
    exact sorted o

variable {s : Memory} {lists : ℕ → List ℕ} {free hand live : Set Block} {b c : Block}

/-- Cut off the front of one list, the two halves make up a list that was empty. -/
theorem FreeLists.halve {l : Links Node} {i j o k : ℕ}
    (rings : FreeLists l (Function.update lists o (i :: lists o))) (low : minOrder ≤ o) (high : o ≤ maxOrder)
    (coarse : minOrder ≤ k) (fits : k ≤ maxOrder) (empty : lists k = []) (distinct : i ≠ j)
    (freshI : ∀ o, i ∉ lists o) (freshJ : ∀ o, j ∉ lists o) :
    FreeLists (Buddy.listAdd (Buddy.listAdd (Buddy.listDel l (.page i)) (.page j) (.freeArea k)) (.page i)
      (.freeArea k)) (Function.update lists k [i, j]) := by
  have cut : Function.update lists o (i :: lists o) o = [] ++ i :: lists o := Function.update_self ..
  have removed := rings.listDel low high cut
  rw [List.nil_append, Function.update_idem, Function.update_eq_self] at removed
  have first := removed.listAdd coarse fits freshJ
  rw [empty] at first
  have second := first.listAdd coarse fits (i := i) fun o' => by
    rcases eq_or_ne o' k with rfl | other
    · rw [Function.update_self, List.mem_singleton]
      exact distinct
    · rw [Function.update_of_ne other]
      exact freshI o'
  rwa [Function.update_self, Function.update_idem] at second

namespace Valid

theorem coalesced_split (valid : Valid s lists free {c.parent} live) (coarse : minOrder ≤ c.order) :
    Coalesced maxOrder minOrder (insert c.buddy free) ({c} ∪ live) := by
  have step := valid.coalesced.split (.inl rfl) coarse
  have rest : ({c.parent} ∪ live) \ {c.parent} = live := by
    rw [Set.union_sdiff_left, Set.sdiff_singleton_eq_self (valid.handApart _ rfl)]
  rwa [rest] at step

/-- The halves of the block in hand are new blocks. -/
theorem half_notMem (valid : Valid s lists free {c.parent} live) (half : b = c ∨ b = c.buddy) :
    b ∉ free ∪ ({c.parent} ∪ live) :=
  valid.coalesced.tiling.child_notMem (.inr (.inl rfl)) half

theorem half_unlisted (valid : Valid s lists free {c.parent} live) (coarse : minOrder ≤ c.order)
    (half : b = c ∨ b = c.buddy) (o : ℕ) : headPage b ∉ lists o := by
  intro member
  obtain ⟨d, inFree, _, same⟩ := (valid.listed o _).mp member
  have inB : b ∈ insert c.buddy free ∪ ({c} ∪ live) := by
    rcases half with rfl | rfl
    · exact .inr (.inl rfl)
    · exact .inl (.inl rfl)
  have equal := eq_of_headPage (valid.coalesced_split coarse).tiling (.inl (.inr inFree)) inB same
  exact valid.half_notMem half (.inl (equal ▸ inFree))

/-- With the orders of the halves written, one of them is in hand and the other free. -/
theorem halve (valid : Valid s lists free {c.parent} live) (coarse : minOrder ≤ c.order)
    (empty : lists c.order = []) :
    Valid ((s.setBlockSize (headPage c) c.order).setBlockSize (headPage c.buddy) c.order)
      (Function.update lists c.order [headPage c.buddy]) (insert c.buddy free) {c} live where
  coalesced := valid.coalesced_split coarse
  handApart := by
    rintro b rfl inLive
    exact valid.half_notMem (.inl rfl) (.inr (.inr inLive))
  listed := by
    refine listed_insert (b := c.buddy) valid.listed fun i => ?_
    change _ ↔ _ ∨ i ∈ lists c.order
    rw [empty, List.mem_singleton]
    simp only [List.not_mem_nil, or_false]
  sorted := pairwise_update valid.sorted (List.pairwise_singleton _ _)
  indexed i small := by
    simp only [setBlockSize_index]
    exact valid.indexed i small
  bounded i small := by
    have fits : c.order ≤ maxOrder := (Nat.le_succ _).trans (valid.order_le (.inr (.inl rfl)))
    simp only [setBlockSize_blockSize]
    split_ifs
    · exact fits
    · exact fits
    · exact valid.bounded i small
  isFree i small := by
    simp only [setBlockSize_isFree]
    exact valid.isFree i small
  blockSize b member := by
    have tiling := (valid.coalesced_split coarse).tiling
    simp only [setBlockSize_blockSize]
    split_ifs with isBuddy isC
    · rw [eq_of_headPage tiling member (.inl (.inl rfl)) isBuddy]
      rfl
    · exact congrArg Block.order (eq_of_headPage tiling member (.inr (.inl rfl)) isC).symm
    · rcases member with (rfl | inFree) | (rfl | inLive)
      · exact (isBuddy rfl).elim
      · exact valid.blockSize b (.inl inFree)
      · exact (isC rfl).elim
      · exact valid.blockSize b (.inr (.inr inLive))

end Valid

/-- `buddy_split` of a block in hand `c.parent` that stands in front of its list. -/
theorem buddySplit_spec (valid : Valid s lists free {c.parent} live) (coarse : minOrder ≤ c.order)
    (starts : c.start = c.parent.start) (empty : lists c.order = [])
    (rings : FreeLists s.links
      (Function.update lists c.parent.order (headPage c.parent :: lists c.parent.order))) :
    ∃ s', buddySplit s c.parent.order = some s' ∧
      Valid s' (Function.update lists c.order [headPage c.buddy]) (insert c.buddy free) {c} live ∧
      FreeLists s'.links (Function.update lists c.order [headPage c, headPage c.buddy]) ∧
      InBounds s s' := by
  have inHand : c.parent ∈ free ∪ ({c.parent} ∪ live) := .inr (.inl rfl)
  have high : c.parent.order ≤ maxOrder := valid.order_le inHand
  have low : minOrder ≤ c.parent.order := coarse.trans (Nat.le_succ _)
  have fits : c.order ≤ maxOrder := (Nat.le_succ _).trans high
  have samePage : headPage c.parent = headPage c := by rw [headPage, headPage, starts]
  rw [samePage] at rings
  have tiling := (valid.coalesced_split coarse).tiling
  have inC : c ∈ insert c.buddy free ∪ ({c} ∪ live) := .inr (.inl rfl)
  have inBuddy : c.buddy ∈ insert c.buddy free ∪ ({c} ∪ live) := .inl (.inl rfl)
  have distinct : headPage c ≠ headPage c.buddy := fun same =>
    buddy_ne c (eq_of_headPage tiling inC inBuddy same).symm
  have front : s.links.next (.freeArea c.parent.order) = .page (headPage c) := by
    rw [rings.next_freeArea low high, Function.update_self, firstNode_cons]
  have ran : buddySplit s c.parent.order = some
      (((((s.setLinks (listDel s.links (.page (headPage c)))).lookup (headPage c.buddy)).setBlockSize
        (headPage c) c.order).setBlockSize (headPage c.buddy) c.order).setLinks
        (listAdd (listAdd (listDel s.links (.page (headPage c))) (.page (headPage c.buddy))
          (.freeArea c.order)) (.page (headPage c)) (.freeArea c.order))) := by
    have index : (s.gPages (headPage c)).index = headPage c := samePage ▸ valid.index_eq inHand
    have order : c.parent.order - 1 = c.order := rfl
    simp only [buddySplit, front, listEntry, Option.map_some, setLinks_gPages, index, order,
      lookup_eq coarse]
    rfl
  have pageC : headPage c < nPages := headPage_lt (tiling.within _ inC)
  have pageBuddy : headPage c.buddy < nPages := headPage_lt (tiling.within _ inBuddy)
  have bounds := (((((InBounds.refl s).setLinks (listDel s.links (.page (headPage c)))).lookup
    pageBuddy).setBlockSize pageC c.order).setBlockSize pageBuddy c.order).setLinks
    (listAdd (listAdd (listDel s.links (.page (headPage c))) (.page (headPage c.buddy))
      (.freeArea c.order)) (.page (headPage c)) (.freeArea c.order))
  have halved := rings.halve low high coarse fits empty distinct (valid.half_unlisted coarse (.inl rfl))
    (valid.half_unlisted coarse (.inr rfl))
  exact ⟨_, ran, (valid.halve coarse empty).of_gPages rfl, halved, bounds⟩

/-- The lists after splitting a block at `start` from order `o` down to order `k`. -/
def splitLists (lists : ℕ → List ℕ) (start k o : ℕ) : ℕ → List ℕ :=
  fun j => if k ≤ j ∧ j < o then [addrToPage (start + 2 ^ j)] else lists j

/-- The splitting loop of `buddy_alloc`. -/
theorem splitDown_spec {k : ℕ} (excess : ℕ) (valid : Valid s lists free {b} live)
    (rings : FreeLists s.links (Function.update lists b.order (headPage b :: lists b.order)))
    (coarse : minOrder ≤ k) (order : b.order = k + excess)
    (empty : ∀ j, k ≤ j → j < b.order → lists j = []) :
    ∃ s' free' c, splitDown excess s b.order = some (s', k) ∧ c.order = k ∧ c.start = b.start ∧
      Valid s' (splitLists lists b.start k b.order) free' {c} live ∧
      FreeLists s'.links (Function.update (splitLists lists b.start k b.order) k
        (headPage c :: splitLists lists b.start k b.order k)) ∧
      InBounds s s' := by
  induction excess generalizing s lists free b with
  | zero =>
    obtain rfl : b.order = k := order
    have same : splitLists lists b.start b.order b.order = lists := by
      funext j
      exact if_neg (by omega)
    exact ⟨s, free, b, rfl, rfl, rfl, same.symm ▸ valid, same.symm ▸ rings, .refl s⟩
  | succ excess ih =>
    have positive : 0 < b.order := by omega
    obtain ⟨c, rfl, starts, buddyStarts⟩ : ∃ c : Block, c.parent = b ∧ c.start = b.start ∧
        c.buddy.start = b.start + 2 ^ c.order :=
      ⟨b.lower, parent_lower b positive, start_lower b positive, buddy_start_lower b positive⟩
    have orderC : c.order = k + excess := Nat.succ.inj order
    have below : c.order < c.parent.order := Nat.lt_succ_self _
    have coarseC : minOrder ≤ c.order := by omega
    obtain ⟨s₁, ran, valid₁, rings₁, bounds₁⟩ :=
      buddySplit_spec valid coarseC starts (empty c.order (by omega) below) rings
    have grown : Function.update (Function.update lists c.order [headPage c.buddy]) c.order
        (headPage c :: Function.update lists c.order [headPage c.buddy] c.order) =
        Function.update lists c.order [headPage c, headPage c.buddy] := by
      rw [Function.update_self, Function.update_idem]
    obtain ⟨s₂, free₂, d, rest, orderD, startD, valid₂, rings₂, bounds₂⟩ :=
      ih valid₁ (grown ▸ rings₁) orderC fun j low high => by
        rw [Function.update_of_ne (Nat.ne_of_lt high)]
        exact empty j low (high.trans below)
    have same : splitLists (Function.update lists c.order [headPage c.buddy]) c.start k c.order =
        splitLists lists c.parent.start k c.parent.order := by
      funext j
      have parentOrder : c.parent.order = c.order + 1 := rfl
      simp only [splitLists, parentOrder, starts]
      by_cases last : j = c.order
      · subst last
        rw [if_neg (by omega), if_pos (by omega), Function.update_self, headPage, buddyStarts]
      · rw [Function.update_of_ne last]
        exact if_congr (by omega) rfl rfl
    rw [same] at valid₂ rings₂
    refine ⟨s₂, free₂, d, ?_, orderD, startD.trans starts, valid₂, rings₂, bounds₁.trans bounds₂⟩
    rw [splitDown, ran]
    exact rest

/-! ## From the request to the block -/

theorem orderFor_le_iff (size : ℤ) (k : ℕ) : orderFor size ≤ k ↔ minOrder ≤ k ∧ size ≤ 2 ^ k := by
  rw [orderFor, max_le_iff, Nat.clog_le_iff_le_pow (by decide), Int.toNat_le]
  norm_cast

theorem minOrder_le_orderFor (size : ℤ) : minOrder ≤ orderFor size := le_max_left ..

theorem orderSearch_spec {size : ℤ} (bound : size ≤ 2 ^ 30) (shifts n : ℕ) (total : n + shifts = 31)
    (low : minOrder ≤ n) (below : n ≤ orderFor size) :
    orderSearch size shifts n = some (orderFor size) := by
  have small : orderFor size ≤ 30 := (orderFor_le_iff size 30).mpr ⟨by decide, bound⟩
  induction shifts generalizing n with
  | zero => omega
  | succ shifts ih =>
    have fits := orderFor_le_iff size n
    rw [orderSearch, Nat.one_shiftLeft]
    push_cast
    split
    · next more =>
      refine ih (n + 1) (by omega) (by omega) ?_
      have not : ¬ orderFor size ≤ n := fun le => absurd more (not_lt.mpr (fits.mp le).2)
      omega
    · next enough =>
      have le := fits.mpr ⟨low, not_lt.mp enough⟩
      exact congrArg some (by omega)

theorem orderSearch_le {size : ℤ} {shifts n k : ℕ} (found : orderSearch size shifts n = some k) :
    size ≤ 2 ^ k ∧ k < n + shifts := by
  induction shifts generalizing n with
  | zero => exact absurd found (Option.some_ne_none k).symm
  | succ shifts ih =>
    rw [orderSearch, Nat.one_shiftLeft] at found
    push_cast at found
    split at found
    · obtain ⟨fits, small⟩ := ih found
      exact ⟨fits, by omega⟩
    · next enough =>
      obtain rfl := Option.some.inj found
      exact ⟨not_lt.mp enough, by omega⟩

/-- A request of more than `2 ^ 30` bytes shifts an `int` out of its range. -/
theorem size_le_of_buddyAlloc {s : Memory} {size : ℤ} {r : Memory × Option ℕ}
    (success : buddyAlloc s size = some r) : size ≤ 2 ^ 30 := by
  rw [buddyAlloc, Option.bind_eq_bind] at success
  obtain ⟨k, found, _⟩ := Option.bind_eq_some_iff.mp success
  obtain ⟨fits, small⟩ := orderSearch_le found
  have power : 2 ^ k ≤ 2 ^ 30 := Nat.pow_le_pow_right (by decide) (Nat.le_of_lt_succ small)
  exact fits.trans (by exact_mod_cast power)

theorem openSearch_spec (rings : FreeLists s.links lists) (above o : ℕ) (total : o + above = maxOrder)
    (low : minOrder ≤ o) :
    (openSearch s above o = none ∧ ∀ j, o ≤ j → j ≤ maxOrder → lists j = []) ∨
    ∃ p, openSearch s above o = some p ∧ o ≤ p ∧ p ≤ maxOrder ∧ lists p ≠ [] ∧
      ∀ j, o ≤ j → j < p → lists j = [] := by
  have found (nonempty : lists o ≠ []) : ∃ p, some o = some p ∧ o ≤ p ∧ p ≤ maxOrder ∧
      lists p ≠ [] ∧ ∀ j, o ≤ j → j < p → lists j = [] :=
    ⟨o, rfl, le_rfl, by omega, nonempty, fun j first last => by omega⟩
  have isEmpty := rings.listEmpty_iff low (by omega : o ≤ maxOrder)
  induction above generalizing o with
  | zero =>
    rw [openSearch]
    split
    · next holds =>
      refine .inl ⟨rfl, fun j first last => ?_⟩
      obtain rfl : j = o := by omega
      exact isEmpty.mp holds
    · next unset => exact .inr (found (mt isEmpty.mpr unset))
  | succ above ih =>
    rw [openSearch]
    split
    · next holds =>
      have extend {p : ℕ} (rest : ∀ j, o + 1 ≤ j → j < p → lists j = []) (j : ℕ) (first : o ≤ j)
          (last : j < p) : lists j = [] := by
        rcases Nat.eq_or_lt_of_le first with rfl | first
        · exact isEmpty.mp holds
        · exact rest j first last
      rcases ih (o + 1) (by omega) (by omega)
          (fun nonempty => ⟨o + 1, rfl, le_rfl, by omega, nonempty, fun j first last => by omega⟩)
          (rings.listEmpty_iff (low.trans (Nat.le_succ o)) (by omega)) with
        ⟨none, rest⟩ | ⟨p, some, first, last, nonempty, rest⟩
      · refine .inl ⟨none, fun j first last => ?_⟩
        exact extend (p := maxOrder + 1) (fun i low high => rest i low (Nat.le_of_lt_succ high)) j first
          (Nat.lt_succ_of_le last)
      · exact .inr ⟨p, some, by omega, last, nonempty, extend rest⟩
    · next unset => exact .inr (found (mt isEmpty.mpr unset))

theorem Valid.listed_remove (valid : Valid s lists free hand live) (inFree : b ∈ free)
    {front back : List ℕ} (split : lists b.order = front ++ headPage b :: back) (o i : ℕ) :
    i ∈ Function.update lists b.order (front ++ back) o ↔
      ∃ c ∈ free \ {b}, c.order = o ∧ headPage c = i := by
  have other {c : Block} (inC : c ∈ free) : c ∈ free \ {b} ↔ headPage c ≠ headPage b := by
    constructor
    · rintro ⟨_, ne⟩ same
      exact ne (eq_of_headPage valid.coalesced.tiling (.inl inC) (.inl inFree) same)
    · exact fun ne => ⟨inC, fun same => ne (congrArg headPage same)⟩
  by_cases same : o = b.order
  · subst same
    have nodup : (front ++ headPage b :: back).Nodup := split ▸ (valid.sorted b.order).imp Nat.ne_of_lt
    have removed := List.nodup_cons.mp (List.perm_middle.nodup_iff.mp nodup)
    have kept : i ∈ front ++ back ↔ i ∈ lists b.order ∧ i ≠ headPage b := by
      rw [split, List.perm_middle.mem_iff, List.mem_cons]
      constructor
      · exact fun member => ⟨.inr member, fun equal => removed.1 (equal ▸ member)⟩
      · exact fun member => member.1.resolve_left member.2
    rw [Function.update_self, kept, valid.listed]
    constructor
    · rintro ⟨⟨c, inC, order, rfl⟩, ne⟩
      exact ⟨c, (other inC).mpr ne, order, rfl⟩
    · rintro ⟨c, inC, order, rfl⟩
      exact ⟨⟨c, inC.1, order, rfl⟩, (other inC.1).mp inC⟩
  · rw [Function.update_of_ne same, valid.listed]
    constructor
    · rintro ⟨c, inC, rfl, page⟩
      exact ⟨c, ⟨inC, fun equal => same (congrArg Block.order equal)⟩, rfl, page⟩
    · rintro ⟨c, inC, order, page⟩
      exact ⟨c, inC.1, order, page⟩

theorem sorted_remove {front back : List ℕ} {i o : ℕ} (sorted : ∀ o, (lists o).Pairwise (· < ·))
    (split : lists o = front ++ i :: back) : (front ++ back).Pairwise (· < ·) :=
  (split ▸ sorted o).sublist ((List.sublist_cons_self i back).append_left front)

/-- The block in front of a list is taken in hand. -/
theorem Valid.takeFirst (valid : Valid s lists free ∅ live) (inFree : b ∈ free) {rest : List ℕ}
    (first : lists b.order = [] ++ headPage b :: rest) :
    Valid s (Function.update lists b.order rest) (free \ {b}) {b} live where
  coalesced := by
    have taken := valid.coalesced.take inFree
    rwa [Set.empty_union] at taken
  handApart := by
    rintro c rfl inLive
    exact valid.coalesced.apart c inFree (.inr inLive)
  listed := valid.listed_remove inFree first
  sorted := pairwise_update valid.sorted (sorted_remove valid.sorted first)
  indexed := valid.indexed
  bounded := valid.bounded
  isFree := valid.isFree
  blockSize := by
    rintro c (inC | rfl | inLive)
    · exact valid.blockSize c (.inl inC.1)
    · exact valid.blockSize c (.inl inFree)
    · exact valid.blockSize c (.inr (.inr inLive))

/-- The block in hand is handed out. -/
theorem Valid.handOut (valid : Valid s lists free {b} live) :
    Valid (s.setIsFree (headPage b) false) lists free ∅ (insert b live) where
  coalesced := by
    rw [Set.empty_union]
    exact valid.coalesced
  handApart _ inHand := inHand.elim
  listed := valid.listed
  sorted := valid.sorted
  indexed i small := (setIsFree_index ..).trans (valid.indexed i small)
  bounded i small := (setIsFree_blockSize ..).trans_le (valid.bounded i small)
  isFree i small := by
    rw [setIsFree_isFree]
    split
    · next same => exact iff_of_true rfl ⟨b, .inl rfl, same.symm⟩
    · next ne =>
      rw [valid.isFree i small]
      constructor
      · rintro ⟨c, inLive, page⟩
        exact ⟨c, .inr inLive, page⟩
      · rintro ⟨c, rfl | inLive, page⟩
        · exact (ne page.symm).elim
        · exact ⟨c, inLive, page⟩
  blockSize := by
    rw [Set.empty_union]
    exact fun c member => (setIsFree_blockSize ..).trans (valid.blockSize c member)

/-- What a successful `buddy_alloc` has done: `b` comes from the front of the first non-empty list
at or above the order of the request. -/
structure Allocated (s : Memory) (lists : ℕ → List ℕ) (live : Set Block) (size : ℤ) (s' : Memory)
    (b : Block) : Prop where
  order : b.order = orderFor size
  result : ∃ free' rest p, orderFor size ≤ p ∧ p ≤ maxOrder ∧ lists p = headPage b :: rest ∧
    (∀ j, orderFor size ≤ j → j < p → lists j = []) ∧
    Valid s' (splitLists (Function.update lists p rest) b.start (orderFor size) p) free' ∅
      (insert b live) ∧
    FreeLists s'.links (splitLists (Function.update lists p rest) b.start (orderFor size) p)
  bounds : InBounds s s'

theorem buddyAlloc_spec {size : ℤ} (valid : Valid s lists free ∅ live) (rings : FreeLists s.links lists)
    (bound : size ≤ 2 ^ 30) :
    (buddyAlloc s size = some (s, none) ∧ ∀ j, orderFor size ≤ j → j ≤ maxOrder → lists j = []) ∨
    ∃ s' b, buddyAlloc s size = some (s', some b.start) ∧ Allocated s lists live size s' b := by
  have low := minOrder_le_orderFor size
  have search := orderSearch_spec bound (31 - minOrder) minOrder rfl le_rfl low
  by_cases large : orderFor size > maxOrder
  · refine .inl ⟨?_, fun j first last => by omega⟩
    simp only [buddyAlloc, search, Option.bind_eq_bind, Option.bind_some, if_pos large, Option.pure_def]
  rcases openSearch_spec rings (maxOrder - orderFor size) (orderFor size) (by omega) low with
    ⟨found, empty⟩ | ⟨p, found, first, last, nonempty, empty⟩
  · refine .inl ⟨?_, empty⟩
    simp only [buddyAlloc, search, Option.bind_eq_bind, Option.bind_some, if_neg large, found,
      Option.pure_def]
  right
  obtain ⟨i, rest, split⟩ := List.exists_cons_of_ne_nil nonempty
  obtain ⟨b, inFree, rfl, rfl⟩ := (valid.listed p i).mp (split ▸ List.mem_cons_self ..)
  have taken := valid.takeFirst inFree split
  have whole : Function.update (Function.update lists b.order rest) b.order
      (headPage b :: Function.update lists b.order rest b.order) = lists := by
    rw [Function.update_self, Function.update_idem, ← split, Function.update_eq_self]
  obtain ⟨s₁, free₁, c, ran, orderC, startC, valid₁, rings₁, bounds₁⟩ :=
    splitDown_spec (b.order - orderFor size) taken (whole.symm ▸ rings) low (by omega) fun j low high => by
      rw [Function.update_of_ne (Nat.ne_of_lt high)]
      exact empty j low high
  have high : orderFor size ≤ maxOrder := first.trans last
  have cut : Function.update (splitLists (Function.update lists b.order rest) b.start (orderFor size) b.order)
      (orderFor size) (headPage c :: splitLists (Function.update lists b.order rest) b.start
        (orderFor size) b.order (orderFor size)) (orderFor size) =
      [] ++ headPage c :: splitLists (Function.update lists b.order rest) b.start (orderFor size) b.order
        (orderFor size) := Function.update_self ..
  have front : s₁.links.next (.freeArea (orderFor size)) = .page (headPage c) := by
    rw [rings₁.next_freeArea low high, cut]
    rfl
  have unlinked := rings₁.listDel low high cut
  rw [List.nil_append, Function.update_idem, Function.update_eq_self] at unlinked
  have inHand : c ∈ free₁ ∪ ({c} ∪ live) := .inr (.inl rfl)
  have samePage : headPage c = headPage b := congrArg addrToPage startC
  refine ⟨(s₁.setLinks (listDel s₁.links (.page (headPage c)))).setIsFree (headPage c) false, c, ?_,
    orderC, ⟨free₁, rest, b.order, first, last, samePage ▸ split, empty, ?_, ?_⟩,
    (bounds₁.setLinks _).setIsFree (valid₁.page_lt inHand) false⟩
  · have index : (s₁.gPages (headPage c)).index = headPage c := valid₁.index_eq inHand
    simp only [buddyAlloc, search, Option.bind_eq_bind, Option.bind_some, if_neg large, found, ran,
      front, listEntry, setIsFree_index, setLinks_gPages, index, Option.pure_def,
      pageToAddr_headPage (valid₁.coarse inHand)]
  · rw [startC]
    exact Valid.handOut (valid₁.of_gPages rfl)
  · rw [startC]
    exact unlinked

end OsLabs.Buddy
