import OsLabs.Proofs.Buddy.Alloc

/-! # Freeing

The freed block is taken in hand. The page at the start of its buddy always heads a current block,
so `buddy_combine` merges exactly when the buddy is a free block; what it leaves in hand has no free
buddy and is inserted into the sorted list of its order.
-/

namespace OsLabs.Buddy

open LinkedRing DyadicTiling DyadicTiling.Block

variable {s : Memory} {lists : ℕ → List ℕ} {free hand live : Set Block} {b : Block}

/-- The test of `buddy_combine` reads the record of a current block. -/
theorem Valid.buddy_free_iff (valid : Valid s lists free {b} live) (small : b.order < maxOrder) :
    ((s.gPages (headPage b.buddy)).isFree = true ∧
      (s.gPages (headPage b.buddy)).blockSize = b.order) ↔ b.buddy ∈ free := by
  constructor
  · rintro ⟨isFree, size⟩
    obtain ⟨c, member, other, starts, _⟩ :=
      valid.coalesced.tiling.exists_head_of_buddy (.inr (.inl rfl)) small
    have page : headPage c = headPage b.buddy := congrArg addrToPage starts
    rcases member with inFree | same | inLive
    · have order : c.order = b.order := by rw [← valid.blockSize c (.inl inFree), page, size]
      have equal : b.buddy = c :=
        eq_of_common (contains_start b.buddy) (starts ▸ contains_start c) order
      exact equal ▸ inFree
    · exact (other same).elim
    · have inBlocks : c ∈ free ∪ ({b} ∪ live) := .inr (.inr inLive)
      have unset := (valid.isFree _ (valid.page_lt inBlocks)).mpr ⟨c, inLive, rfl⟩
      rw [page, isFree] at unset
      contradiction
  · intro inFree
    have notLive : b.buddy ∉ live := fun inLive => valid.coalesced.apart _ inFree (.inr inLive)
    exact ⟨valid.isFree_of_notMem (.inl inFree) notLive, valid.blockSize _ (.inl inFree)⟩

/-- The merged block is headed by the first of the two pages. -/
theorem headPage_parent (b : Block) :
    headPage b.parent = if headPage b.buddy < headPage b then headPage b.buddy else headPage b := by
  have monotone {x y : ℕ} (le : x ≤ y) : addrToPage x ≤ addrToPage y := Nat.div_le_div_right le
  have start := parent_start b
  split
  · next less =>
    have le : b.buddy.start ≤ b.start := not_lt.mp fun lt => absurd less (monotone lt.le).not_gt
    exact congrArg addrToPage (start.trans (min_eq_right le))
  · next notLess =>
    rcases Nat.le_total b.start b.buddy.start with le | le
    · exact congrArg addrToPage (start.trans (min_eq_left le))
    · have parent : headPage b.parent = headPage b.buddy :=
        congrArg addrToPage (start.trans (min_eq_right le))
      exact parent.trans (le_antisymm (monotone le) (Nat.not_lt.mp notLess))

/-- The writes of one merge in `buddy_combine`. -/
def absorb (s : Memory) (b : Block) : Memory :=
  (s.setLinks (listDel s.links (.page (headPage b.buddy)))).setBlockSize (headPage b.parent) (b.order + 1)

/-- A block in hand absorbs its free buddy. -/
theorem Valid.absorb (valid : Valid s lists free {b} live) (small : b.order < maxOrder)
    (inFree : b.buddy ∈ free) {front back : List ℕ}
    (split : lists b.order = front ++ headPage b.buddy :: back) :
    Valid (absorb s b) (Function.update lists b.order (front ++ back)) (free \ {b.buddy})
      {b.parent} live := by
  have merged : Coalesced maxOrder minOrder (free \ {b.buddy}) ({b.parent} ∪ live) := by
    have step := valid.coalesced.merge (.inl rfl) inFree
    have rest : ({b} ∪ live) \ {b} = live := by
      rw [Set.union_sdiff_left, Set.sdiff_singleton_eq_self (valid.handApart _ rfl)]
    rwa [rest] at step
  refine ⟨merged, ?_, ?_, ?_, ?_, ?_, ?_, ?_⟩
  · rintro c rfl inLive
    exact valid.coalesced.tiling.parent_notMem (.inr (.inl rfl)) (.inr (.inr inLive))
  · exact valid.listed_remove inFree split
  · exact pairwise_update valid.sorted (sorted_remove valid.sorted split)
  · exact fun i bound => (setBlockSize_index ..).trans (valid.indexed i bound)
  · intro i bound
    rw [Buddy.absorb, setBlockSize_blockSize]
    split
    · exact small
    · exact valid.bounded i bound
  · intro i bound
    rw [Buddy.absorb, setBlockSize_isFree]
    exact valid.isFree i bound
  · intro c member
    rw [Buddy.absorb, setBlockSize_blockSize]
    split
    · next same => rw [eq_of_headPage merged.tiling member (.inr (.inl rfl)) same, parent]
    · next other =>
      rcases member with inC | rfl | inLive
      · exact valid.blockSize c (.inl inC.1)
      · exact (other rfl).elim
      · exact valid.blockSize c (.inr (.inr inLive))

/-- `buddy_combine` returns at once when the buddy is not a free block. -/
theorem buddyCombine_alone {depth : ℕ} (valid : Valid s lists free {b} live)
    (small : b.order < maxOrder) (alone : b.buddy ∉ free) :
    buddyCombine (depth + 1) s (headPage b) (headPage b.buddy) = some (s, headPage b) := by
  rw [buddyCombine]
  split_ifs with notFree other
  · rfl
  · rfl
  · rw [ne_eq, not_not, valid.blockSize b (.inr (.inl rfl))] at other
    exact (alone ((valid.buddy_free_iff small).mp ⟨by simpa using notFree, other⟩)).elim

/-- One level of `buddy_combine` when the buddy is free. -/
theorem buddyCombine_absorb {depth : ℕ} (valid : Valid s lists free {b} live)
    (small : b.order < maxOrder) (inFree : b.buddy ∈ free) :
    buddyCombine (depth + 1) s (headPage b) (headPage b.buddy) =
      if b.parent.order = maxOrder then some (absorb s b, headPage b.parent)
      else buddyCombine depth ((absorb s b).lookup (headPage b.parent.buddy)) (headPage b.parent)
        (headPage b.parent.buddy) := by
  have inHand : b ∈ free ∪ ({b} ∪ live) := .inr (.inl rfl)
  have sizeB := valid.blockSize b inHand
  obtain ⟨isFree, sizeBuddy⟩ := (valid.buddy_free_iff small).mpr inFree
  obtain ⟨front, back, split⟩ := List.append_of_mem (valid.mem_lists inFree)
  have inParent : b.parent ∈ free \ {b.buddy} ∪ ({b.parent} ∪ live) := .inr (.inl rfl)
  have merged := valid.absorb small inFree split
  have index : (s.gPages (headPage b.parent)).index = headPage b.parent :=
    valid.indexed _ (merged.page_lt inParent)
  have sizeParent : (s.gPages (headPage b.parent)).blockSize = b.order := by
    rw [headPage_parent]
    split_ifs
    · exact sizeBuddy
    · exact sizeB
  have lookup : addrToPage (buddyAddr (pageToAddr (headPage b.parent)) (b.order + 1)) =
      headPage b.parent.buddy := lookup_eq (merged.coarse inParent)
  simp only [buddyCombine, isFree, sizeBuddy, sizeB, setLinks_gPages, valid.index_eq inHand,
    valid.index_eq (.inl inFree), ← headPage_parent, sizeParent, setBlockSize_blockSize,
    setBlockSize_index, index, lookup, Bool.not_true, Bool.false_eq_true, ↓reduceIte, ne_eq,
    not_true_eq_false]
  rfl

/-- The buddy of the whole memory is no block. -/
theorem Valid.buddy_notMem (valid : Valid s lists free hand live) (member : b ∈ free ∪ (hand ∪ live))
    (whole : b.order = maxOrder) : b.buddy ∉ free := by
  intro inBuddy
  have zero : b.buddy.index = 0 := index_eq_zero_of_order (valid.within (.inl inBuddy)) whole
  have zero' : b.index = 0 := index_eq_zero_of_order (valid.within member) whole
  simp only [buddy, zero', index_xor_one] at zero
  contradiction

/-- What `buddy_combine` leaves in hand: a block whose buddy is not free. -/
theorem buddyCombine_spec (depth : ℕ) (valid : Valid s lists free {b} live)
    (rings : FreeLists s.links lists) (small : b.order < maxOrder) (deep : maxOrder ≤ b.order + depth) :
    ∃ s' lists' free' c, buddyCombine depth s (headPage b) (headPage b.buddy) = some (s', headPage c) ∧
      Valid s' lists' free' {c} live ∧ FreeLists s'.links lists' ∧ c.buddy ∉ free' ∧ InBounds s s' := by
  induction depth generalizing s lists free b with
  | zero => omega
  | succ depth ih =>
    have inHand : b ∈ free ∪ ({b} ∪ live) := .inr (.inl rfl)
    by_cases inFree : b.buddy ∈ free
    · obtain ⟨front, back, split⟩ := List.append_of_mem (valid.mem_lists inFree)
      have merged := valid.absorb small inFree split
      have unlinked : FreeLists (absorb s b).links (Function.update lists b.order (front ++ back)) :=
        rings.listDel (valid.coarse inHand) small.le split
      have inParent : b.parent ∈ free \ {b.buddy} ∪ ({b.parent} ∪ live) := .inr (.inl rfl)
      have bounds : InBounds s (absorb s b) :=
        ((InBounds.refl s).setLinks _).setBlockSize (merged.page_lt inParent) _
      have parentOrder : b.parent.order = b.order + 1 := rfl
      rw [buddyCombine_absorb valid small inFree]
      split
      · next whole =>
        exact ⟨_, _, _, b.parent, rfl, merged, unlinked, merged.buddy_notMem inParent whole, bounds⟩
      · next notWhole =>
        have smallParent : b.parent.order < maxOrder := by omega
        have looked := headPage_lt (buddy_within (merged.within inParent) smallParent)
        have seen : Valid ((absorb s b).lookup (headPage b.parent.buddy)) _ _ _ _ := merged.of_gPages rfl
        obtain ⟨s', lists', free', c, ran, valid', rings', alone, bounds'⟩ :=
          ih seen unlinked smallParent (by omega)
        exact ⟨s', lists', free', c, ran, valid', rings', alone, (bounds.lookup looked).trans bounds'⟩
    · exact ⟨s, lists, free, b, buddyCombine_alone valid small inFree, valid, rings, inFree, .refl s⟩

/-- The loop of `buddy_free` stops at the first page with a greater index. -/
theorem insertLoc_spec {o r : ℕ} {front back : List ℕ}
    (ring : s.links.Ring (.freeArea o) ((front ++ back).map .page))
    (indexed : ∀ i ∈ back, (s.gPages i).index = i) {fuel : ℕ} (enough : back.length < fuel) :
    insertLoc s r (.freeArea o) fuel (firstNode o back) =
      some (firstNode o (back.dropWhile (fun j => ¬ r < j))) := by
  induction back generalizing front fuel with
  | nil =>
    obtain ⟨fuel, rfl⟩ := Nat.exists_eq_succ_of_ne_zero (Nat.ne_of_gt (Nat.zero_lt_of_lt enough))
    simp only [insertLoc, firstNode_nil, ↓reduceIte, List.dropWhile_nil]
  | cons i back ih =>
    obtain ⟨fuel, rfl⟩ := Nat.exists_eq_succ_of_ne_zero (Nat.ne_of_gt (Nat.zero_lt_of_lt enough))
    have index := indexed i (List.mem_cons_self ..)
    rw [firstNode_cons, insertLoc, if_neg Node.noConfusion, listEntry, Option.bind_some, index,
      List.dropWhile_cons]
    split
    · next less =>
      rw [if_neg (by simpa only [decide_not, Bool.not_eq_true', decide_eq_false_iff_not, not_not] using less)]
      rfl
    · next notLess =>
      have next : s.links.next (.page i) = firstNode o back := by
        rw [List.map_append, List.map_cons] at ring
        exact ring.next_mem
      rw [if_pos (by simpa only [decide_not, Bool.not_eq_true', decide_eq_false_iff_not] using notLess), next]
      have shifted : front ++ i :: back = (front ++ [i]) ++ back := by
        rw [List.append_assoc, List.singleton_append]
      exact ih (shifted ▸ ring) (fun j member => indexed j (List.mem_cons_of_mem _ member))
        (Nat.lt_of_succ_lt_succ enough)

/-- Cutting a strictly increasing list at a new value keeps it increasing. -/
theorem pairwise_insert {list : List ℕ} {r : ℕ} (sorted : list.Pairwise (· < ·)) (fresh : r ∉ list) :
    (list.takeWhile (fun j => ¬ r < j) ++ r :: list.dropWhile (fun j => ¬ r < j)).Pairwise (· < ·) := by
  induction list with
  | nil => exact List.pairwise_singleton _ _
  | cons i list ih =>
    obtain ⟨above, sorted⟩ := List.pairwise_cons.mp sorted
    rw [List.mem_cons, not_or] at fresh
    rw [List.takeWhile_cons, List.dropWhile_cons]
    by_cases less : r < i
    · simp only [less, not_true_eq_false, decide_false, Bool.false_eq_true, ↓reduceIte, List.nil_append]
      refine List.pairwise_cons.mpr ⟨?_, List.pairwise_cons.mpr ⟨above, sorted⟩⟩
      intro j member
      rcases List.mem_cons.mp member with rfl | member
      · exact less
      · exact less.trans (above j member)
    · simp only [less, not_false_eq_true, decide_true, ↓reduceIte, List.cons_append]
      refine List.pairwise_cons.mpr ⟨?_, ih sorted fresh.2⟩
      intro j member
      rcases List.mem_append.mp member with member | member
      · exact above j ((List.takeWhile_prefix _).subset member)
      · rcases List.mem_cons.mp member with rfl | member
        · omega
        · exact above j ((List.dropWhile_suffix _).subset member)

/-- A live block taken back in hand. -/
theorem Valid.takeBack (valid : Valid s lists free ∅ live) (inLive : b ∈ live) :
    Valid (s.setIsFree (headPage b) true) lists free {b} (live \ {b}) where
  coalesced := by
    rw [Set.singleton_union, Set.insert_sdiff_singleton, Set.insert_eq_of_mem inLive]
    simpa only [Set.empty_union] using valid.coalesced
  handApart := by
    rintro c rfl member
    exact member.2 rfl
  listed := valid.listed
  sorted := valid.sorted
  indexed i small := (setIsFree_index ..).trans (valid.indexed i small)
  bounded i small := (setIsFree_blockSize ..).trans_le (valid.bounded i small)
  isFree i small := by
    have other {c : Block} (inC : c ∈ live) : c ∈ live \ {b} ↔ headPage c ≠ headPage b := by
      constructor
      · rintro ⟨_, ne⟩ same
        exact ne (eq_of_headPage valid.coalesced.tiling (.inr (.inr inC)) (.inr (.inr inLive)) same)
      · exact fun ne => ⟨inC, fun same => ne (congrArg headPage same)⟩
    rw [setIsFree_isFree]
    split
    · next same =>
      refine iff_of_false Bool.noConfusion ?_
      rintro ⟨c, inC, page⟩
      exact (other inC.1).mp inC (page.trans same)
    · next ne =>
      rw [valid.isFree i small]
      constructor
      · rintro ⟨c, inC, rfl⟩
        exact ⟨c, (other inC).mpr ne, rfl⟩
      · rintro ⟨c, inC, page⟩
        exact ⟨c, inC.1, page⟩
  blockSize := by
    rw [Set.singleton_union, Set.insert_sdiff_singleton, Set.insert_eq_of_mem inLive]
    intro c member
    exact (setIsFree_blockSize ..).trans (valid.blockSize c (by simpa only [Set.empty_union] using member))

/-- The insertion at the end of `buddy_free`. -/
theorem Valid.release (valid : Valid s lists free {b} live) (alone : b.buddy ∉ free) :
    Valid s (Function.update lists b.order ((lists b.order).takeWhile (fun j => ¬ headPage b < j) ++
      headPage b :: (lists b.order).dropWhile (fun j => ¬ headPage b < j))) (insert b free) ∅ live := by
  have released := valid.coalesced.release (.inl rfl) alone
  have rest : ({b} ∪ live) \ {b} = ∅ ∪ live := by
    rw [Set.union_sdiff_left, Set.sdiff_singleton_eq_self (valid.handApart _ rfl), Set.empty_union]
  have unlisted := valid.notMem_lists (.inl rfl) b.order
  refine ⟨rest ▸ released, fun c none => none.elim, ?_, ?_, valid.indexed, valid.bounded, valid.isFree, ?_⟩
  · refine listed_insert valid.listed fun i => ?_
    rw [List.perm_middle.mem_iff, List.mem_cons, List.takeWhile_append_dropWhile]
  · exact pairwise_update valid.sorted (pairwise_insert (valid.sorted _) unlisted)
  · rintro c ((rfl | inFree) | (none | inLive))
    · exact valid.blockSize c (.inr (.inl rfl))
    · exact valid.blockSize c (.inl inFree)
    · exact none.elim
    · exact valid.blockSize c (.inr (.inr inLive))

/-- The part of `buddy_free` after the merging. -/
theorem insert_spec (valid : Valid s lists free {b} live) (rings : FreeLists s.links lists)
    (alone : b.buddy ∉ free) :
    ∃ loc lists', insertLoc s (headPage b) (.freeArea b.order) (nPages + 1)
        (s.links.next (.freeArea b.order)) = some loc ∧
      Valid (s.setLinks (listAddTail s.links (.page (headPage b)) loc)) lists' (insert b free) ∅ live ∧
      FreeLists (listAddTail s.links (.page (headPage b)) loc) lists' := by
  have inHand : b ∈ free ∪ ({b} ∪ live) := .inr (.inl rfl)
  have low := valid.coarse inHand
  have high := valid.order_le inHand
  have indexed : ∀ i ∈ lists b.order, (s.gPages i).index = i := by
    intro i member
    obtain ⟨c, inFree, _, rfl⟩ := (valid.listed _ i).mp member
    exact valid.index_eq (.inl inFree)
  have whole : s.links.Ring (.freeArea b.order) (([] ++ lists b.order).map .page) := rings.ring _ low high
  have found := insertLoc_spec (r := headPage b) whole indexed
    (Nat.lt_succ_of_le (valid.lists_length b.order))
  rw [← rings.next_freeArea low high] at found
  have inserted := rings.listAddTail low high
    (List.takeWhile_append_dropWhile (p := fun j => ¬ headPage b < j)).symm
    (valid.notMem_lists (.inl rfl))
  exact ⟨_, _, found, (valid.release alone).of_gPages rfl, inserted⟩

/-- What `buddy_free` of a live block does. Only the whole memory has a buddy past `g_pages`, whose
record is taken to be one of a page that is not free. -/
theorem buddyFree_spec (valid : Valid s lists free ∅ live) (rings : FreeLists s.links lists)
    (inLive : b ∈ live) (past : b.order = maxOrder → (s.gPages nPages).isFree = false) :
    ∃ s' lists' free', buddyFree s b.start = some s' ∧ Valid s' lists' free' ∅ (live \ {b}) ∧
      FreeLists s'.links lists' ∧ (∀ i, nPages ≤ i → s'.gPages i = s.gPages i) ∧
      (b.order < maxOrder → InBounds s s') ∧ (b.order = maxOrder → s'.lookups = nPages :: s.lookups) := by
  have member : b ∈ free ∪ (∅ ∪ live) := .inr (.inr inLive)
  have taken := valid.takeBack inLive
  have inHand : b ∈ free ∪ ({b} ∪ live \ {b}) := .inr (.inl rfl)
  have page := valid.page_lt member
  let t := (s.setIsFree (headPage b) true).lookup (headPage b.buddy)
  have validT : Valid t lists free {b} (live \ {b}) := taken.of_gPages rfl
  have pastT : ∀ i, nPages ≤ i → t.gPages i = s.gPages i :=
    (((InBounds.refl s).setIsFree page true).past)
  have unfolded : buddyFree s b.start = do
      let combined ← buddyCombine (maxOrder + 1) t (headPage b) (headPage b.buddy)
      let res := combined.1.gPages combined.2
      let loc ← insertLoc combined.1 res.index (.freeArea res.blockSize) (nPages + 1)
        (combined.1.links.next (.freeArea res.blockSize))
      return combined.1.setLinks (listAddTail combined.1.links (.page combined.2) loc) := by
    have size : ((s.setIsFree (headPage b) true).gPages (headPage b)).blockSize = b.order :=
      taken.blockSize b inHand
    have looked : addrToPage (buddyAddr b.start b.order) = headPage b.buddy := by
      rw [buddyAddr_start, headPage]
    simp only [buddyFree, ← headPage.eq_def, size, looked, t]
  have finish {u : Memory} {lists₁ : ℕ → List ℕ} {free₁ : Set Block} {c : Block}
      (ran : buddyCombine (maxOrder + 1) t (headPage b) (headPage b.buddy) = some (u, headPage c))
      (validU : Valid u lists₁ free₁ {c} (live \ {b})) (ringsU : FreeLists u.links lists₁)
      (alone : c.buddy ∉ free₁) : ∃ l lists', buddyFree s b.start = some (u.setLinks l) ∧
        Valid (u.setLinks l) lists' (insert c free₁) ∅ (live \ {b}) ∧ FreeLists l lists' := by
    obtain ⟨loc, lists', found, valid', rings'⟩ := insert_spec validU ringsU alone
    refine ⟨_, lists', ?_, valid', rings'⟩
    have inC : c ∈ free₁ ∪ ({c} ∪ live \ {b}) := .inr (.inl rfl)
    simp only [unfolded, ran, Option.bind_eq_bind, Option.bind_some, validU.index_eq inC,
      validU.blockSize c inC, found, Option.pure_def]
  rcases (valid.order_le member).lt_or_eq with small | whole
  · obtain ⟨u, lists₁, free₁, c, ran, validU, ringsU, alone, bounds⟩ :=
      buddyCombine_spec (maxOrder + 1) validT rings small (by omega)
    obtain ⟨l, lists', done, valid', rings'⟩ := finish ran validU ringsU alone
    have looked := headPage_lt (buddy_within (valid.within member) small)
    have bounds' : InBounds s (u.setLinks l) :=
      ((((InBounds.refl s).setIsFree page true).lookup looked).trans bounds).setLinks l
    exact ⟨_, lists', _, done, valid', rings', bounds'.past, fun _ => bounds',
      fun whole => absurd whole small.ne⟩
  · have zero : b.index = 0 := index_eq_zero_of_order (valid.within member) whole
    have behind : headPage b.buddy = nPages := by
      simp only [headPage, buddy, zero, whole]
      decide
    have unset : (t.gPages (headPage b.buddy)).isFree = false := by
      rw [pastT _ behind.ge, behind]
      exact past whole
    have ran : buddyCombine (maxOrder + 1) t (headPage b) (headPage b.buddy) = some (t, headPage b) := by
      rw [buddyCombine, unset]
      rfl
    obtain ⟨l, lists', done, valid', rings'⟩ :=
      finish ran validT rings (validT.buddy_notMem inHand whole)
    exact ⟨_, lists', _, done, valid', rings', pastT, fun small => absurd whole small.ne,
      fun _ => congrArg (· :: s.lookups) behind⟩

end OsLabs.Buddy
