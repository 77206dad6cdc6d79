import Mathlib.Algebra.BigOperators.Group.Finset.Basic
import Mathlib.Algebra.Order.BigOperators.Group.Finset
import Mathlib.Order.Interval.Finset.Nat
import OsLabs.Soundness.Buddy.Partition
import OsLabs.ToMathlib.PrefixCode

/-! # What the dump accounts for

The blocks that the dump counts and the live blocks make up the memory, byte for byte. A request that
finds no block of its order finds a live page in every aligned range of that size, so a failure tells how
much of the memory is in use.
-/

namespace OsLabs.Buddy

open CStrings DyadicTiling DyadicTiling.Block ScanFormat

variable {before s s' : Memory} {lists : ℕ → List ℕ} {free : Set Block} {live : List Live} {size : ℤ}
  {es : List Extent} {byte k : ℕ}

/-! ## Reading the dump -/

/-- The first entry of a dump and the rest of it. -/
def readEntry (text : List Char) : Option ((ℕ × ℕ) × List Char) :=
  match text.dropWhile Char.isDigit with
  | ':' :: rest =>
    match rest.dropWhile Char.isDigit with
    | 'K' :: ' ' :: behind =>
      some ((ScanFormat.digitsValue (text.takeWhile Char.isDigit), ScanFormat.digitsValue (rest.takeWhile Char.isDigit)),
        behind)
    | _ => none
  | _ => none

def dumpCode : PrefixCode (ℕ × ℕ) Char where
  code := dumpEntry
  next := readEntry
  valid _ := True
  code_ne_nil entry _ := List.append_ne_nil_of_right_ne_nil _ (List.cons_ne_nil _ _)
  next_code entry rest _ := by
    have count := (digits_toDigits entry.1).all
    have size := (digits_toDigits entry.2).all
    have colon : Stops Char.isDigit (':' :: (Nat.toDigits 10 entry.2 ++ 'K' :: ' ' :: rest)) := stops_cons rfl
    have unit : Stops Char.isDigit ('K' :: ' ' :: rest) := stops_cons rfl
    have text : dumpEntry entry ++ rest =
        Nat.toDigits 10 entry.1 ++ ':' :: (Nat.toDigits 10 entry.2 ++ 'K' :: ' ' :: rest) := by
      rw [dumpEntry, decimal_natCast, decimal_natCast, List.append_assoc, List.cons_append, List.append_assoc]
      rfl
    rw [text, readEntry, dropWhile_span count colon]
    simp only [dropWhile_span size unit]
    rw [takeWhile_span count colon, takeWhile_span size unit, digitsValue_toDigits,
      digitsValue_toDigits]

theorem buddyDump_reads (s : Memory) : dumpCode.decode (buddyDump s).dropLast = some (dumpCounts s) := by
  rw [buddyDump, List.dropLast_concat]
  exact PrefixCode.decode_codes fun _ _ => trivial

/-! ## Bytes -/

/-- The bytes of some blocks. -/
def bytes : List Extent → Finset ℕ
  | [] => ∅
  | e :: es => Finset.Ico e.addr (e.addr + 2 ^ e.order) ∪ bytes es

theorem mem_bytes : byte ∈ bytes es ↔ ∃ e ∈ es, e.Holds byte := by
  induction es with
  | nil => simp [bytes]
  | cons e es ih =>
    rw [bytes, Finset.mem_union, Finset.mem_Ico, ih, List.exists_mem_cons_iff]
    rfl

/-- Blocks that are apart have as many bytes as their sizes say. -/
theorem card_bytes (apart : es.Pairwise Extent.Apart) : (bytes es).card = (es.map fun e => 2 ^ e.order).sum := by
  induction es with
  | nil => rfl
  | cons e es ih =>
    obtain ⟨first, others⟩ := List.pairwise_cons.mp apart
    have disjoint : Disjoint (Finset.Ico e.addr (e.addr + 2 ^ e.order)) (bytes es) := by
      refine Finset.disjoint_left.mpr fun byte inFirst inOthers => ?_
      obtain ⟨f, member, holds⟩ := mem_bytes.mp inOthers
      exact first f member byte (Finset.mem_Ico.mp inFirst) holds
    rw [bytes, Finset.card_union_of_disjoint disjoint, Nat.card_Ico, ih others, List.map_cons, List.sum_cons,
      Nat.add_sub_cancel_left]

/-- The sizes of the blocks that the live requests hold. -/
def liveBytes (live : List Live) : ℕ := (live.map fun l => 2 ^ orderFor l.size).sum

theorem sum_liveExtents (partition : Partition s live) :
    ((live.map (liveExtent s)).map fun e => 2 ^ e.order).sum = liveBytes live := by
  rw [liveBytes, List.map_map]
  refine congrArg List.sum (List.map_congr_left fun l member => ?_)
  have order := (partition.liveHead l member).2.unique (orderFor_isLeast l.size)
  rw [Function.comp_apply, liveExtent, order]

theorem sum_freeExtents (s : Memory) :
    ((freeExtents s).map fun e => 2 ^ e.order).sum = ((dumpCounts s).map fun entry => entry.1 * (entry.2 * 1024)).sum := by
  rw [freeExtents, dumpCounts, List.map_flatMap, List.flatMap_def, List.sum_flatten, List.map_map, List.map_map]
  refine congrArg List.sum (List.map_congr_left fun o member => ?_)
  have low : 10 ≤ o := (by decide : 10 ≤ minOrder).trans (List.mem_range'_1.mp member).1
  have whole : 2 ^ o / 1024 * 1024 = 2 ^ o := Nat.div_mul_cancel (pow_dvd_pow 2 low : 2 ^ 10 ∣ 2 ^ o)
  rw [Function.comp_apply, List.map_map, Function.comp_apply, whole]
  change ((s.freeList o).map fun _ => 2 ^ o).sum = _
  rw [List.map_const', List.sum_replicate, Nat.nsmul_eq_mul]

/-- What the dump counts and what is live make up the memory. -/
theorem buddy_dump_accounts (past : (before.gPages nPages).isFree = false) (run : AnyRun before s live) :
    ∃ counts, dumpCode.decode (buddyDump s).dropLast = some counts ∧
      (counts.map fun entry => entry.1 * (entry.2 * 1024)).sum + liveBytes live = 2 ^ maxOrder := by
  obtain ⟨lists, free, inv, _⟩ := run_inv run fun _ _ _ => past
  refine ⟨dumpCounts s, buddyDump_reads s, ?_⟩
  have partition := inv.partition
  have whole : bytes (extents s live) = Finset.range (2 ^ maxOrder) := by
    ext byte
    rw [mem_bytes, partition.covered, Finset.mem_range]
  have sum := card_bytes partition.apart
  rw [whole, Finset.card_range, extents, List.map_append, List.sum_append, sum_liveExtents partition,
    sum_freeExtents] at sum
  exact sum.symm

theorem buddy_dump_accounts_page : ∃ s, AnyRun zeroed s [⟨0, 4096⟩] ∧
    ∃ counts, dumpCode.decode (buddyDump s).dropLast = some counts ∧
      (counts.map fun entry => entry.1 * (entry.2 * 1024)).sum + liveBytes [⟨0, 4096⟩] = 2 ^ maxOrder := by
  have start : AnyRun zeroed (buddyInit zeroed) [] := .init
  have result : (buddyAlloc (buddyInit zeroed) 4096).map (·.2) = some (some 0) := by decide
  obtain ⟨s, run⟩ := run_alloc start result
  exact ⟨s, run, buddy_dump_accounts rfl run⟩

/-! ## Failed requests -/

theorem Inv.noRoom (inv : Inv s live lists free) (bound : size ≤ 2 ^ 30)
    (failure : buddyAlloc s size = some (s', none)) :
    ¬ HasRoom s live (orderFor size) := by
  rw [hasRoom_iff inv (minOrder_le_orderFor size)]
  rcases buddyAlloc_spec inv.valid inv.rings bound with ⟨_, empty⟩ | ⟨t, b, ran, _⟩
  · rintro ⟨j, above, high, nonempty⟩
    exact nonempty (empty j above high)
  · rw [ran] at failure
    cases failure

/-- The quotients of one page agree for every larger power. -/
theorem div_eq_of_page {a b order : ℕ} (coarse : minOrder ≤ order) (same : a / 2 ^ minOrder = b / 2 ^ minOrder) :
    a / 2 ^ order = b / 2 ^ order := by
  have split : 2 ^ order = 2 ^ minOrder * 2 ^ (order - minOrder) := by rw [← Nat.pow_add, Nat.add_sub_cancel' coarse]
  rw [split, ← Nat.div_div_eq_div_mul, ← Nat.div_div_eq_div_mul, same]

/-- A page inside the range `i` of `2 ^ k` bytes, all of it in the block of a live request. -/
def LivePage (s : Memory) (live : List Live) (k i : ℕ) : Prop :=
  ∃ l ∈ live, ∃ first, pageSize ∣ first ∧ 2 ^ k * i ≤ first ∧ first + pageSize ≤ 2 ^ k * (i + 1) ∧
    ∀ byte, first ≤ byte → byte < first + pageSize → (liveExtent s l).Holds byte

/-- Without room every aligned range has a live page. -/
theorem Inv.live_page (inv : Inv s live lists free) (low : minOrder ≤ k) (high : k ≤ maxOrder)
    (full : ¬ HasRoom s live k) {i : ℕ} (inside : i < 2 ^ (maxOrder - k)) : LivePage s live k i := by
  have positive : 0 < 2 ^ k := Nat.two_pow_pos k
  have split : 2 ^ maxOrder = 2 ^ k * 2 ^ (maxOrder - k) := by rw [← Nat.pow_add, Nat.add_sub_cancel' high]
  have below : 2 ^ k * i + 2 ^ k ≤ 2 ^ maxOrder := by
    rw [split, ← Nat.mul_succ]
    exact Nat.mul_le_mul_left _ inside
  obtain ⟨l, inLive, touches⟩ : ∃ l ∈ live, ¬ Extent.Apart ⟨2 ^ k * i, k⟩ (liveExtent s l) := by
    by_contra! none
    exact full ⟨2 ^ k * i, Nat.dvd_mul_right _ _, below, none⟩
  obtain ⟨byte, ⟨lower, upper⟩, held⟩ : ∃ byte, Extent.Holds ⟨2 ^ k * i, k⟩ byte ∧ (liveExtent s l).Holds byte := by
    by_contra! none
    exact touches none
  change 2 ^ k * i ≤ byte at lower
  change byte < 2 ^ k * i + 2 ^ k at upper
  have inRange : byte / 2 ^ k = i := by
    rw [Nat.div_eq_iff positive]
    rw [Nat.mul_comm] at lower upper
    omega
  rw [liveExtent_eq inv inLive, extent_holds] at held
  have coarse := inv.valid.coarse (.inr (.inr (mem_liveSet inLive)))
  -- the page of the byte lies in the range and in the block
  have samePage (other : ℕ) (after : byte / pageSize * pageSize ≤ other)
      (before : other < byte / pageSize * pageSize + pageSize) : other / 2 ^ minOrder = byte / 2 ^ minOrder := by
    rw [Nat.div_eq_iff (Nat.two_pow_pos _)]
    change byte / 2 ^ minOrder * 2 ^ minOrder ≤ other at after
    change other < byte / 2 ^ minOrder * 2 ^ minOrder + 2 ^ minOrder at before
    omega
  have size : 0 < pageSize := by decide
  have bounds (other : ℕ) (after : byte / pageSize * pageSize ≤ other)
      (before : other < byte / pageSize * pageSize + pageSize) : 2 ^ k * i ≤ other ∧ other < 2 ^ k * (i + 1) := by
    have within := (div_eq_of_page low (samePage other after before)).trans inRange
    rw [Nat.div_eq_iff positive] at within
    rw [Nat.mul_succ, Nat.mul_comm]
    omega
  refine ⟨l, inLive, byte / pageSize * pageSize, Nat.dvd_mul_left _ _, (bounds _ le_rfl (by omega)).1, ?_, ?_⟩
  · have last := (bounds (byte / pageSize * pageSize + (pageSize - 1)) (by omega) (by omega)).2
    omega
  · intro other after before
    rw [liveExtent_eq inv inLive, extent_holds]
    exact (div_eq_of_page coarse (samePage other after before)).trans held

/-- The bytes of the range that are in use. -/
theorem LivePage.card_le {i : ℕ} (page : LivePage s live k i) :
    pageSize ≤ ((bytes (live.map (liveExtent s))).filter fun byte => byte / 2 ^ k = i).card := by
  obtain ⟨l, inLive, first, -, lower, upper, holds⟩ := page
  have inUse : Finset.Ico first (first + pageSize) ⊆
      (bytes (live.map (liveExtent s))).filter fun byte => byte / 2 ^ k = i := by
    intro byte member
    obtain ⟨after, before⟩ := Finset.mem_Ico.mp member
    rw [Finset.mem_filter, mem_bytes]
    refine ⟨⟨liveExtent s l, List.mem_map_of_mem inLive, holds byte after before⟩, ?_⟩
    rw [Nat.div_eq_iff (Nat.two_pow_pos k), Nat.mul_comm]
    rw [Nat.mul_succ] at upper
    omega
  have count := Finset.card_le_card inUse
  rwa [Nat.card_Ico, Nat.add_sub_cancel_left] at count

/-- A request of order `k` fails only when every aligned range of `2 ^ k` bytes has a live page, so that
`2 ^ (20 - k)` pages or more are in use. -/
theorem buddy_full_when_failing (past : (before.gPages nPages).isFree = false) (run : AnyRun before s live)
    (bound : size ≤ 2 ^ 30) (failure : buddyAlloc s size = some (s', none)) (fits : orderFor size ≤ maxOrder) :
    (∀ i < 2 ^ (maxOrder - orderFor size), LivePage s live (orderFor size) i) ∧
      2 ^ (maxOrder - orderFor size) * pageSize ≤ liveBytes live := by
  obtain ⟨lists, free, inv, _⟩ := run_inv run fun _ _ _ => past
  have partition := inv.partition
  have full := inv.noRoom bound failure
  have apart : (live.map (liveExtent s)).Pairwise Extent.Apart := (List.pairwise_append.mp partition.apart).2.1
  have pages (i : ℕ) (inside : i < 2 ^ (maxOrder - orderFor size)) : LivePage s live (orderFor size) i :=
    inv.live_page (minOrder_le_orderFor size) fits full inside
  have covered : Set.MapsTo (· / 2 ^ orderFor size) (bytes (live.map (liveExtent s)) : Set ℕ)
      (Finset.range (2 ^ (maxOrder - orderFor size)) : Set ℕ) := by
    intro byte member
    obtain ⟨e, isLive, holds⟩ := mem_bytes.mp member
    have small := (partition.covered byte).mp ⟨e, List.mem_append_right _ isLive, holds⟩
    have split : 2 ^ maxOrder = 2 ^ orderFor size * 2 ^ (maxOrder - orderFor size) := by
      rw [← Nat.pow_add, Nat.add_sub_cancel' fits]
    rw [Finset.coe_range, Set.mem_Iio]
    exact Nat.div_lt_of_lt_mul (split ▸ small)
  refine ⟨pages, ?_⟩
  calc 2 ^ (maxOrder - orderFor size) * pageSize
      = (Finset.range (2 ^ (maxOrder - orderFor size))).card • pageSize := by
        rw [Finset.card_range, Nat.nsmul_eq_mul]
    _ ≤ ∑ i ∈ Finset.range (2 ^ (maxOrder - orderFor size)),
          ((bytes (live.map (liveExtent s))).filter fun byte => byte / 2 ^ orderFor size = i).card :=
        Finset.card_nsmul_le_sum _ _ _ fun i member =>
          (pages i (Finset.mem_range.mp member)).card_le
    _ = (bytes (live.map (liveExtent s))).card := (Finset.card_eq_sum_card_fiberwise covered).symm
    _ = liveBytes live := (card_bytes apart).trans (sum_liveExtents partition)

/-- The whole memory is in use when another byte is asked for. -/
theorem buddy_full_when_failing_whole : ∃ s s', AnyRun zeroed s [⟨0, 1048576⟩] ∧
    buddyAlloc s 1 = some (s', none) ∧
    (∀ i < 2 ^ (maxOrder - orderFor 1), LivePage s [⟨0, 1048576⟩] (orderFor 1) i) ∧
    2 ^ (maxOrder - orderFor 1) * pageSize ≤ liveBytes [⟨0, 1048576⟩] := by
  have result : ((buddyAlloc (buddyInit zeroed) 1048576).bind fun r => (buddyAlloc r.1 1).map fun r' => (r.2, r'.2)) =
      some (some 0, none) := by decide
  obtain ⟨⟨s, addr⟩, first, rest⟩ := Option.bind_eq_some_iff.mp result
  obtain ⟨⟨s', addr'⟩, second, same⟩ := Option.map_eq_some_iff.mp rest
  cases same
  have run : AnyRun zeroed s [⟨0, 1048576⟩] := .alloc .init first
  exact ⟨s, s', run, second, buddy_full_when_failing rfl run (by decide) second (by decide)⟩

end OsLabs.Buddy
