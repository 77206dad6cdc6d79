import Mathlib.Data.Nat.ModEq
import Mathlib.Tactic.Ring
import OsLabs.ToMathlib.StableInsert
import OsLabs.Model.Scheduler.Priqueue

/-! # The ring buffer as a list

Places of the queue below `size` occupy distinct slots, so a chain of swaps of slots is a shift of
the entries, also across the wrap. Each operation is then one operation on `toList`; none of this
depends on the comparer.
-/

namespace OsLabs.Scheduler

open ListWindow StableInsert

namespace Priqueue

variable {α : Type*} {q : Priqueue α} {i j : ℕ} {ptr : α}

/-- The order of the comparer. -/
abbrev Less (comparer : α → α → ℤ) (a b : α) : Prop := comparer a b < 0

theorem trueIndex_eq (q : Priqueue α) (i : ℕ) :
    q.priqueueGetTrueIndex i = ((i + q.start) % q.size : ℕ) := by
  rw [priqueueGetTrueIndex, ← Int.natCast_add, ← Int.ofNat_tmod]

theorem trueIndex_inj (small : i < q.size) (small' : j < q.size)
    (same : q.priqueueGetTrueIndex i = q.priqueueGetTrueIndex j) : i = j := by
  rw [trueIndex_eq, trueIndex_eq, Int.natCast_inj] at same
  have congruent : i ≡ j [MOD q.size] := Nat.ModEq.add_right_cancel' q.start same
  exact congruent.eq_of_lt_of_lt small small'

theorem entry_setData (q : Priqueue α) (ptr : α) (small : i < q.size) (small' : j < q.size) :
    (q.setData (q.priqueueGetTrueIndex i) ptr).entry j = if j = i then ptr else q.entry j := by
  change Function.update q.data _ ptr (q.priqueueGetTrueIndex j) = _
  split
  · next same => rw [same, Function.update_self]
  · next ne =>
    rw [Function.update_of_ne fun same => ne (trueIndex_inj small' small same)]
    rfl

theorem entry_swap {k : ℕ} (smallI : i < q.size) (smallJ : j < q.size) (smallK : k < q.size) :
    (q.priqueueSwap (q.priqueueGetTrueIndex i) (q.priqueueGetTrueIndex j)).entry k =
      if k = j then q.entry i else if k = i then q.entry j else q.entry k := by
  have first := entry_setData q (q.entry j) smallI smallK
  have second := entry_setData (q.setData (q.priqueueGetTrueIndex i) (q.entry j)) (q.entry i) smallJ smallK
  rw [first] at second
  exact second

/-- The swaps of `priqueue_offer` move the last entry to `index` and the others up by one. -/
theorem swapDown_entry {index steps k : ℕ} (inside : index + steps < q.size) (small : k < q.size) :
    (q.swapDown index steps).entry k = if k = index then q.entry (index + steps)
      else if index < k ∧ k ≤ index + steps then q.entry (k - 1) else q.entry k := by
  induction steps generalizing q with
  | zero =>
    rw [swapDown]
    split_ifs with same between
    · rw [same, Nat.add_zero]
    · omega
    · rfl
  | succ steps ih =>
    have swapped {m : ℕ} (small : m < q.size) := entry_swap (i := index + steps + 1) (j := index + steps)
      inside (by omega) small
    refine (ih (q := q.priqueueSwap _ _) (Nat.lt_of_succ_lt inside) small).trans ?_
    rw [swapped (by omega), swapped (by omega), swapped small, if_pos rfl]
    by_cases first : k = index
    · rw [if_pos first, if_pos first, Nat.add_assoc]
    · rw [if_neg first, if_neg first]
      by_cases last : k = index + steps + 1
      · rw [if_neg (by omega), if_neg (by omega), if_pos last, if_pos (by omega), last, Nat.add_sub_cancel]
      · by_cases between : index < k ∧ k ≤ index + steps
        · rw [if_pos between, if_neg (by omega), if_neg (by omega), if_pos (by omega)]
        · rw [if_neg between, if_neg (by omega), if_neg last, if_neg (by omega)]

/-- The swaps of `priqueue_remove_at` move the entry at `i` to the end and the others down by one. -/
theorem swapUp_entry {steps k : ℕ} (inside : i + steps < q.size) (small : k < q.size) :
    (q.swapUp i steps).entry k = if k = i + steps then q.entry i
      else if i ≤ k ∧ k < i + steps then q.entry (k + 1) else q.entry k := by
  induction steps generalizing q i with
  | zero =>
    rw [swapUp]
    split_ifs with same between
    · rw [same, Nat.add_zero]
    · omega
    · rfl
  | succ steps ih =>
    have swapped {m : ℕ} (small : m < q.size) := entry_swap (q := q) (i := i) (j := i + 1)
      (by omega) (by omega) small
    refine (ih (q := q.priqueueSwap _ _) (i := i + 1) (by change _ < q.size; omega) small).trans ?_
    by_cases last : k = i + (steps + 1)
    · rw [if_pos (by omega), if_pos last, swapped (by omega), if_pos rfl]
    · rw [if_neg (by omega), if_neg last]
      by_cases first : k = i
      · rw [if_neg (by omega), if_pos (by omega), swapped small, if_neg (by omega), if_pos first, first]
      · by_cases between : i + 1 ≤ k ∧ k < i + 1 + steps
        · rw [if_pos between, if_pos (by omega), swapped (by omega), if_neg (by omega), if_neg (by omega)]
        · rw [if_neg between, if_neg (by omega), swapped small, if_neg (by omega), if_neg first]

/-! ## The operations on the list -/

@[simp] theorem length_toList (q : Priqueue α) : q.toList.length = q.count := length_window ..

@[simp] theorem toList_init (malloc : ℕ → ℤ → α) (comparer : α → α → ℤ) :
    (priqueueInit malloc comparer).toList = [] := rfl

theorem toList_resize (q : Priqueue α) : q.priqueueResize.toList = q.toList := by
  refine window_congr fun i small => ?_
  have inside : i < q.size * 2 + 1 := by
    have bound := Nat.lt_of_lt_of_le small q.fits
    omega
  have index : q.priqueueResize.priqueueGetTrueIndex i = i := by
    rw [trueIndex_eq]
    change (((i + 0) % (q.size * 2 + 1) : ℕ) : ℤ) = i
    rw [Nat.add_zero, Nat.mod_eq_of_lt inside]
  rw [entry, index]
  exact if_pos ⟨Int.natCast_nonneg i, Int.ofNat_lt.mpr small⟩

theorem toList_makeRoom (q : Priqueue α) : q.makeRoom.toList = q.toList := by
  rw [makeRoom]
  split
  · exact toList_resize q
  · rfl

@[simp] theorem comparer_makeRoom (q : Priqueue α) : q.makeRoom.comparer = q.comparer := by
  rw [makeRoom]
  split <;> rfl

theorem offerIndex_eq (rest index : ℕ) : q.offerIndex ptr rest index =
    index + position (Less q.comparer) ptr (window (fun i => q.entry (index + i)) rest) := by
  induction rest generalizing index with
  | zero => rfl
  | succ rest ih =>
    rw [offerIndex, window_succ, position_cons]
    split
    · next passed =>
      have notLess : ¬ Less q.comparer ptr (q.entry (index + 0)) := not_lt.mpr passed
      rw [if_neg notLess, ih]
      simp only [Nat.add_assoc, Nat.add_comm 1]
    · next greater =>
      have less : Less q.comparer ptr (q.entry (index + 0)) := not_le.mp greater
      rw [if_pos less]
      rfl

/-- `priqueue_offer` inserts at the first place whose entry is greater and returns that place. -/
theorem priqueueOffer_spec (q : Priqueue α) (ptr : α) :
    (q.priqueueOffer ptr).2 = position (Less q.comparer) ptr q.toList ∧
    (q.priqueueOffer ptr).1.toList =
      q.toList.insertIdx (position (Less q.comparer) ptr q.toList) ptr := by
  have place : q.makeRoom.offerIndex ptr q.makeRoom.count 0 =
      position (Less q.comparer) ptr q.toList := by
    rw [offerIndex_eq, Nat.zero_add, ← toList_makeRoom, comparer_makeRoom]
    simp only [Nat.zero_add]
    rfl
  refine ⟨place, ?_⟩
  let r := q.makeRoom
  let index := r.offerIndex ptr r.count 0
  let s := r.setData (r.priqueueGetTrueIndex r.count) ptr
  have room : r.count < r.size := q.makeRoom_lt
  have list : q.toList = window r.entry r.count := (toList_makeRoom q).symm
  have inside : index ≤ r.count := by
    rw [← length_window r.entry r.count, ← list]
    exact place.trans_le position_le
  have total : index + (s.count - index) = r.count := Nat.add_sub_cancel' inside
  have written {k : ℕ} (small : k < r.size) : s.entry k = if k = r.count then ptr else r.entry k :=
    entry_setData _ _ room small
  have moved {k : ℕ} (small : k < r.size) : (s.swapDown index (s.count - index)).entry k =
      if k = index then s.entry r.count else if index < k ∧ k ≤ r.count then s.entry (k - 1) else s.entry k := by
    have shifted := swapDown_entry (q := s) (total.trans_lt room) small
    rwa [total] at shifted
  have shape := swapDown_shape s index (s.count - index)
  rw [← place, list]
  change window (s.swapDown index (s.count - index)).entry ((s.swapDown index (s.count - index)).count + 1) =
    (window r.entry r.count).insertIdx index ptr
  rw [shape.count]
  refine window_insert inside ?_ ?_ ?_
  · intro i below
    rw [moved (by omega), if_neg (by omega), if_neg (by omega), written (by omega), if_neg (by omega)]
  · rw [moved (by omega), if_pos rfl, written room, if_pos rfl]
  · intro i above below
    rw [moved (by omega), if_neg (by omega), if_pos (by omega), Nat.add_sub_cancel, written (by omega),
      if_neg (by omega)]

theorem priqueueOffer_comparer (q : Priqueue α) (ptr : α) :
    (q.priqueueOffer ptr).1.comparer = q.comparer :=
  (swapDown_shape _ _ _).comparer.trans (comparer_makeRoom q)

theorem priqueuePeek_spec (q : Priqueue α) : q.priqueuePeek = q.toList.head? := by
  rw [priqueuePeek, priqueueSize, toList]
  cases q.count with
  | zero => rfl
  | succ n => rw [window_succ, if_neg (Nat.succ_ne_zero n)]; rfl

theorem priqueueIsEmpty_spec (q : Priqueue α) : q.priqueueIsEmpty = true ↔ q.toList = [] := by
  rw [priqueueIsEmpty, decide_eq_true_iff, ← length_toList, List.length_eq_zero_iff]

theorem priqueuePoll_spec (q : Priqueue α) :
    q.priqueuePoll.2 = q.toList.head? ∧ q.priqueuePoll.1.toList = q.toList.tail := by
  rw [priqueuePoll, priqueueSize]
  split
  · next empty =>
    have nil : q.toList = [] := List.length_eq_zero_iff.mp ((length_toList q).trans empty)
    exact ⟨(congrArg List.head? nil).symm, nil.trans (congrArg List.tail nil).symm⟩
  · next nonempty =>
    obtain ⟨n, count⟩ := Nat.exists_eq_succ_of_ne_zero nonempty
    have list : q.toList = q.entry 0 :: window (fun i => q.entry (i + 1)) n := by
      rw [toList, count, window_succ]
    rw [list]
    refine ⟨rfl, ?_⟩
    change window (fun i => q.data ((i + (q.start + 1 : ℕ) : ℤ).tmod q.size)) (q.count - 1) = window _ n
    rw [count, Nat.succ_sub_one]
    refine window_congr fun i _ => congrArg (fun index : ℤ => q.data (index.tmod q.size)) ?_
    push_cast
    ring

theorem priqueuePoll_comparer (q : Priqueue α) : q.priqueuePoll.1.comparer = q.comparer := by
  rw [priqueuePoll]
  split <;> rfl

theorem priqueueAt_spec (q : Priqueue α) {index : ℤ} (nonneg : 0 ≤ index) :
    q.priqueueAt index = q.toList[index.toNat]? := by
  obtain ⟨i, rfl⟩ := Int.eq_ofNat_of_zero_le nonneg
  rw [Int.toNat_natCast, toList, getElem?_window, priqueueAt]
  by_cases inside : i < q.count
  · rw [if_neg (by omega), if_pos inside]
    rfl
  · rw [if_pos (by omega), if_neg inside]

theorem removeAt_of_lt (q : Priqueue α) (inside : i < q.count) :
    (q.priqueueRemoveAt i).2 = some (q.entry i) ∧
      (q.priqueueRemoveAt i).1.toList = q.toList.eraseIdx i := by
  have fits := q.fits
  obtain ⟨n, count⟩ : ∃ n, q.count = n + 1 := ⟨q.count - 1, by omega⟩
  have last : q.count - 1 = n := by omega
  have total : i + (n - i) = n := by omega
  let r := q.swapUp i (n - i)
  have shape : SameShape q r := swapUp_shape q i (n - i)
  have moved {k : ℕ} (small : k < q.size) : r.entry k =
      if k = n then q.entry i else if i ≤ k ∧ k < n then q.entry (k + 1) else q.entry k := by
    have shifted : r.entry k = _ := swapUp_entry (by omega) small
    rwa [total] at shifted
  have ran : q.priqueueRemoveAt i = ({ r with count := r.count - 1, fits := Nat.le_trans (Nat.sub_le ..) r.fits },
      some (r.entry (r.count - 1))) := by
    rw [priqueueRemoveAt, if_neg (by omega)]
    simp only [Int.toNat_natCast, last]
    rfl
  rw [ran]
  constructor
  · change some (r.entry (r.count - 1)) = _
    rw [shape.count, last, moved (by omega), if_pos rfl]
  · change window r.entry (r.count - 1) = (window q.entry q.count).eraseIdx i
    rw [shape.count, last, count]
    refine window_erase (by omega) ?_ ?_
    · intro k below
      rw [moved (by omega), if_neg (by omega), if_neg (by omega)]
    · intro k above below
      rw [moved (by omega), if_neg (by omega), if_pos ⟨above, below⟩]

theorem removeAt_of_outside (q : Priqueue α) {index : ℤ} (outside : index < 0 ∨ index ≥ q.count) :
    q.priqueueRemoveAt index = (q, none) := if_pos outside

/-- `priqueue_remove_at` erases and returns the entry at an index. -/
theorem priqueueRemoveAt_spec (q : Priqueue α) (index : ℤ) :
    (q.priqueueRemoveAt index).2 = (if index < 0 then none else q.toList[index.toNat]?) ∧
    (q.priqueueRemoveAt index).1.toList =
      if index < 0 then q.toList else q.toList.eraseIdx index.toNat := by
  by_cases negative : index < 0
  · rw [removeAt_of_outside q (.inl negative), if_pos negative, if_pos negative]
    exact ⟨rfl, rfl⟩
  · obtain ⟨i, rfl⟩ := Int.eq_ofNat_of_zero_le (not_lt.mp negative)
    rw [if_neg negative, if_neg negative, Int.toNat_natCast]
    by_cases inside : i < q.count
    · obtain ⟨result, list⟩ := removeAt_of_lt q inside
      rw [result, list, toList, getElem?_window, if_pos inside]
      exact ⟨rfl, rfl⟩
    · have behind : q.toList.length ≤ i := by rw [length_toList]; omega
      rw [removeAt_of_outside q (.inr (by omega)), List.getElem?_eq_none behind,
        List.eraseIdx_of_length_le behind]
      exact ⟨rfl, rfl⟩

theorem priqueueRemoveAt_comparer (q : Priqueue α) (index : ℤ) :
    (q.priqueueRemoveAt index).1.comparer = q.comparer := by
  rw [priqueueRemoveAt]
  split
  · rfl
  · exact (swapUp_shape _ _ _).comparer

section Remove

variable [DecidableEq α]

theorem removeLoop_spec {front back : List α} (ptr : α) (removed : ℕ) (list : q.toList = front ++ back) :
    (removeLoop ptr back.length q front.length removed).1.toList = front ++ back.filter (· ≠ ptr) ∧
      (removeLoop ptr back.length q front.length removed).2 = removed + back.count ptr ∧
      (removeLoop ptr back.length q front.length removed).1.comparer = q.comparer := by
  induction back generalizing q front removed with
  | nil => exact ⟨list, rfl, rfl⟩
  | cons x back ih =>
    have inside : front.length < q.count := by
      rw [← length_toList, list, List.length_append, List.length_cons]
      omega
    have here : q.data (q.priqueueGetTrueIndex front.length) = x := by
      have found := getElem?_window (f := q.entry) (n := q.count) front.length
      rw [if_pos inside, ← toList, list, List.getElem?_append_right le_rfl, Nat.sub_self] at found
      exact (Option.some.inj found).symm
    rw [List.length_cons, removeLoop, here]
    by_cases same : ptr = x
    · subst same
      have erased := (removeAt_of_lt q inside).2
      rw [list, List.eraseIdx_append_of_length_le le_rfl, Nat.sub_self, List.eraseIdx_zero,
        List.tail_cons] at erased
      obtain ⟨kept, number, comparer⟩ := ih (removed + 1) erased
      rw [if_pos rfl, List.filter_cons_of_neg (by simp only [ne_eq, not_true_eq_false, decide_false,
        Bool.false_eq_true, not_false_eq_true]), List.count_cons_self]
      exact ⟨kept, by omega, comparer.trans (priqueueRemoveAt_comparer ..)⟩
    · have grown : q.toList = (front ++ [x]) ++ back := by rw [list, List.append_assoc]; rfl
      have rest := ih removed grown
      rw [List.length_append, List.length_singleton, List.append_assoc] at rest
      rw [if_neg same, List.filter_cons_of_pos (by exact decide_eq_true (Ne.symm same)),
        List.count_cons_of_ne (Ne.symm same)]
      exact rest

/-- `priqueue_remove` deletes the entries equal to `ptr` and counts them. -/
theorem priqueueRemove_spec (q : Priqueue α) (ptr : α) :
    (q.priqueueRemove ptr).1.toList = q.toList.filter (· ≠ ptr) ∧
      (q.priqueueRemove ptr).2 = q.toList.count ptr ∧
      (q.priqueueRemove ptr).1.comparer = q.comparer := by
  have list : q.toList = [] ++ q.toList := rfl
  obtain ⟨kept, number, comparer⟩ := removeLoop_spec ptr 0 list
  rw [length_toList] at kept number comparer
  exact ⟨kept, number.trans (Nat.zero_add _), comparer⟩

end Remove

end Priqueue

end OsLabs.Scheduler
