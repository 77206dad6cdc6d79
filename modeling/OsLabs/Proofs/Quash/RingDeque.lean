import OsLabs.Model.Quash.RingDeque
import OsLabs.ToMathlib.RingWindow

/-! # A generated deque as a list

`Holds` relates a deque to the list of its elements: the window of `length` elements from `front` on, which
leaves at least one slot free, in a live block with room for `cap` elements. Blocks stay below `2 ^ 63` bytes,
so that no `size_t` computation wraps but the subtraction in `length`.
-/

namespace OsLabs.Quash.RingDeque

open ListWindow RingWindow

variable {α φ : Type} {deq deq' : Deque α φ} {l : List α} {lib : Allocator α} {block : Block α}
  {x : α} {p size : ℕ}

/-- The largest number of bytes of a block, and one more. -/
def blockLimit : ℕ := 2 ^ 63

/-! ## Blocks -/

theorem Deque.load_eq (heap : deq.heap p = some block) {i : ℕ} (inside : i < block.size) :
    deq.load p i = .ok (block.element i) := by
  rw [load, heap]
  exact if_pos inside

theorem Deque.store_eq (heap : deq.heap p = some block) {i : ℕ} (inside : i < block.size) (element : α) :
    deq.store p i element = .ok (deq.setBlock p (some (block.set i element))) := by
  rw [store, heap]
  exact if_pos inside

@[simp] theorem Deque.setBlock_heap (deq : Deque α φ) (p : ℕ) (block : Option (Block α)) :
    (deq.setBlock p block).heap p = block := Function.update_self ..

theorem Deque.setBlock_heap_of_ne {q : ℕ} (other : q ≠ p) (block : Option (Block α)) :
    (deq.setBlock p block).heap q = deq.heap q := Function.update_of_ne other ..

theorem Deque.setBlock_eq (heap : deq.heap p = some block) : deq.setBlock p (some block) = deq := by
  rw [setBlock, ← heap, Function.update_eq_self]

theorem Deque.setBlock_setBlock (deq : Deque α φ) (p : ℕ) (before after : Option (Block α)) :
    (deq.setBlock p before).setBlock p after = deq.setBlock p after := by
  rw [setBlock, setBlock, setBlock, Function.update_idem]

theorem Deque.free_spec (lib : Allocator α) (heap : deq.heap p = some block) :
    ∃ heap, deq.free lib p = .ok { deq with heap } ∧ ∀ q ≠ p, heap q = deq.heap q := by
  rw [free, heap]
  split
  · exact ⟨_, rfl, fun q other => setBlock_heap_of_ne other none⟩
  · exact ⟨deq.heap, rfl, fun q _ => rfl⟩

/-- The deque has its elements in a live block with room for `cap`. -/
structure Deque.At (deq : Deque α φ) (p : ℕ) (block : Block α) : Prop where
  data : deq.data = some p
  heap : deq.heap p = some block
  room : deq.cap ≤ block.size
  made : p < deq.allocated

theorem Deque.At.valid (place : deq.At p block) : deq.valid = .ok p := by
  rw [Deque.valid, place.data]

theorem Deque.At.load (place : deq.At p block) {i : ℕ} (inside : i < deq.cap) :
    deq.load p i = .ok (block.element i) :=
  load_eq place.heap (Nat.lt_of_lt_of_le inside place.room)

theorem Deque.At.store (place : deq.At p block) {i : ℕ} (inside : i < deq.cap) (element : α) :
    deq.store p i element = .ok (deq.setBlock p (some (block.set i element))) :=
  store_eq place.heap (Nat.lt_of_lt_of_le inside place.room) element

theorem Deque.At.set (place : deq.At p block) (i : ℕ) (element : α) :
    (deq.setBlock p (some (block.set i element))).At p (block.set i element) :=
  ⟨place.data, deq.setBlock_heap p _, place.room, place.made⟩

structure Holds (size : ℕ) (deq : Deque α φ) (l : List α) : Prop where
  data : ∃ p block, deq.At p block ∧ ring block.element deq.cap deq.front l.length = l
  room : l.length < deq.cap
  sized : 0 < size
  bytes : deq.cap * size < blockLimit
  front : deq.front < deq.cap
  back : deq.back = (deq.front + l.length) % deq.cap

theorem Holds.small (held : Holds size deq l) : deq.cap < blockLimit :=
  Nat.lt_of_le_of_lt (Nat.le_mul_of_pos_right deq.cap held.sized) held.bytes

/-! ## Arithmetic -/

theorem add_eq {a b : ℕ} (small : a + b < sizeMod) : add a b = a + b := Nat.mod_eq_of_lt small

theorem sub_eq {a b : ℕ} (le : b ≤ a) (small : a < sizeMod) : sub a b = a - b := by
  rw [sub, show a + sizeMod - b = a - b + sizeMod by omega, Nat.add_mod_right, Nat.mod_eq_of_lt (by omega)]

theorem sizeMod_eq : sizeMod = 2 * blockLimit := rfl

/-- The index `back`, with or without a wrap. -/
theorem Holds.back_cases (held : Holds size deq l) :
    (deq.back = deq.front + l.length ∧ deq.front + l.length < deq.cap) ∨
      (deq.back + deq.cap = deq.front + l.length ∧ deq.cap ≤ deq.front + l.length) := by
  have front := held.front
  have room := held.room
  rw [held.back]
  rcases Nat.lt_or_ge (deq.front + l.length) deq.cap with inside | wraps
  · exact .inl ⟨Nat.mod_eq_of_lt inside, inside⟩
  · rw [Nat.mod_eq_sub_mod wraps, Nat.mod_eq_of_lt (by omega)]
    exact .inr ⟨by omega, wraps⟩

theorem Holds.back_lt (held : Holds size deq l) : deq.back < deq.cap := by
  rw [held.back]
  exact Nat.mod_lt _ (Nat.zero_lt_of_lt held.front)

theorem Holds.index_eq (held : Holds size deq l) {i : ℕ} (inside : i ≤ deq.cap) :
    add deq.front i % deq.cap = (deq.front + i) % deq.cap := by
  have front := held.front
  have small := held.small
  rw [add_eq (by rw [sizeMod_eq]; omega)]

theorem Holds.next_back (held : Holds size deq l) :
    add deq.back 1 % deq.cap = (deq.front + (l.length + 1)) % deq.cap := by
  have below := held.back_lt
  have small := held.small
  rw [add_eq (by rw [sizeMod_eq]; omega), held.back, Nat.mod_add_mod, Nat.add_assoc]

theorem Holds.previous_front (held : Holds size deq l) :
    sub (add deq.front deq.cap) 1 % deq.cap = (deq.front + deq.cap - 1) % deq.cap := by
  have front := held.front
  have small := held.small
  have sizes := sizeMod_eq
  rw [add_eq (by omega), sub_eq (by omega) (by omega)]

/-- The index of the last element. -/
theorem Holds.last_eq (held : Holds size deq l) {n : ℕ} (count : l.length = n + 1) :
    deq.last = (deq.front + n) % deq.cap := by
  have front := held.front
  have below := held.back_lt
  have small := held.small
  have sizes := sizeMod_eq
  rw [Deque.last, add_eq (by omega), sub_eq (by omega) (by omega)]
  rcases held.back_cases with ⟨here, _⟩ | ⟨here, _⟩
  · rw [show deq.back + deq.cap - 1 = deq.front + n + deq.cap by omega, Nat.add_mod_right]
  · rw [show deq.back + deq.cap - 1 = deq.front + n by omega]

/-! ## Reading -/

theorem Holds.valid (held : Holds size deq l) : ∃ p, deq.valid = .ok p := by
  obtain ⟨p, _, place, _⟩ := held.data
  exact ⟨p, place.valid⟩

/-- The length, although the subtraction may wrap. -/
theorem Holds.length_eq (held : Holds size deq l) : length deq = .ok l.length := by
  obtain ⟨p, valid⟩ := held.valid
  have front := held.front
  have room := held.room
  have below := held.back_lt
  have small := held.small
  have sizes := sizeMod_eq
  have value : add (sub deq.back deq.front) deq.cap % deq.cap = l.length := by
    rcases held.back_cases with ⟨here, _⟩ | ⟨here, _⟩
    · rw [sub_eq (by omega) (by omega), add_eq (by omega), Nat.add_mod_right,
        show deq.back - deq.front = l.length by omega, Nat.mod_eq_of_lt room]
    · have wrapped : sub deq.back deq.front = deq.back + sizeMod - deq.front := Nat.mod_eq_of_lt (by omega)
      rw [wrapped, add, show deq.back + sizeMod - deq.front + deq.cap = l.length + sizeMod by omega,
        Nat.add_mod_right, Nat.mod_eq_of_lt (show l.length < sizeMod by omega), Nat.mod_eq_of_lt room]
  simp only [length, valid, bind, Except.bind, pure, Except.pure, value]

theorem Holds.isEmpty_eq (held : Holds size deq l) : isEmpty deq = .ok (decide (l = [])) := by
  obtain ⟨p, valid⟩ := held.valid
  have same : deq.front = deq.back ↔ l = [] := by
    rw [held.back]
    constructor
    · intro catches
      cases l with
      | nil => rfl
      | cons y rest =>
        apply absurd _ (index_ne deq.front (Nat.succ_pos rest.length) held.room)
        rw [Nat.add_zero, Nat.mod_eq_of_lt held.front]
        exact catches
    · intro none
      rw [none, List.length_nil, Nat.add_zero, Nat.mod_eq_of_lt held.front]
  simp only [isEmpty, valid, bind, Except.bind, pure, Except.pure, same]

theorem Holds.notEmpty_eq (held : Holds size deq l) (some : l ≠ []) : notEmpty deq = .ok () := by
  rw [notEmpty, held.isEmpty_eq]
  exact if_neg (by rw [decide_eq_true_eq]; exact some)

theorem loadLoop_eq (heap : deq.heap p = some block) {index : ℕ → ℕ} {rest i : ℕ}
    (inside : ∀ k < rest, index (i + k) < block.size) :
    loadLoop deq p index rest i = .ok (window (fun k => block.element (index (i + k))) rest) := by
  induction rest generalizing i with
  | zero => rfl
  | succ rest ih =>
    have next (k : ℕ) : i + 1 + k = i + (k + 1) := by omega
    have others : ∀ k < rest, index (i + 1 + k) < block.size := by
      intro k below
      rw [next]
      exact inside (k + 1) (Nat.succ_lt_succ below)
    have first := Deque.load_eq heap (inside 0 (Nat.succ_pos rest))
    rw [Nat.add_zero] at first
    simp only [loadLoop, first, ih others, next, bind, Except.bind, pure, Except.pure]
    rw [window_succ, Nat.add_zero]

theorem Holds.apply_eq (held : Holds size deq l) (func : φ) :
    apply deq func = .ok (l.map fun element => (func, element)) := by
  obtain ⟨p, block, place, elements⟩ := held.data
  have room := held.room
  have positive := Nat.zero_lt_of_lt held.front
  have loaded : loadLoop deq p (fun i => add deq.front i % deq.cap) l.length 0 = .ok l := by
    have inside : ∀ k < l.length, add deq.front (0 + k) % deq.cap < block.size :=
      fun k _ => Nat.lt_of_lt_of_le (Nat.mod_lt _ positive) place.room
    rw [loadLoop_eq place.heap inside]
    refine congrArg Except.ok (Eq.trans (window_congr fun k below => ?_) elements)
    rw [Nat.zero_add, held.index_eq (by omega)]
  simp only [apply, place.valid, held.length_eq, loaded, bind, Except.bind, pure, Except.pure]

/-- The calls of the destructor on every element. -/
def destroyed (destructor : Option φ) (l : List α) : List (φ × α) :=
  destructor.toList.flatMap fun func => l.map fun element => (func, element)

theorem Holds.applyDestructor_eq (held : Holds size deq l) :
    applyDestructor deq = .ok (destroyed deq.destructor l) := by
  rw [applyDestructor]
  split
  · next none =>
    rw [none]
    rfl
  · next func here =>
    rw [held.apply_eq, here, destroyed, Option.toList_some, List.flatMap_singleton]

/-! ## Ends of the list -/

/-- The window of a deque that is not empty, at its front. -/
theorem Holds.cons {rest : List α} (held : Holds size deq (x :: rest)) :
    ∃ p block, deq.At p block ∧ deq.load p deq.front = .ok x ∧
      ring block.element deq.cap ((deq.front + 1) % deq.cap) rest.length = rest := by
  obtain ⟨p, block, place, elements⟩ := held.data
  rw [List.length_cons, ring_succ _ held.front] at elements
  obtain ⟨first, others⟩ := List.cons.inj elements
  exact ⟨p, block, place, first ▸ place.load held.front, others⟩

theorem Holds.last_lt (held : Holds size deq l) : deq.last < deq.cap := Nat.mod_lt _ (Nat.zero_lt_of_lt held.front)

/-- The window of a deque that is not empty, at its back. -/
theorem Holds.concat {rest : List α} (held : Holds size deq (rest ++ [x])) :
    ∃ p block, deq.At p block ∧ deq.last = (deq.front + rest.length) % deq.cap ∧
      deq.load p deq.last = .ok x ∧ ring block.element deq.cap deq.front rest.length = rest := by
  obtain ⟨p, block, place, elements⟩ := held.data
  have count : (rest ++ [x]).length = rest.length + 1 := List.length_append
  have last := held.last_eq count
  rw [count, ring_concat, ← last] at elements
  have parts := List.append_inj' elements rfl
  exact ⟨p, block, place, last, List.head_eq_of_cons_eq parts.2 ▸ place.load held.last_lt, parts.1⟩

theorem Holds.peekFront_eq {rest : List α} (held : Holds size deq (x :: rest)) : peekFront deq = .ok x := by
  obtain ⟨p, block, place, first, _⟩ := held.cons
  simp only [peekFront, place.valid, held.notEmpty_eq (List.cons_ne_nil x rest), bind, Except.bind, first]

theorem Holds.peekBack_eq {rest : List α} (held : Holds size deq (rest ++ [x])) : peekBack deq = .ok x := by
  obtain ⟨p, block, place, _, final, _⟩ := held.concat
  simp only [peekBack, place.valid, held.notEmpty_eq (List.concat_ne_nil x rest), bind, Except.bind, final]

theorem Holds.popFront_spec {rest : List α} (held : Holds size deq (x :: rest)) :
    ∃ deq', popFront deq = .ok (x, deq') ∧ Holds size deq' rest ∧ deq'.destructor = deq.destructor ∧
      deq'.cap = deq.cap := by
  obtain ⟨p, block, place, first, others⟩ := held.cons
  have room : rest.length + 1 < deq.cap := held.room
  have next := held.index_eq (i := 1) (by omega)
  refine ⟨{ deq with front := add deq.front 1 % deq.cap }, ?_,
    ⟨⟨p, block, ⟨place.data, place.heap, place.room, place.made⟩, ?_⟩, Nat.lt_of_succ_lt room, held.sized,
      held.bytes, Nat.mod_lt _ (Nat.zero_lt_of_lt held.front), ?_⟩, rfl, rfl⟩
  · simp only [popFront, place.valid, held.notEmpty_eq (List.cons_ne_nil x rest), bind, Except.bind, pure,
      Except.pure, first]
  · change ring block.element deq.cap (add deq.front 1 % deq.cap) rest.length = rest
    rw [next]
    exact others
  · change deq.back = (add deq.front 1 % deq.cap + rest.length) % deq.cap
    rw [next, Nat.mod_add_mod, held.back, List.length_cons, Nat.add_assoc, Nat.add_comm 1]

theorem Holds.popBack_spec {rest : List α} (held : Holds size deq (rest ++ [x])) :
    ∃ deq', popBack deq = .ok (x, deq') ∧ Holds size deq' rest ∧ deq'.destructor = deq.destructor ∧
      deq'.cap = deq.cap := by
  obtain ⟨p, block, place, last, final, others⟩ := held.concat
  have room := held.room
  rw [List.length_append, List.length_singleton] at room
  refine ⟨{ deq with back := deq.last }, ?_,
    ⟨⟨p, block, ⟨place.data, place.heap, place.room, place.made⟩, others⟩, Nat.lt_of_succ_lt room, held.sized,
      held.bytes, held.front, last⟩, rfl, rfl⟩
  simp only [popBack, place.valid, held.notEmpty_eq (List.concat_ne_nil x rest), bind, Except.bind, pure,
    Except.pure, final]

theorem Holds.updateFront_spec {rest : List α} (held : Holds size deq (x :: rest)) (element : α) :
    ∃ deq', updateFront deq element = .ok deq' ∧ Holds size deq' (element :: rest) ∧
      deq'.destructor = deq.destructor ∧ deq'.cap = deq.cap := by
  obtain ⟨p, block, place, _, others⟩ := held.cons
  have room : rest.length + 1 < deq.cap := held.room
  refine ⟨_, ?_, ⟨⟨p, _, place.set deq.front element, ?_⟩, held.room, held.sized, held.bytes, held.front, held.back⟩,
    rfl, rfl⟩
  · simp only [updateFront, update, place.valid, held.notEmpty_eq (List.cons_ne_nil x rest),
      place.store held.front, bind, Except.bind]
  · change ring (Function.update block.element deq.front element) deq.cap deq.front (rest.length + 1) = _
    rw [ring_update_front held.front (Nat.lt_of_succ_lt room), others]

theorem Holds.updateBack_spec {rest : List α} (held : Holds size deq (rest ++ [x])) (element : α) :
    ∃ deq', updateBack deq element = .ok deq' ∧ Holds size deq' (rest ++ [element]) ∧
      deq'.destructor = deq.destructor ∧ deq'.cap = deq.cap := by
  obtain ⟨p, block, place, last, _, others⟩ := held.concat
  have room := held.room
  have back := held.back
  rw [List.length_append, List.length_singleton] at room back
  refine ⟨_, ?_, ⟨⟨p, _, place.set deq.last element, ?_⟩, ?_, held.sized, held.bytes, held.front, ?_⟩, rfl, rfl⟩
  · simp only [updateBack, update, place.valid, held.notEmpty_eq (List.concat_ne_nil x rest),
      place.store held.last_lt, bind, Except.bind]
  · rw [List.length_append, List.length_singleton]
    change ring (Function.update block.element deq.last element) deq.cap deq.front (rest.length + 1) = _
    rw [last, ring_push_back (Nat.lt_of_succ_lt room), others]
  · rw [List.length_append, List.length_singleton]
    exact room
  · rw [List.length_append, List.length_singleton]
    exact back

theorem Holds.destroyFront_eq {rest : List α} (held : Holds size deq (x :: rest)) :
    destroyElement deq deq.front = .ok (destroyed deq.destructor [x]) := by
  obtain ⟨p, block, place, first, _⟩ := held.cons
  simp only [destroyElement, place.valid, held.notEmpty_eq (List.cons_ne_nil x rest), bind, Except.bind, pure,
    Except.pure, first]
  cases deq.destructor <;> rfl

theorem Holds.destroyBack_eq {rest : List α} (held : Holds size deq (rest ++ [x])) :
    destroyElement deq deq.last = .ok (destroyed deq.destructor [x]) := by
  obtain ⟨p, block, place, _, final, _⟩ := held.concat
  simp only [destroyElement, place.valid, held.notEmpty_eq (List.concat_ne_nil x rest), bind, Except.bind, pure,
    Except.pure, final]
  cases deq.destructor <;> rfl

theorem Holds.empty_spec (held : Holds size deq l) :
    ∃ deq', empty deq = .ok (destroyed deq.destructor l, deq') ∧ Holds size deq' [] ∧
      deq'.destructor = deq.destructor ∧ deq'.cap = deq.cap := by
  obtain ⟨p, block, place, _⟩ := held.data
  have positive := Nat.zero_lt_of_lt held.front
  refine ⟨{ deq with front := 0, back := 0 }, ?_,
    ⟨⟨p, block, ⟨place.data, place.heap, place.room, place.made⟩, rfl⟩, positive, held.sized, held.bytes, positive,
      (Nat.zero_mod _).symm⟩, rfl, rfl⟩
  simp only [empty, place.valid, held.applyDestructor_eq, bind, Except.bind, pure, Except.pure]

/-- What a copy leaves in the new block. -/
def copied (old : ℕ → α) (front cap : ℕ) : ℕ → ℕ → (ℕ → α) → ℕ → α
  | 0, _, data => data
  | rest + 1, i, data =>
    copied old front cap rest (i + 1) (Function.update data i (old (add front i % cap)))

theorem copyLoop_eq {q front cap rest i : ℕ} {old : Block α} (source : deq.heap p = some old)
    (target : deq.heap q = some block) (apart : p ≠ q) (positive : 0 < cap) (fits : cap ≤ old.size)
    (room : i + rest ≤ block.size) : copyLoop p q front cap rest i deq =
      .ok (deq.setBlock q (some ⟨block.size, copied old.element front cap rest i block.element⟩)) := by
  induction rest generalizing i deq block with
  | zero =>
    rw [copyLoop, copied]
    exact congrArg Except.ok (Deque.setBlock_eq target).symm
  | succ rest ih =>
    have inside : add front i % cap < old.size := Nat.lt_of_lt_of_le (Nat.mod_lt _ positive) fits
    set next := deq.setBlock q (some (block.set i (old.element (add front i % cap)))) with next_def
    have source' : next.heap p = some old := (Deque.setBlock_heap_of_ne apart _).trans source
    have rest_eq := ih (i := i + 1) source' (deq.setBlock_heap q _)
      (show i + 1 + rest ≤ block.size by omega)
    simp only [copyLoop, Deque.load_eq source inside, Deque.store_eq target (show i < block.size by omega), ← next_def,
      rest_eq, bind, Except.bind]
    rw [next_def, Deque.setBlock_setBlock]
    rfl

theorem copied_apply {old data : ℕ → α} {front cap rest i : ℕ} (small : front + (i + rest) ≤ sizeMod) (k : ℕ) :
    copied old front cap rest i data k =
      if i ≤ k ∧ k < i + rest then old ((front + k) % cap) else data k := by
  induction rest generalizing i data with
  | zero => rw [copied, if_neg (by omega)]
  | succ rest ih =>
    rw [copied, ih (by omega), add_eq (by omega)]
    cases eq_or_ne k i with
    | inl same => rw [same, if_neg (by omega), if_pos (by omega), Function.update_self]
    | inr other =>
      rw [Function.update_of_ne other]
      exact if_congr (by omega) rfl rfl

/-- A copy in a new block holds the same elements from its start on. -/
theorem ring_copied {old data : ℕ → α} {front cap count total : ℕ} (small : front + count ≤ sizeMod)
    (fits : count ≤ total) :
    ring (copied old front cap count 0 data) total 0 count = ring old cap front count := by
  apply window_congr
  intro i inside
  rw [Nat.zero_add, Nat.mod_eq_of_lt (by omega), copied_apply (by omega), if_pos (by omega)]

/-- An allocation of at most `bound` elements was refused. -/
def Refused (lib : Allocator α) (bound : ℕ) : Prop :=
  ∃ k bytes, bytes ≤ bound * lib.elementSize ∧ lib.alloc k bytes = none

theorem Refused.mono {bound bound' : ℕ} (refused : Refused lib bound) (le : bound ≤ bound') :
    Refused lib bound' := by
  obtain ⟨k, bytes, small, none⟩ := refused
  exact ⟨k, bytes, Nat.le_trans small (Nat.mul_le_mul_right _ le), none⟩

/-- No block has `blockLimit` bytes or more. -/
def Limited (lib : Allocator α) : Prop := ∀ k bytes, (lib.alloc k bytes).isSome → bytes < blockLimit

/-- The number of bytes of the first block does not wrap, or only to one that is refused. -/
def Fits (size initCap : ℕ) : Prop := max initCap 1 * size < sizeMod ∨ blockLimit ≤ max initCap 1 * size % sizeMod

/-- The deque moves its elements to the start of a new block, or is refused memory. -/
theorem Deque.move_spec {old : Block α} {oldCap count : ℕ} (data : deq.data = some p) (heap : deq.heap p = some old)
    (made : p < deq.allocated) (positive : 0 < oldCap) (fits : oldCap ≤ old.size) (room : count ≤ deq.cap)
    (sized : 0 < lib.elementSize) (bytes : deq.cap * lib.elementSize < sizeMod) :
    (∃ element heap, lib.alloc deq.allocated (deq.cap * lib.elementSize) = some element ∧
      deq.move lib oldCap count =
        .ok ⟨heap, deq.allocated + 1, some deq.allocated, deq.cap, 0, count, deq.destructor⟩ ∧
      heap deq.allocated = some ⟨deq.cap, copied old.element deq.front oldCap count 0 element⟩) ∨
    (deq.move lib oldCap count = .error .outOfMemory ∧
      lib.alloc deq.allocated (deq.cap * lib.elementSize) = none) := by
  have valid : deq.valid = .ok p := by rw [Deque.valid, data]
  have exact : mul deq.cap lib.elementSize = deq.cap * lib.elementSize := Nat.mod_eq_of_lt bytes
  have whole : deq.cap * lib.elementSize / lib.elementSize = deq.cap := Nat.mul_div_cancel _ sized
  cases answer : lib.alloc deq.allocated (deq.cap * lib.elementSize) with
  | none =>
    refine .inr ⟨?_, rfl⟩
    simp only [move, valid, allocate, exact, answer, bind, Except.bind]
  | some element =>
    set next : Deque α φ := { deq.setBlock deq.allocated (some ⟨deq.cap, element⟩) with
      data := some deq.allocated
      allocated := deq.allocated + 1 } with next_def
    have allocated : deq.allocate lib deq.cap = .ok (deq.allocated, next) := by
      simp only [allocate, exact, whole, answer, next_def]
    have apart : p ≠ deq.allocated := Nat.ne_of_lt made
    have source : next.heap p = some old := (setBlock_heap_of_ne apart _).trans heap
    have target : next.heap deq.allocated = some ⟨deq.cap, element⟩ := deq.setBlock_heap ..
    have copy : copyLoop p deq.allocated deq.front oldCap count 0 next = _ :=
      copyLoop_eq source target apart positive fits (show 0 + count ≤ deq.cap by omega)
    obtain ⟨heap', gone, others⟩ := free_spec lib ((setBlock_heap_of_ne apart _).trans source)
    refine .inl ⟨element, heap', rfl, ?_, (others _ apart.symm).trans (setBlock_heap ..)⟩
    have same : next.front = deq.front := rfl
    simp only [move, valid, allocated, same, copy, gone, bind, Except.bind, pure, Except.pure]
    rfl

/-- A push makes room, by a block of twice the capacity when all slots but one are used. -/
theorem Holds.onPush_spec (held : Holds lib.elementSize deq l) (limited : Limited lib) :
    (∃ deq', onPush lib deq = .ok deq' ∧ Holds lib.elementSize deq' l ∧ l.length + 1 < deq'.cap ∧
      deq'.destructor = deq.destructor ∧ deq'.cap ≤ max deq.cap (2 * (l.length + 1))) ∨
    (onPush lib deq = .error .outOfMemory ∧ Refused lib (2 * (l.length + 1))) := by
  obtain ⟨p, old, place, elements⟩ := held.data
  have room := held.room
  have front := held.front
  have small := held.small
  have sizes := sizeMod_eq
  have full : deq.front = add deq.back 1 % deq.cap ↔ l.length + 1 = deq.cap := by
    rw [held.next_back]
    constructor
    · intro catches
      by_contra more
      apply index_ne deq.front (Nat.succ_pos l.length) (show l.length + 1 < deq.cap by omega)
      rw [Nat.add_zero, Nat.mod_eq_of_lt front]
      exact catches
    · intro whole
      rw [whole, Nat.add_mod_right, Nat.mod_eq_of_lt front]
  by_cases grows : l.length + 1 = deq.cap
  · have double : mul 2 deq.cap = 2 * deq.cap := Nat.mod_eq_of_lt (by omega)
    have count : sub deq.cap 1 = l.length := by
      rw [sub_eq (by omega) (by omega)]
      omega
    have bytes : 2 * deq.cap * lib.elementSize < sizeMod := by
      rw [Nat.mul_assoc, sizeMod_eq]
      exact Nat.mul_lt_mul_of_pos_left held.bytes Nat.two_pos
    have run : onPush lib deq = Deque.move lib deq.cap l.length { deq with cap := 2 * deq.cap } := by
      rw [onPush, if_pos (full.mpr grows), double, count]
    rw [run]
    have data : Deque.data { deq with cap := 2 * deq.cap } = some p := place.data
    have fits : l.length ≤ 2 * deq.cap := by omega
    rcases Deque.move_spec data place.heap place.made (Nat.zero_lt_of_lt front) place.room fits held.sized bytes with
      ⟨element, heap, answer, moved, block⟩ | ⟨failed, answer⟩
    · have below := limited _ _ (Option.isSome_of_eq_some answer)
      refine .inl ⟨_, moved, ⟨⟨_, _, ⟨rfl, block, Nat.le_refl _, Nat.lt_succ_self _⟩, ?_⟩,
        by change l.length < 2 * deq.cap; omega, held.sized, below, by change 0 < 2 * deq.cap; omega, ?_⟩,
        by change l.length + 1 < 2 * deq.cap; omega, rfl, by change 2 * deq.cap ≤ _; omega⟩
      · change ring (copied old.element deq.front deq.cap l.length 0 element) (2 * deq.cap) 0 l.length = l
        rw [ring_copied (by omega) (by omega), elements]
      · change l.length = (0 + l.length) % (2 * deq.cap)
        rw [Nat.zero_add, Nat.mod_eq_of_lt (by omega)]
    · refine .inr ⟨failed, _, _, Nat.mul_le_mul_right _ ?_, answer⟩
      change 2 * deq.cap ≤ 2 * (l.length + 1)
      omega
  · refine .inl ⟨deq, ?_, held, by omega, rfl, by omega⟩
    rw [onPush, if_neg fun catches => grows (full.mp catches)]

/-- A push puts the new element at one end, or is refused memory. -/
theorem Holds.pushFront_spec (held : Holds lib.elementSize deq l) (limited : Limited lib) (element : α) :
    (∃ deq', pushFront lib deq element = .ok deq' ∧ Holds lib.elementSize deq' (element :: l) ∧
      deq'.destructor = deq.destructor ∧ deq'.cap ≤ max deq.cap (2 * (l.length + 1))) ∨
    (pushFront lib deq element = .error .outOfMemory ∧ Refused lib (2 * (l.length + 1))) := by
  obtain ⟨_, valid⟩ := held.valid
  rcases held.onPush_spec limited with ⟨deq₁, grown, held₁, room, destructor, capacity⟩ | ⟨failed, refused⟩
  · obtain ⟨p, block, place, elements⟩ := held₁.data
    have index := held₁.previous_front
    have positive := Nat.zero_lt_of_lt held₁.front
    have inside : (deq₁.front + deq₁.cap - 1) % deq₁.cap < deq₁.cap := Nat.mod_lt _ positive
    have placed := place.set ((deq₁.front + deq₁.cap - 1) % deq₁.cap) element
    refine .inl ⟨{ deq₁.setBlock p (some (block.set ((deq₁.front + deq₁.cap - 1) % deq₁.cap) element)) with
        front := (deq₁.front + deq₁.cap - 1) % deq₁.cap }, ?_,
      ⟨⟨p, _, ⟨placed.data, placed.heap, placed.room, placed.made⟩, ?_⟩, room, held₁.sized, held₁.bytes, inside, ?_⟩,
      destructor, capacity⟩
    · simp only [pushFront, valid, grown, place.valid, index, place.store inside, bind, Except.bind, pure, Except.pure]
    · rw [List.length_cons]
      exact (ring_push_front held₁.front held₁.room).trans (congrArg _ elements)
    · change deq₁.back = ((deq₁.front + deq₁.cap - 1) % deq₁.cap + (l.length + 1)) % deq₁.cap
      rw [Nat.mod_add_mod, show deq₁.front + deq₁.cap - 1 + (l.length + 1) = deq₁.front + l.length + deq₁.cap by omega,
        Nat.add_mod_right, held₁.back]
  · refine .inr ⟨?_, refused⟩
    simp only [pushFront, valid, failed, bind, Except.bind]

theorem Holds.pushBack_spec (held : Holds lib.elementSize deq l) (limited : Limited lib) (element : α) :
    (∃ deq', pushBack lib deq element = .ok deq' ∧ Holds lib.elementSize deq' (l ++ [element]) ∧
      deq'.destructor = deq.destructor ∧ deq'.cap ≤ max deq.cap (2 * (l.length + 1))) ∨
    (pushBack lib deq element = .error .outOfMemory ∧ Refused lib (2 * (l.length + 1))) := by
  obtain ⟨_, valid⟩ := held.valid
  rcases held.onPush_spec limited with ⟨deq₁, grown, held₁, room, destructor, capacity⟩ | ⟨failed, refused⟩
  · obtain ⟨p, block, place, elements⟩ := held₁.data
    have count : (l ++ [element]).length = l.length + 1 := List.length_append
    have placed := place.set deq₁.back element
    refine .inl ⟨{ deq₁.setBlock p (some (block.set deq₁.back element)) with back := add deq₁.back 1 % deq₁.cap }, ?_,
      ⟨⟨p, _, ⟨placed.data, placed.heap, placed.room, placed.made⟩, ?_⟩, count ▸ room, held₁.sized, held₁.bytes,
        held₁.front, count ▸ held₁.next_back⟩, destructor, capacity⟩
    · simp only [pushBack, valid, grown, place.valid, place.store held₁.back_lt, bind, Except.bind, pure, Except.pure]
      rfl
    · rw [count]
      change ring (Function.update block.element deq₁.back element) deq₁.cap deq₁.front (l.length + 1) = _
      rw [held₁.back, ring_push_back held₁.room, elements]
  · refine .inr ⟨?_, refused⟩
    simp only [pushBack, valid, failed, bind, Except.bind]

/-! ## The array -/

end OsLabs.Quash.RingDeque
