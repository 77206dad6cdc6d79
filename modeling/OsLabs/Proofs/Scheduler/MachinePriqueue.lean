import OsLabs.Model.Scheduler.MachinePriqueue
import OsLabs.Proofs.Scheduler.Priqueue

/-! # When machine arithmetic follows the priority queue

An operation that adds no more to `start` than int can hold does what it does on unbounded numbers,
and stays in the block. An operation that gets through has added no more than that.
-/

namespace OsLabs.Scheduler

open ListWindow

theorem bind_ok {α β : Type} {x : Except IntFault α} {f : α → Except IntFault β} {b : β}
    (ran : x >>= f = .ok b) : ∃ a, x = .ok a ∧ f a = .ok b := by
  cases x with
  | error fault => cases ran
  | ok a => exact ⟨a, rfl, ran⟩

@[simp] theorem ok_bind {α β : Type} (a : α) (f : α → Except IntFault β) : (Except.ok a >>= f) = f a := rfl

theorem addInt_eq {a b : ℤ} (low : -intMax - 1 ≤ a + b) (high : a + b ≤ intMax) : addInt a b = .ok (a + b) :=
  if_pos ⟨low, high⟩

theorem addInt_le {a b c : ℤ} (ran : addInt a b = .ok c) : a + b ≤ intMax := by
  rw [addInt] at ran
  split at ran
  · next fits => exact fits.2
  · cases ran

/-- The fields of the queue as ints. -/
def Priqueue.machine {α : Type} (q : Priqueue α) : PriqueueT α where
  data := q.data
  size := q.size
  count := q.count
  start := q.start
  comparer := q.comparer
  malloc := q.malloc

namespace PriqueueT

variable {α : Type}

/-! ## The largest number that a call adds to `start` -/

def offerReach (q : PriqueueT α) : ℤ := if q.count = q.size then q.count - 1 else q.count

def pollReach (q : PriqueueT α) : ℤ := if q.count = 0 then 0 else 1

def atReach (q : PriqueueT α) (index : ℤ) : ℤ := if index < q.count then index else 0

def removeAtReach (q : PriqueueT α) (index : ℤ) : ℤ := if index < 0 ∨ index ≥ q.count then 0 else q.count - 1

section Forward

variable {q : Priqueue α} {i j : ℕ}

theorem trueIndex_machine (room : q.start + i ≤ intMax) :
    q.machine.priqueueGetTrueIndex i = .ok (q.priqueueGetTrueIndex i) := by
  have sum : addInt i q.machine.start = .ok (i + q.start) := addInt_eq
    (by change _ ≤ (i : ℤ) + (q.start : ℤ); simp only [intMax]; omega)
    (by change (i : ℤ) + (q.start : ℤ) ≤ _; omega)
  rw [priqueueGetTrueIndex, sum]
  rfl

theorem trueIndex_inside (q : Priqueue α) (i : ℕ) :
    0 ≤ q.priqueueGetTrueIndex i ∧ q.priqueueGetTrueIndex i < q.size := by
  rw [Priqueue.trueIndex_eq]
  have small := Nat.mod_lt (i + q.start) q.positive
  omega

theorem slot_machine (q : Priqueue α) (i : ℕ) :
    slot q.machine.size (q.priqueueGetTrueIndex i) = .ok (q.priqueueGetTrueIndex i) :=
  if_pos (trueIndex_inside q i)

theorem load_machine (q : Priqueue α) (i : ℕ) :
    q.machine.load (q.priqueueGetTrueIndex i) = .ok (q.entry i) := by
  rw [load, slot_machine]
  rfl

theorem store_machine (q : Priqueue α) (i : ℕ) (ptr : α) :
    q.machine.store (q.priqueueGetTrueIndex i) ptr = .ok (q.setData (q.priqueueGetTrueIndex i) ptr).machine := by
  rw [store, slot_machine]
  rfl

theorem entry_machine (room : q.start + i ≤ intMax) : q.machine.entry i = .ok (q.entry i) := by
  rw [entry, trueIndex_machine room, ok_bind, load_machine]

theorem swapPlaces_machine (room : q.start + i ≤ intMax) (room' : q.start + j ≤ intMax) :
    q.machine.swapPlaces i j =
      .ok (q.priqueueSwap (q.priqueueGetTrueIndex i) (q.priqueueGetTrueIndex j)).machine := by
  rw [swapPlaces, trueIndex_machine room, ok_bind, trueIndex_machine room', ok_bind, priqueueSwap,
    load_machine, ok_bind, load_machine, ok_bind, store_machine, ok_bind]
  exact store_machine (q.setData (q.priqueueGetTrueIndex i) (q.entry j)) j (q.entry i)

theorem copyLoop_machine {slots : ℤ} {data : ℤ → α} (rest : ℕ) (wide : (i + rest : ℕ) ≤ slots)
    (room : q.start + (i + rest - 1 : ℕ) ≤ intMax) :
    q.machine.copyLoop slots data rest i =
      .ok fun k => if i ≤ k ∧ k < (i + rest : ℕ) then q.data (q.priqueueGetTrueIndex k) else data k := by
  induction rest generalizing i data with
  | zero =>
    rw [copyLoop]
    congr 1
    funext k
    rw [if_neg (by omega)]
  | succ rest ih =>
    have inside : slot slots i = .ok (i : ℤ) := if_pos (by omega)
    rw [copyLoop, entry_machine (by omega), ok_bind, inside, ok_bind, ih (by omega) (by omega)]
    congr 1
    funext k
    rcases eq_or_ne k i with rfl | other
    · rw [if_neg (by omega), if_pos (by omega), Function.update_self]
      rfl
    · rw [Function.update_of_ne other]
      exact if_congr (by omega) rfl rfl

theorem priqueueResize_machine (room : q.start + (q.count - 1 : ℕ) ≤ intMax)
    (small : 2 * q.size + 1 ≤ intMax) : q.machine.priqueueResize = .ok q.priqueueResize.machine := by
  have fits := q.fits
  have slots : addInt (q.machine.size * 2) 1 = .ok (q.size * 2 + 1 : ℕ) := addInt_eq
    (by change _ ≤ (q.size : ℤ) * 2 + 1; simp only [intMax]; omega)
    (by change (q.size : ℤ) * 2 + 1 ≤ _; omega)
  have copied : q.machine.copyLoop (q.size * 2 + 1 : ℕ) (q.malloc (q.size * 2 + 1)) q.count 0 = .ok fun k =>
      if (0 : ℕ) ≤ k ∧ k < (0 + q.count : ℕ) then q.data (q.priqueueGetTrueIndex k)
      else q.malloc (q.size * 2 + 1) k :=
    copyLoop_machine q.count (by omega) (by simpa only [Nat.zero_add] using room)
  have number : q.machine.count.toNat = q.count := Int.toNat_natCast _
  rw [priqueueResize, slots, ok_bind, number, Int.toNat_natCast]
  change (q.machine.copyLoop _ (q.malloc _) _ _ >>= _) = _
  rw [copied]
  simp only [Nat.zero_add, Nat.cast_zero]
  rfl

theorem makeRoom_machine (room : q.start + (q.count - 1 : ℕ) ≤ intMax)
    (small : q.count = q.size → 2 * q.size + 1 ≤ intMax) :
    q.machine.makeRoom = .ok q.makeRoom.machine := by
  have same : q.machine.count = q.machine.size ↔ q.count = q.size := Int.natCast_inj
  rw [makeRoom, Priqueue.makeRoom, if_congr same rfl rfl]
  split
  · next full => exact priqueueResize_machine room (small full)
  · rfl

theorem offerIndex_machine (ptr : α) (rest : ℕ) (room : q.start + (i + rest - 1 : ℕ) ≤ intMax) :
    q.machine.offerIndex ptr rest i = .ok (q.offerIndex ptr rest i) := by
  induction rest generalizing i with
  | zero => rfl
  | succ rest ih =>
    rw [offerIndex, entry_machine (by omega), ok_bind, Priqueue.offerIndex]
    change (if q.comparer ptr (q.entry i) ≥ 0 then _ else _) = Except.ok (if q.comparer ptr (q.entry i) ≥ 0 then _ else _)
    split
    · exact ih (by omega)
    · rfl

theorem swapDown_machine (index steps : ℕ) (room : q.start + (index + steps : ℕ) ≤ intMax) :
    q.machine.swapDown index steps = .ok (q.swapDown index steps).machine := by
  induction steps generalizing q with
  | zero => rfl
  | succ steps ih =>
    rw [swapDown, swapPlaces_machine (by omega) (by omega), ok_bind, Priqueue.swapDown]
    apply ih
    change (q.start : ℤ) + _ ≤ _
    omega

theorem swapUp_machine (steps : ℕ) (room : q.start + (i + steps : ℕ) ≤ intMax) :
    q.machine.swapUp i steps = .ok (q.swapUp i steps).machine := by
  induction steps generalizing q i with
  | zero => rfl
  | succ steps ih =>
    rw [swapUp, swapPlaces_machine (by omega) (by omega), ok_bind, Priqueue.swapUp]
    apply ih
    change (q.start : ℤ) + _ ≤ _
    omega

theorem makeRoom_start (room : q.machine.start + q.machine.offerReach ≤ intMax) (few : q.count < intMax) :
    q.makeRoom.start + q.makeRoom.count ≤ intMax ∧ q.makeRoom.count = q.count := by
  change (q.start : ℤ) + (if (q.count : ℤ) = q.size then (q.count : ℤ) - 1 else q.count) ≤ intMax at room
  rw [Priqueue.makeRoom]
  split
  · refine ⟨?_, rfl⟩
    change ((0 : ℕ) : ℤ) + q.count ≤ intMax
    omega
  · next ne =>
    rw [if_neg (by omega)] at room
    exact ⟨room, rfl⟩

theorem priqueueOffer_machine (ptr : α) (room : q.machine.start + q.machine.offerReach ≤ intMax)
    (few : q.count < intMax) (small : q.count = q.size → 2 * q.size + 1 ≤ intMax) :
    q.machine.priqueueOffer ptr = .ok ((q.priqueueOffer ptr).1.machine, (q.priqueueOffer ptr).2) := by
  have copied : q.start + (q.count - 1 : ℕ) ≤ intMax := by
    have positive := q.positive
    change (q.start : ℤ) + (if (q.count : ℤ) = q.size then (q.count : ℤ) - 1 else q.count) ≤ intMax at room
    split at room <;> omega
  let r := q.makeRoom
  have roomR : (r.start : ℤ) + r.count ≤ intMax := (makeRoom_start room few).1
  have countR : r.count = q.count := (makeRoom_start room few).2
  let index := r.offerIndex ptr r.count 0
  let s := r.setData (r.priqueueGetTrueIndex r.count) ptr
  let t := s.swapDown index (s.count - index)
  have number : r.machine.count.toNat = r.count := Int.toNat_natCast _
  have found : r.machine.offerIndex ptr r.machine.count.toNat 0 = .ok index := by
    rw [number]
    exact offerIndex_machine ptr r.count (by omega)
  have last : r.machine.priqueueGetTrueIndex r.machine.count = .ok (r.priqueueGetTrueIndex r.count) :=
    trueIndex_machine roomR
  have written : r.machine.store (r.priqueueGetTrueIndex r.count) ptr = .ok s.machine := store_machine r r.count ptr
  have below : index ≤ r.count := by
    have place : index = 0 + _ := Priqueue.offerIndex_eq r.count 0
    have bound := @StableInsert.position_le _ (Priqueue.Less r.comparer) _ ptr
      (window (fun i => r.entry (0 + i)) r.count)
    rw [length_window] at bound
    omega
  have moved : s.machine.swapDown index (s.machine.count.toNat - index) = .ok t.machine := by
    have number : s.machine.count.toNat = s.count := Int.toNat_natCast _
    rw [number]
    apply swapDown_machine
    change (r.start : ℤ) + (index + (r.count - index) : ℕ) ≤ intMax
    rw [Nat.add_sub_cancel' below]
    exact roomR
  have countT : t.count = r.count := (Priqueue.swapDown_shape s index (s.count - index)).count
  have counted : addInt t.machine.count 1 = .ok (t.count + 1 : ℕ) := addInt_eq
    (by change _ ≤ (t.count : ℤ) + 1; simp only [intMax]; omega)
    (by change (t.count : ℤ) + 1 ≤ _; omega)
  rw [priqueueOffer, makeRoom_machine copied small, ok_bind, found, ok_bind, last, ok_bind, written,
    ok_bind, moved, ok_bind, counted]
  rfl

theorem priqueuePeek_machine (room : q.start ≤ intMax) : q.machine.priqueuePeek = .ok q.priqueuePeek := by
  have head : q.machine.entry 0 = .ok (q.entry 0) := entry_machine (i := 0) (by omega)
  have empty : q.machine.priqueueSize = 0 ↔ q.priqueueSize = 0 := Int.natCast_eq_zero
  rw [priqueuePeek, Priqueue.priqueuePeek, head, if_congr empty rfl rfl]
  split <;> rfl

theorem priqueuePoll_machine (room : q.machine.start + q.machine.pollReach ≤ intMax) :
    q.machine.priqueuePoll = .ok (q.priqueuePoll.1.machine, q.priqueuePoll.2) := by
  have empty : q.machine.priqueueSize = 0 ↔ q.priqueueSize = 0 := Int.natCast_eq_zero
  rw [priqueuePoll, Priqueue.priqueuePoll, if_congr empty rfl rfl]
  split
  · rfl
  · next nonempty =>
    have count : (q.count : ℤ) ≠ 0 := Int.natCast_ne_zero.mpr nonempty
    change (q.start : ℤ) + (if (q.count : ℤ) = 0 then 0 else 1) ≤ intMax at room
    rw [if_neg count] at room
    have head : q.machine.entry 0 = .ok (q.entry 0) := entry_machine (i := 0) (by omega)
    have next : addInt q.machine.start 1 = .ok (q.start + 1 : ℕ) := addInt_eq
      (by change _ ≤ (q.start : ℤ) + 1; simp only [intMax]; omega)
      (by change (q.start : ℤ) + 1 ≤ _; omega)
    have left : q.machine.count - 1 = (q.count - 1 : ℕ) := by
      change (q.count : ℤ) - 1 = _
      omega
    rw [head, ok_bind, next, ok_bind, left]
    rfl

theorem priqueueAt_machine (room : q.machine.start + q.machine.atReach i ≤ intMax) :
    q.machine.priqueueAt i = .ok (q.priqueueAt i) := by
  rw [priqueueAt, Priqueue.priqueueAt]
  change (if (i : ℤ) ≥ q.count then _ else _) = _
  split
  · rfl
  · next inside =>
    change (q.start : ℤ) + (if (i : ℤ) < q.count then (i : ℤ) else 0) ≤ intMax at room
    rw [if_pos (by omega)] at room
    rw [entry_machine room]
    rfl

theorem priqueueRemoveAt_machine (index : ℤ) (room : q.machine.start + q.machine.removeAtReach index ≤ intMax) :
    q.machine.priqueueRemoveAt index =
      .ok ((q.priqueueRemoveAt index).1.machine, (q.priqueueRemoveAt index).2) := by
  rw [priqueueRemoveAt, Priqueue.priqueueRemoveAt]
  change (if index < 0 ∨ index ≥ q.count then _ else _) = _
  split
  · rfl
  · next inside =>
    change (q.start : ℤ) + (if index < 0 ∨ index ≥ q.count then 0 else (q.count : ℤ) - 1) ≤ intMax at room
    rw [if_neg inside] at room
    let r := q.swapUp index.toNat (q.count - 1 - index.toNat)
    let s : Priqueue α := { r with count := r.count - 1, fits := Nat.le_trans (Nat.sub_le ..) r.fits }
    have number : q.machine.count.toNat = q.count := Int.toNat_natCast _
    have moved : q.machine.swapUp index.toNat (q.machine.count.toNat - 1 - index.toNat) = .ok r.machine := by
      rw [number]
      apply swapUp_machine
      rw [show index.toNat + (q.count - 1 - index.toNat) = q.count - 1 by omega]
      omega
    have shape := Priqueue.swapUp_shape q index.toNat (q.count - 1 - index.toNat)
    have left : r.machine.count - 1 = (r.count - 1 : ℕ) := by
      have same : r.count = q.count := shape.count
      change (r.count : ℤ) - 1 = _
      omega
    have last : s.machine.entry (s.count : ℕ) = .ok (s.entry s.count) := by
      apply entry_machine
      have start : s.start = q.start := shape.start
      have count : s.count = q.count - 1 := congrArg (· - 1) shape.count
      rw [start, count]
      omega
    rw [moved, ok_bind, left]
    change (s.machine.entry (s.count : ℕ) >>= _) = _
    rw [last]
    rfl

theorem removeLoop_machine [DecidableEq α] (ptr : α) (rest removed : ℕ) (counted : q.count = i + rest)
    (room : q.start + (q.count - 1 : ℕ) ≤ intMax) :
    removeLoop ptr rest q.machine i removed =
      .ok ((Priqueue.removeLoop ptr rest q i removed).1.machine, (Priqueue.removeLoop ptr rest q i removed).2) := by
  induction rest generalizing q i removed with
  | zero => rfl
  | succ rest ih =>
    rw [removeLoop, entry_machine (by omega), ok_bind, Priqueue.removeLoop]
    have read : q.data (q.priqueueGetTrueIndex i) = q.entry i := rfl
    rw [read]
    split
    · have roomI : q.machine.start + q.machine.removeAtReach i ≤ intMax := by
        change (q.start : ℤ) + (if (i : ℤ) < 0 ∨ (i : ℤ) ≥ q.count then 0 else (q.count : ℤ) - 1) ≤ intMax
        rw [if_neg (by omega)]
        omega
      have shape : (q.priqueueRemoveAt i).1.count = q.count - 1 ∧ (q.priqueueRemoveAt i).1.start = q.start := by
        rw [Priqueue.priqueueRemoveAt, if_neg (by omega)]
        have shape := Priqueue.swapUp_shape q (i : ℤ).toNat (q.count - 1 - (i : ℤ).toNat)
        exact ⟨congrArg (· - 1) shape.count, shape.start⟩
      rw [priqueueRemoveAt_machine _ roomI, ok_bind]
      exact ih (removed + 1) (by omega) (by omega)
    · exact ih removed (by omega) room

theorem priqueueRemove_machine [DecidableEq α] (ptr : α) (room : q.start + (q.count - 1 : ℕ) ≤ intMax) :
    q.machine.priqueueRemove ptr = .ok ((q.priqueueRemove ptr).1.machine, (q.priqueueRemove ptr).2) := by
  have number : q.machine.count.toNat = q.count := Int.toNat_natCast _
  rw [priqueueRemove, number, removeLoop_machine ptr q.count 0 (by omega) room]
  rfl

end Forward

section Backward

variable {q q' : PriqueueT α}

theorem trueIndex_le {index index' : ℤ} (ran : q.priqueueGetTrueIndex index = .ok index') :
    q.start + index ≤ intMax := by
  obtain ⟨sum, added, -⟩ := bind_ok ran
  have bound := addInt_le added
  omega

theorem entry_le {index : ℤ} {ptr : α} (ran : q.entry index = .ok ptr) : q.start + index ≤ intMax := by
  obtain ⟨_, found, -⟩ := bind_ok ran
  exact trueIndex_le found

theorem copyLoop_le {slots : ℤ} {data data' : ℤ → α} {rest i : ℕ}
    (ran : q.copyLoop slots data (rest + 1) i = .ok data') : q.start + (i + rest : ℕ) ≤ intMax := by
  induction rest generalizing i data with
  | zero =>
    obtain ⟨_, read, -⟩ := bind_ok ran
    exact entry_le read
  | succ rest ih =>
    obtain ⟨_, -, ran⟩ := bind_ok ran
    obtain ⟨_, -, ran⟩ := bind_ok ran
    have bound := ih ran
    omega

theorem priqueueOffer_le {ptr : α} {r : PriqueueT α × ℕ} (nonempty : q.count = q.size → 0 < q.count)
    (ran : q.priqueueOffer ptr = .ok r) : q.start + q.offerReach ≤ intMax := by
  obtain ⟨t, room, ran⟩ := bind_ok ran
  rw [makeRoom] at room
  rw [offerReach]
  split at room
  · next full =>
    obtain ⟨_, -, room⟩ := bind_ok room
    obtain ⟨_, copied, -⟩ := bind_ok room
    have positive := nonempty full
    obtain ⟨n, count⟩ : ∃ n, q.count.toNat = n + 1 := ⟨q.count.toNat - 1, by omega⟩
    rw [count] at copied
    have bound := copyLoop_le copied
    rw [if_pos full]
    omega
  · next free =>
    cases room
    obtain ⟨_, -, ran⟩ := bind_ok ran
    obtain ⟨_, last, -⟩ := bind_ok ran
    rw [if_neg free]
    exact trueIndex_le last

theorem priqueuePoll_le {r : PriqueueT α × Option α} (small : q.start ≤ intMax) (ran : q.priqueuePoll = .ok r) :
    q.start + q.pollReach ≤ intMax := by
  rw [priqueuePoll, priqueueSize] at ran
  rw [pollReach]
  split at ran
  · next empty =>
    rw [if_pos empty]
    omega
  · next nonempty =>
    obtain ⟨_, -, ran⟩ := bind_ok ran
    obtain ⟨_, next, -⟩ := bind_ok ran
    rw [if_neg nonempty]
    exact addInt_le next

theorem priqueueAt_le {index : ℤ} {ptr : Option α} (small : q.start ≤ intMax)
    (ran : q.priqueueAt index = .ok ptr) : q.start + q.atReach index ≤ intMax := by
  rw [priqueueAt] at ran
  rw [atReach]
  split at ran
  · next outside =>
    rw [if_neg (by omega)]
    omega
  · next inside =>
    rw [if_pos (by omega)]
    cases read : q.entry index with
    | error fault =>
      rw [read] at ran
      cases ran
    | ok ptr => exact entry_le read

theorem store_frame {index : ℤ} {ptr : α} (ran : q.store index ptr = .ok q') :
    q'.start = q.start ∧ q'.count = q.count := by
  obtain ⟨_, -, ran⟩ := bind_ok ran
  cases ran
  exact ⟨rfl, rfl⟩

theorem swapPlaces_frame {i j : ℤ} (ran : q.swapPlaces i j = .ok q') :
    q'.start = q.start ∧ q'.count = q.count := by
  obtain ⟨_, -, ran⟩ := bind_ok ran
  obtain ⟨_, -, ran⟩ := bind_ok ran
  obtain ⟨_, -, ran⟩ := bind_ok ran
  obtain ⟨_, -, ran⟩ := bind_ok ran
  obtain ⟨t, first, second⟩ := bind_ok ran
  have start := store_frame first
  have finish := store_frame second
  exact ⟨finish.1.trans start.1, finish.2.trans start.2⟩

theorem swapUp_frame {i steps : ℕ} (ran : q.swapUp i steps = .ok q') :
    q'.start = q.start ∧ q'.count = q.count := by
  induction steps generalizing q i with
  | zero =>
    cases ran
    exact ⟨rfl, rfl⟩
  | succ steps ih =>
    obtain ⟨t, swapped, ran⟩ := bind_ok ran
    have start := swapPlaces_frame swapped
    have finish := ih ran
    exact ⟨finish.1.trans start.1, finish.2.trans start.2⟩

theorem priqueueRemoveAt_le {index : ℤ} {r : PriqueueT α × Option α} (small : q.start ≤ intMax)
    (ran : q.priqueueRemoveAt index = .ok r) : q.start + q.removeAtReach index ≤ intMax := by
  rw [priqueueRemoveAt] at ran
  rw [removeAtReach]
  split at ran
  · next outside =>
    rw [if_pos outside]
    omega
  · next inside =>
    obtain ⟨t, moved, ran⟩ := bind_ok ran
    obtain ⟨start, count⟩ := swapUp_frame moved
    obtain ⟨_, read, -⟩ := bind_ok ran
    have bound : t.start + (t.count - 1) ≤ intMax := entry_le read
    rw [start, count] at bound
    rw [if_neg inside]
    exact bound

/-- Whichever entry is removed first, the moves go up to the last entry; else the last one is read. -/
theorem removeLoop_le [DecidableEq α] {ptr : α} {rest i removed : ℕ} {r : PriqueueT α × ℕ}
    (small : q.start ≤ intMax) (counted : q.count = (i + (rest + 1) : ℕ))
    (ran : removeLoop ptr (rest + 1) q i removed = .ok r) : q.start + (q.count - 1) ≤ intMax := by
  induction rest generalizing i removed with
  | zero =>
    obtain ⟨_, read, -⟩ := bind_ok ran
    have bound := entry_le read
    omega
  | succ rest ih =>
    obtain ⟨other, read, ran⟩ := bind_ok ran
    split at ran
    · obtain ⟨t, removal, -⟩ := bind_ok ran
      have bound := priqueueRemoveAt_le small removal
      rw [removeAtReach, if_neg (by omega)] at bound
      exact bound
    · exact ih (by omega) ran

theorem priqueueRemove_le [DecidableEq α] {ptr : α} {r : PriqueueT α × ℕ} (small : q.start ≤ intMax)
    (nonneg : 0 ≤ q.count) (ran : q.priqueueRemove ptr = .ok r) : q.start + (q.count - 1) ≤ intMax := by
  cases count : q.count.toNat with
  | zero => omega
  | succ n =>
    rw [priqueueRemove, count] at ran
    exact removeLoop_le small (by omega) ran

end Backward

end PriqueueT

end OsLabs.Scheduler
