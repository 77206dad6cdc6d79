import OsLabs.Model.Pthreads.ProducerConsumer
import OsLabs.ToMathlib.RingWindow

/-! # The queue of the producers and consumers

The items added and not removed are the window of the array from `head` on. The flags tell whether
this window is the whole array or nothing. Both counters move by one with every item.
-/

namespace OsLabs.Pthreads

open Monitor RingWindow

variable {s s' : Shared} {point : Point} {cond : Cond} {ns : List (Notification Cond)}

/-- The number of items in the queue. -/
def stored (s : Shared) : ℕ := s.added.length - s.removed.length

/-- The items in the queue, from `head` on. -/
def contents (s : Shared) : List ℤ := ring s.fifo.buf queueSize s.fifo.head (stored s)

structure Fifo (s : Shared) : Prop where
  head : s.fifo.head < queueSize
  tail : s.fifo.tail = (s.fifo.head + stored s) % queueSize
  fits : stored s ≤ queueSize
  full : s.fifo.full = true ↔ stored s = queueSize
  empty : s.fifo.empty = true ↔ stored s = 0
  order : s.removed ++ contents s = s.added

/-- The counters, from the values that they start with. -/
structure Counted (procount concount : ℤ) (s : Shared) : Prop where
  produced : s.totalProduced = procount + s.added.length
  consumed : s.totalConsumed = concount + s.removed.length
  items : s.added = (List.range s.added.length).map fun i : ℕ => procount + i
  produced_le : s.added ≠ [] → s.totalProduced ≤ workMax
  consumed_le : s.removed ≠ [] → s.totalConsumed ≤ workMax

theorem queueSize_pos : 0 < queueSize := by decide

theorem wrap_eq {i : ℕ} (inRing : i < queueSize) : wrap i = (i + 1) % queueSize := by
  rw [wrap]
  split
  · next last => rw [last, Nat.mod_self]
  · next notLast => rw [Nat.mod_eq_of_lt (by omega)]

theorem Fifo.removed_le (fifo : Fifo s) : s.removed.length + stored s = s.added.length := by
  have lengths := congrArg List.length fifo.order
  rw [List.length_append, contents, length_ring] at lengths
  exact lengths

theorem fifo_init (buf : ℕ → ℤ) (procount concount : ℤ) : Fifo ⟨queueInit buf, procount, concount, [], []⟩ where
  head := queueSize_pos
  tail := rfl
  fits := Nat.zero_le _
  full := iff_of_false Bool.false_ne_true (Nat.ne_of_lt queueSize_pos)
  empty := iff_of_true rfl rfl
  order := rfl

theorem counted_init (buf : ℕ → ℤ) (procount concount : ℤ) :
    Counted procount concount ⟨queueInit buf, procount, concount, [], []⟩ where
  produced := (Int.add_zero _).symm
  consumed := (Int.add_zero _).symm
  items := rfl
  produced_le := absurd rfl
  consumed_le := absurd rfl

/-! ## Critical sections -/

theorem producer_wait_iff : producer s = .wait cond ↔
    cond = .notFull ∧ s.fifo.full = true ∧ s.totalProduced ≠ workMax := by
  rw [producer]
  split
  · next waits => exact ⟨fun same => ⟨(Outcome.wait.inj same).symm, waits⟩, fun same => same.1 ▸ rfl⟩
  · next goes =>
    split
    all_goals
      constructor
      · intro impossible
        cases impossible
      · exact fun waits => absurd waits.2 goes

theorem consumer_wait_iff : consumer s = .wait cond ↔
    cond = .notEmpty ∧ s.fifo.empty = true ∧ s.totalConsumed ≠ workMax := by
  rw [consumer]
  split
  · next waits => exact ⟨fun same => ⟨(Outcome.wait.inj same).symm, waits⟩, fun same => same.1 ▸ rfl⟩
  · next goes =>
    split
    all_goals
      constructor
      · intro impossible
        cases impossible
      · exact fun waits => absurd waits.2 goes

/-- A producer that leaves the mutex exits or has added an item. -/
theorem producer_leave (leaves : producer s = .leave s' point ns) :
    (point = .exited ∧ s' = s ∧ workMax ≤ s.totalProduced) ∨
      (point = .working ∧ s' = s.produce ∧ .broadcast .notEmpty ∈ ns ∧ s.fifo.full = false ∧
        s.totalProduced < workMax) := by
  rw [producer] at leaves
  split at leaves
  · cases leaves
  · next goes =>
    split at leaves
    · next done =>
      cases leaves
      exact .inl ⟨rfl, rfl, done⟩
    · next more =>
      cases leaves
      have below := Int.lt_of_not_ge more
      refine .inr ⟨rfl, rfl, List.mem_singleton_self _, ?_, below⟩
      apply eq_false_of_ne_true
      exact fun full => goes ⟨full, Int.ne_of_lt below⟩

/-- A consumer that leaves the mutex exits or has removed an item. -/
theorem consumer_leave (leaves : consumer s = .leave s' point ns) :
    (point = .exited ∧ s' = s ∧ workMax ≤ s.totalConsumed) ∨
      (point = .working ∧ s' = s.consume ∧ .broadcast .notFull ∈ ns ∧ s.fifo.empty = false ∧
        s.totalConsumed < workMax) := by
  rw [consumer] at leaves
  split at leaves
  · cases leaves
  · next goes =>
    split at leaves
    · next done =>
      cases leaves
      exact .inl ⟨rfl, rfl, done⟩
    · next more =>
      cases leaves
      have below := Int.lt_of_not_ge more
      refine .inr ⟨rfl, rfl, List.mem_singleton_self _, ?_, below⟩
      apply eq_false_of_ne_true
      exact fun empty => goes ⟨empty, Int.ne_of_lt below⟩

theorem Fifo.produce (fifo : Fifo s) (notFull : s.fifo.full = false) : Fifo s.produce := by
  have room : stored s < queueSize := by
    apply Nat.lt_of_le_of_ne fifo.fits
    intro whole
    rw [fifo.full.mpr whole] at notFull
    cases notFull
  have lengths := fifo.removed_le
  have more : stored s.produce = stored s + 1 := by
    change (s.added ++ [s.totalProduced]).length - s.removed.length = _
    rw [List.length_append, List.length_singleton]
    omega
  have tail : s.produce.fifo.tail = (s.fifo.head + (stored s + 1)) % queueSize := by
    change wrap s.fifo.tail = _
    rw [wrap_eq (fifo.tail ▸ Nat.mod_lt _ queueSize_pos), fifo.tail, Nat.mod_add_mod, Nat.add_assoc]
  have catches : s.produce.fifo.tail = s.fifo.head ↔ stored s + 1 = queueSize := by
    have head := Nat.mod_eq_of_lt fifo.head
    rw [tail]
    constructor
    · intro same
      by_contra small
      have inRing : stored s + 1 < queueSize := by omega
      apply index_ne s.fifo.head (Nat.succ_pos (stored s)) inRing
      rw [same, Nat.add_zero, head]
    · intro whole
      rw [whole, Nat.add_mod_right, head]
  refine ⟨fifo.head, more ▸ tail, more ▸ room, ?_, ?_, ?_⟩
  · rw [more, ← catches]
    change (if s.produce.fifo.tail = s.fifo.head then true else s.fifo.full) = true ↔ _
    rw [notFull]
    split
    · next same => exact iff_of_true rfl same
    · next other => exact iff_of_false Bool.false_ne_true other
  · rw [more]
    exact iff_of_false Bool.false_ne_true (Nat.succ_ne_zero _)
  · change s.removed ++ ring (Function.update s.fifo.buf s.fifo.tail s.totalProduced) queueSize s.fifo.head
      (stored s.produce) = s.added ++ [s.totalProduced]
    rw [more, fifo.tail, ring_push_back room, ← List.append_assoc, ← fifo.order, contents]

theorem Fifo.consume (fifo : Fifo s) (notEmpty : s.fifo.empty = false) : Fifo s.consume := by
  obtain ⟨n, count⟩ : ∃ n, stored s = n + 1 := by
    cases count : stored s with
    | zero =>
      rw [fifo.empty.mpr count] at notEmpty
      cases notEmpty
    | succ n => exact ⟨n, rfl⟩
  have lengths := fifo.removed_le
  have small := fifo.fits
  have less : stored s.consume = n := by
    change s.added.length - (s.removed ++ [s.fifo.buf s.fifo.head]).length = _
    rw [List.length_append, List.length_singleton]
    omega
  have head : s.consume.fifo.head = (s.fifo.head + 1) % queueSize := wrap_eq fifo.head
  have tail : s.fifo.tail = (s.fifo.head + 1 + n) % queueSize := by
    rw [fifo.tail, count, Nat.add_assoc, Nat.add_comm 1 n]
  have catches : s.consume.fifo.head = s.fifo.tail ↔ n = 0 := by
    rw [head, tail]
    constructor
    · intro same
      by_contra some
      have inRing : n < queueSize := by omega
      exact index_ne (s.fifo.head + 1) (Nat.pos_of_ne_zero some) inRing same
    · intro none
      rw [none]
  refine ⟨head ▸ Nat.mod_lt _ queueSize_pos, ?_, by omega, ?_, ?_, ?_⟩
  · rw [less, head, Nat.mod_add_mod]
    exact tail
  · rw [less]
    exact iff_of_false Bool.false_ne_true (by omega)
  · rw [less, ← catches]
    change (if s.consume.fifo.head = s.fifo.tail then true else s.fifo.empty) = true ↔ _
    rw [notEmpty]
    split
    · next same => exact iff_of_true rfl same
    · next other => exact iff_of_false Bool.false_ne_true other
  · change s.removed ++ [s.fifo.buf s.fifo.head] ++ ring s.fifo.buf queueSize s.consume.fifo.head
      (stored s.consume) = s.added
    rw [less, head, List.append_assoc, ← fifo.order, contents, count, ring_succ _ fifo.head]
    rfl

theorem Counted.produce {procount concount : ℤ} (counted : Counted procount concount s)
    (below : s.totalProduced < workMax) : Counted procount concount s.produce where
  produced := by
    change s.totalProduced + 1 = procount + ((s.added ++ [s.totalProduced]).length : ℕ)
    rw [List.length_append, List.length_singleton, counted.produced]
    omega
  consumed := counted.consumed
  items := by
    change s.added ++ [s.totalProduced] = (List.range (s.added ++ [s.totalProduced]).length).map _
    rw [List.length_append, List.length_singleton, List.range_succ, List.map_append, ← counted.items,
      counted.produced]
    rfl
  produced_le _ := below
  consumed_le := counted.consumed_le

theorem Counted.consume {procount concount : ℤ} (counted : Counted procount concount s)
    (below : s.totalConsumed < workMax) : Counted procount concount s.consume where
  produced := counted.produced
  consumed := by
    change s.totalConsumed + 1 = concount + ((s.removed ++ [(queueRemove s.fifo).1]).length : ℕ)
    rw [List.length_append, List.length_singleton, counted.consumed]
    omega
  items := counted.items
  produced_le := counted.produced_le
  consumed_le _ := below

/-! ## Runs -/

variable {pros cons : ℕ} {buf : ℕ → ℤ} {procount concount : ℤ} {t : System pros cons}

/-- What a thread that leaves the mutex does to the shared state. -/
theorem program_leave {i : Thread pros cons} {from_ : Point}
    (leaves : (program pros cons).run i from_ s = .leave s' point ns) :
    s' = s ∨ (s' = s.produce ∧ s.fifo.full = false ∧ s.totalProduced < workMax) ∨
      (s' = s.consume ∧ s.fifo.empty = false ∧ s.totalConsumed < workMax) := by
  cases from_ with
  | exited => cases i <;> cases leaves
  | working =>
    cases i with
    | producer =>
      rcases producer_leave leaves with ⟨_, same, _⟩ | ⟨_, added, _, notFull, below⟩
      · exact .inl same
      · exact .inr (.inl ⟨added, notFull, below⟩)
    | consumer =>
      rcases consumer_leave leaves with ⟨_, same, _⟩ | ⟨_, removed, _, notEmpty, below⟩
      · exact .inl same
      · exact .inr (.inr ⟨removed, notEmpty, below⟩)

theorem reachable_fifo (reached : Reachable (program pros cons) (initial pros cons buf procount concount) t) :
    Fifo t.shared := by
  apply reached.shared_inv Fifo (fifo_init buf procount concount)
  · intro i from_ s s' point ns fifo leaves
    rcases program_leave leaves with rfl | ⟨rfl, notFull, _⟩ | ⟨rfl, notEmpty, _⟩
    · exact fifo
    · exact fifo.produce notFull
    · exact fifo.consume notEmpty
  · exact fun _ _ _ impossible => impossible.elim

theorem reachable_counted (reached : Reachable (program pros cons) (initial pros cons buf procount concount) t) :
    Counted procount concount t.shared := by
  apply reached.shared_inv (Counted procount concount) (counted_init buf procount concount)
  · intro i from_ s s' point ns counted leaves
    rcases program_leave leaves with rfl | ⟨rfl, _, below⟩ | ⟨rfl, _, below⟩
    · exact counted
    · exact counted.produce below
    · exact counted.consume below
  · exact fun _ _ _ impossible => impossible.elim

/-- A thread that sleeps without a notification would wait again. -/
theorem reachable_asleep (reached : Reachable (program pros cons) (initial pros cons buf procount concount) t)
    {i : Thread pros cons} (sleeps : t.place i = .asleep point cond) :
    (program pros cons).run i point t.shared = .wait cond := by
  apply reached.asleep_waits (fun _ => rfl) _ (fun _ _ impossible => impossible.elim) sleeps
  intro i from_ s s' point ns leaves k point₁ cond _ waits
  cases point₁ with
  | exited => cases k <;> cases waits
  | working =>
    cases from_ with
    | exited => cases i <;> cases leaves
    | working =>
      cases k with
      | producer =>
        obtain ⟨rfl, full, unfinished⟩ := producer_wait_iff.mp waits
        cases i with
        | producer =>
          rcases producer_leave leaves with ⟨_, rfl, _⟩ | ⟨_, _, _, notFull, _⟩
          · exact .inl waits
          · rw [full] at notFull
            cases notFull
        | consumer =>
          rcases consumer_leave leaves with ⟨_, rfl, _⟩ | ⟨_, _, notified, _⟩
          · exact .inl waits
          · exact .inr (.inl notified)
      | consumer =>
        obtain ⟨rfl, empty, unfinished⟩ := consumer_wait_iff.mp waits
        cases i with
        | producer =>
          rcases producer_leave leaves with ⟨_, rfl, _⟩ | ⟨_, _, notified, _⟩
          · exact .inl waits
          · exact .inr (.inl notified)
        | consumer =>
          rcases consumer_leave leaves with ⟨_, rfl, _⟩ | ⟨_, _, _, notEmpty, _⟩
          · exact .inl waits
          · rw [empty] at notEmpty
            cases notEmpty

/-- A thread exits when the work is done. -/
def ExitsDone (i : Thread pros cons) (s : Shared) : Prop :=
  match i with
  | .producer _ => workMax ≤ s.totalProduced
  | .consumer _ => workMax ≤ s.totalConsumed

theorem ExitsDone.leave {i k : Thread pros cons} {from_ : Point} (exits : ExitsDone k s)
    (leaves : (program pros cons).run i from_ s = .leave s' point ns) : ExitsDone k s' := by
  rcases program_leave leaves with rfl | ⟨rfl, _⟩ | ⟨rfl, _⟩
  · exact exits
  · cases k with
    | producer => exact Int.le_add_one exits
    | consumer => exact exits
  · cases k with
    | producer => exact exits
    | consumer => exact Int.le_add_one exits

theorem reachable_exited (reached : Reachable (program pros cons) (initial pros cons buf procount concount) t)
    {i : Thread pros cons} (exited : t.place i = .code .exited) : ExitsDone i t.shared := by
  apply reached.inv (fun t => ∀ i, t.place i = .code .exited → ExitsDone i t.shared) _ _ i exited
  · intro i impossible
    cases impossible
  · intro t t' _ inv step k exited
    cases step with
    | wait =>
      rcases update_eq_iff.mp exited with ⟨_, impossible⟩ | ⟨_, before⟩
      · cases impossible
      · exact inv k before
    | @leave i from_ point shared ns place _ leaves wakes =>
      rcases update_eq_iff.mp exited with ⟨rfl, here⟩ | ⟨_, before⟩
      · obtain rfl := Place.code.inj here
        cases from_ with
        | exited => cases k <;> cases leaves
        | working =>
          cases k with
          | producer =>
            rcases producer_leave leaves with ⟨_, rfl, done⟩ | ⟨impossible, _⟩
            · exact done
            · cases impossible
          | consumer =>
            rcases consumer_leave leaves with ⟨_, rfl, done⟩ | ⟨impossible, _⟩
            · exact done
            · cases impossible
      · exact (inv k ((wakes.code_iff k _).mp before)).leave leaves
    | spurious =>
      rcases update_eq_iff.mp exited with ⟨_, impossible⟩ | ⟨_, before⟩
      · cases impossible
      · exact inv k before
    | environment impossible => exact impossible.elim

end OsLabs.Pthreads
