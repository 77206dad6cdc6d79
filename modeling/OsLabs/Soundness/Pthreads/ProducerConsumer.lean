import OsLabs.Proofs.Pthreads.ProducerConsumer

/-! # Delivery and progress of the producers and consumers

Over every interleaving of any number of threads, with wake-ups at any time, the items come out once
each and in order, and the threads never all sleep: a producer that sleeps has a full queue and a
consumer that sleeps an empty one, and when the work is done neither kind waits.
-/

namespace OsLabs.Pthreads

open Monitor

variable {pros cons : ℕ} {buf : ℕ → ℤ} {t : System pros cons}

/-- The items removed are the first ones. -/
theorem removed_eq {procount concount : ℤ} {s : Shared} (fifo : Fifo s) (counted : Counted procount concount s) :
    s.removed = (List.range s.removed.length).map fun i : ℕ => procount + i := by
  have lengths := fifo.removed_le
  have first : s.removed = s.added.take s.removed.length := by
    rw [← fifo.order, List.take_left]
  rw [counted.items, ← List.map_take, List.take_range, Nat.min_eq_left (by omega)] at first
  exact first

/-- Every item is delivered once and in order; an iteration goes on when it has added or removed an item. -/
theorem delivered_in_order (reached : Reachable (program pros cons) (initial pros cons buf 0 0) t) :
    (∃ n : ℕ, t.shared.totalProduced = n ∧
      t.shared.removed ++ contents t.shared = (List.range n).map fun i : ℕ => (i : ℤ)) ∧
    t.shared.totalProduced ≤ workMax ∧ t.shared.totalConsumed ≤ workMax ∧
    t.shared.totalConsumed = t.shared.removed.length ∧ stored t.shared ≤ queueSize ∧
    (t.shared.fifo.full = true ↔ stored t.shared = queueSize) ∧
    (t.shared.fifo.empty = true ↔ stored t.shared = 0) ∧
    (∀ s' ns, producer t.shared = .leave s' .working ns → stored t.shared < queueSize) ∧
    ∀ s' ns, consumer t.shared = .leave s' .working ns → 0 < stored t.shared := by
  have fifo := reachable_fifo reached
  have counted := reachable_counted reached
  have zero (n : ℕ) : (0 : ℤ) + n = n := Int.zero_add n
  refine ⟨⟨t.shared.added.length, ?_, ?_⟩, ?_, ?_, ?_, fifo.fits, fifo.full, fifo.empty,
    fun s' ns leaves => ?_, fun s' ns leaves => ?_⟩
  · rw [counted.produced, zero]
  · rw [fifo.order]
    simpa only [zero] using counted.items
  · cases none : t.shared.added with
    | nil =>
      rw [counted.produced, none]
      decide
    | cons => exact counted.produced_le (none ▸ List.cons_ne_nil _ _)
  · cases none : t.shared.removed with
    | nil =>
      rw [counted.consumed, none]
      decide
    | cons => exact counted.consumed_le (none ▸ List.cons_ne_nil _ _)
  · rw [counted.consumed, zero]
  · rcases producer_leave leaves with ⟨impossible, _⟩ | ⟨_, _, _, notFull, _⟩
    · cases impossible
    · apply Nat.lt_of_le_of_ne fifo.fits
      intro whole
      rw [fifo.full.mpr whole] at notFull
      cases notFull
  · rcases consumer_leave leaves with ⟨impossible, _⟩ | ⟨_, _, _, notEmpty, _⟩
    · cases impossible
    · apply Nat.pos_of_ne_zero
      intro none
      rw [fifo.empty.mpr none] at notEmpty
      cases notEmpty

/-- After the first item of one producer and two consumers. -/
theorem delivered_in_order_first : ∃ t : System 1 2,
    Reachable (program 1 2) (initial 1 2 (fun _ => 7) 0 0) t ∧ t.shared.added = [0] ∧
      ∃ n : ℕ, t.shared.totalProduced = n ∧
        t.shared.removed ++ contents t.shared = (List.range n).map fun i : ℕ => (i : ℤ) := by
  have reached : Reachable (program 1 2) (initial 1 2 (fun _ => 7) 0 0) _ :=
    .single (.leave (i := .producer 0) rfl rfl (wakesAll_broadcast ..))
  exact ⟨_, reached, rfl, (delivered_in_order reached).1⟩

/-! ## Progress -/

theorem run_ended_iff {i : Thread pros cons} {point : Point} {s : Shared} :
    (program pros cons).run i point s = .ended ↔ point = .exited := by
  constructor
  · intro ended
    cases point with
    | exited => rfl
    | working =>
      cases i with
      | producer =>
        change producer s = .ended at ended
        rw [producer] at ended
        split at ended
        · cases ended
        · split at ended <;> cases ended
      | consumer =>
        change consumer s = .ended at ended
        rw [consumer] at ended
        split at ended
        · cases ended
        · split at ended <;> cases ended
  · rintro rfl
    cases i <;> rfl

theorem ended_iff {i : Thread pros cons} : t.Ended (program pros cons) i ↔ t.place i = .code .exited := by
  constructor
  · rintro ⟨point, here, ended⟩
    rw [here, run_ended_iff.mp ended]
  · exact fun here => ⟨.exited, here, run_ended_iff.mpr rfl⟩

/-- A sleeping producer has a full queue, and more to produce. -/
theorem producer_asleep {procount concount : ℤ}
    (reached : Reachable (program pros cons) (initial pros cons buf procount concount) t) {tid : Fin pros}
    {point : Point} {cond : Cond} (sleeps : t.place (.producer tid) = .asleep point cond) :
    t.shared.fifo.full = true ∧ t.shared.totalProduced ≠ workMax := by
  have waits := reachable_asleep reached sleeps
  cases point with
  | exited => cases waits
  | working => exact (producer_wait_iff.mp waits).2

/-- A sleeping consumer has an empty queue, and more to consume. -/
theorem consumer_asleep {procount concount : ℤ}
    (reached : Reachable (program pros cons) (initial pros cons buf procount concount) t) {tid : Fin cons}
    {point : Point} {cond : Cond} (sleeps : t.place (.consumer tid) = .asleep point cond) :
    t.shared.fifo.empty = true ∧ t.shared.totalConsumed ≠ workMax := by
  have waits := reachable_asleep reached sleeps
  cases point with
  | exited => cases waits
  | working => exact (consumer_wait_iff.mp waits).2

/-- As long as a thread has not exited, some thread can take a step, and no thread sleeps when its part of the
work is done. -/
theorem never_stuck (somePros : 0 < pros) (someCons : 0 < cons)
    (reached : Reachable (program pros cons) (initial pros cons buf 0 0) t) :
    ((∀ i, t.Ended (program pros cons) i) ∨ ∃ i, t.CanStep (program pros cons) i) ∧
    (workMax - 1 ∈ t.shared.removed → ∀ tid point cond, t.place (.consumer tid) ≠ .asleep point cond) ∧
    (t.shared.added.length = workMax → ∀ tid point cond, t.place (.producer tid) ≠ .asleep point cond) := by
  have fifo := reachable_fifo reached
  have counted := reachable_counted reached
  have lengths := fifo.removed_le
  obtain ⟨_, producedLe, consumedLe, _⟩ := delivered_in_order reached
  have produced := counted.produced
  have consumed := counted.consumed
  refine ⟨?_, fun lastTaken tid point cond sleeps => ?_, fun allAdded tid point cond sleeps => ?_⟩
  · by_cases can : ∃ i, t.CanStep (program pros cons) i
    · exact .inr can
    apply Or.inl
    have endedOrAsleep (i : Thread pros cons) :
        t.place i = .code .exited ∨ ∃ point cond, t.place i = .asleep point cond := by
      have ends : ∀ i point shared shared', (program pros cons).run i point shared = .ended →
          (program pros cons).run i point shared' = .ended := fun _ _ _ _ ended =>
        run_ended_iff.mpr (run_ended_iff.mp ended)
      rcases reached.ended_or_canStep (fun _ => rfl) ends i with ended | canStep | sleeps
      · exact .inl (ended_iff.mp ended)
      · exact absurd ⟨i, canStep⟩ can
      · exact .inr sleeps
    have finished : t.shared.totalProduced = workMax := by
      by_contra unfinished
      rcases endedOrAsleep (.producer ⟨0, somePros⟩) with exited | ⟨_, _, sleeps⟩
      · have done : workMax ≤ t.shared.totalProduced := reachable_exited reached exited
        omega
      · have full := fifo.full.mp (producer_asleep reached sleeps).1
        rcases endedOrAsleep (.consumer ⟨0, someCons⟩) with exited | ⟨_, _, sleeps⟩
        · have done : workMax ≤ t.shared.totalConsumed := reachable_exited reached exited
          omega
        · have empty := fifo.empty.mp (consumer_asleep reached sleeps).1
          have positive := queueSize_pos
          omega
    intro i
    rw [ended_iff]
    rcases endedOrAsleep i with exited | ⟨_, _, sleeps⟩
    · exact exited
    · cases i with
      | producer => exact absurd finished (producer_asleep reached sleeps).2
      | consumer =>
        obtain ⟨empty, unfinished⟩ := consumer_asleep reached sleeps
        have none := fifo.empty.mp empty
        omega
  · have unfinished := (consumer_asleep reached sleeps).2
    rw [removed_eq fifo counted, List.mem_map] at lastTaken
    obtain ⟨i, inRange, isLast⟩ := lastTaken
    rw [List.mem_range] at inRange
    omega
  · have unfinished := (producer_asleep reached sleeps).2
    omega

/-- A consumer that went to sleep before anything was produced. -/
theorem never_stuck_asleep : ∃ t : System 1 1,
    Reachable (program 1 1) (initial 1 1 (fun _ => 7) 0 0) t ∧
      t.place (.consumer 0) = .asleep .working .notEmpty ∧
      ((∀ i, t.Ended (program 1 1) i) ∨ ∃ i, t.CanStep (program 1 1) i) := by
  have reached : Reachable (program 1 1) (initial 1 1 (fun _ => 7) 0 0) _ :=
    .single (.wait (i := .consumer 0) rfl rfl)
  exact ⟨_, reached, rfl, (never_stuck Nat.one_pos Nat.one_pos reached).1⟩

end OsLabs.Pthreads
