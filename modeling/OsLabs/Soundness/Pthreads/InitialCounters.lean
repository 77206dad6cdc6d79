import OsLabs.Soundness.Pthreads.ProducerConsumer

/-! # What the allocated counters decide

`main` allocates the two counters and hands them to the threads without setting them. Every thread
counts on from what the memory holds, so the items are those from the first counter on, and both
sides stop at the maximum. If the threads can all exit at all, the work done is the intended work
only when both counters start at zero.
-/

namespace OsLabs.Pthreads

open Monitor

variable {pros cons : ℕ} {buf : ℕ → ℤ} {procount concount : ℤ} {s : Shared} {t : System pros cons}

/-- The work left to a counter. -/
def left (count : ℤ) : ℕ := (workMax - count).toNat

/-- The values of the counters with which all threads can exit: the queue takes what is produced and
not consumed, and consumers over their maximum still need an item to see. -/
def CanEnd (procount concount : ℤ) : Prop :=
  left concount ≤ left procount ∧ left procount ≤ left concount + queueSize ∧
    (concount ≤ workMax ∨ 0 < left procount)

instance : Decidable (CanEnd procount concount) := inferInstanceAs (Decidable (_ ∧ _))

/-- The items consumed are those from 0 to the maximum, once each. -/
def AllConsumed (s : Shared) : Prop := s.removed.Perm ((List.range workMax.toNat).map fun i : ℕ => (i : ℤ))

/-! ## The end -/

/-- When all threads have exited, both sides have done the work left to them. -/
theorem ended_lengths (somePros : 0 < pros) (someCons : 0 < cons)
    (reached : Reachable (program pros cons) (initial pros cons buf procount concount) t)
    (ended : ∀ i, t.place i = .code .exited) :
    t.shared.added.length = left procount ∧ t.shared.removed.length = left concount := by
  have counted := reachable_counted reached
  have produced : workMax ≤ t.shared.totalProduced := reachable_exited reached (ended (.producer ⟨0, somePros⟩))
  have consumed : workMax ≤ t.shared.totalConsumed := reachable_exited reached (ended (.consumer ⟨0, someCons⟩))
  rw [counted.produced] at produced
  rw [counted.consumed] at consumed
  simp only [left]
  constructor
  · by_cases none : t.shared.added = []
    · rw [none] at produced ⊢
      simp only [List.length_nil] at produced ⊢
      omega
    · have most := counted.produced_le none
      rw [counted.produced] at most
      omega
  · by_cases none : t.shared.removed = []
    · rw [none] at consumed ⊢
      simp only [List.length_nil] at consumed ⊢
      omega
    · have most := counted.consumed_le none
      rw [counted.consumed] at most
      omega

/-- A consumer over its maximum only exits from a queue that holds an item. -/
theorem exited_sees (reached : Reachable (program pros cons) (initial pros cons buf procount concount) t)
    {tid : Fin cons} (exited : t.place (.consumer tid) = .code .exited) :
    t.shared.totalConsumed = workMax ∨ t.shared.added ≠ [] := by
  apply reached.inv (fun t => ∀ tid, t.place (.consumer tid) = .code .exited →
    t.shared.totalConsumed = workMax ∨ t.shared.added ≠ []) _ _ tid exited
  · intro tid impossible
    cases impossible
  · intro t t' before inv step tid exited
    cases step with
    | wait =>
      rcases update_eq_iff.mp exited with ⟨_, impossible⟩ | ⟨_, earlier⟩
      · cases impossible
      · exact inv tid earlier
    | @leave i from_ point shared ns place _ leaves wakes =>
      have fifo := reachable_fifo before
      rcases update_eq_iff.mp exited with ⟨rfl, here⟩ | ⟨_, earlier⟩
      · obtain rfl := Place.code.inj here
        cases from_ with
        | exited => cases leaves
        | working =>
          change consumer t.shared = _ at leaves
          rcases consumer_leave leaves with ⟨_, rfl, done⟩ | ⟨impossible, _⟩
          · by_cases most : t.shared.totalConsumed = workMax
            · exact .inl most
            · apply Or.inr
              intro none
              have empty : t.shared.fifo.empty = true := by
                apply fifo.empty.mpr
                rw [stored, none]
                exact Nat.zero_sub _
              rw [consumer, if_pos ⟨empty, most⟩] at leaves
              cases leaves
          · cases impossible
      · rcases inv tid ((wakes.code_iff _ _).mp earlier) with most | some
        · rcases program_leave leaves with rfl | ⟨rfl, _⟩ | ⟨rfl, _, below⟩
          · exact .inl most
          · exact .inl most
          · omega
        · apply Or.inr
          rcases program_leave leaves with rfl | ⟨rfl, _⟩ | ⟨rfl, _⟩
          · exact some
          · change t.shared.added ++ [t.shared.totalProduced] ≠ []
            simp
          · exact some
    | spurious =>
      rcases update_eq_iff.mp exited with ⟨_, impossible⟩ | ⟨_, earlier⟩
      · cases impossible
      · exact inv tid earlier
    | environment impossible => exact impossible.elim

theorem canEnd_of_ended (somePros : 0 < pros) (someCons : 0 < cons)
    (reached : Reachable (program pros cons) (initial pros cons buf procount concount) t)
    (ended : ∀ i, t.place i = .code .exited) : CanEnd procount concount := by
  obtain ⟨added, removed⟩ := ended_lengths somePros someCons reached ended
  have fifo := reachable_fifo reached
  have lengths := fifo.removed_le
  have fits := fifo.fits
  refine ⟨by omega, by omega, ?_⟩
  rcases exited_sees reached (ended (.consumer ⟨0, someCons⟩)) with most | some
  · rw [(reachable_counted reached).consumed] at most
    omega
  · rw [← added]
    exact .inr (List.length_pos_iff.mpr some)

/-! ## A schedule -/

/-- All threads at the top of their loops. -/
def atTop (s : Shared) : System pros cons := ⟨s, fun _ => .code .working⟩

theorem producer_goes (notFull : s.fifo.full = false) (more : s.totalProduced < workMax) :
    producer s = .leave s.produce .working [.broadcast .notEmpty] := by
  rw [producer, notFull, if_neg (fun both => Bool.false_ne_true both.1), if_neg (by omega)]

theorem consumer_goes (notEmpty : s.fifo.empty = false) (more : s.totalConsumed < workMax) :
    consumer s = .leave s.consume .working [.broadcast .notFull] := by
  rw [consumer, notEmpty, if_neg (fun both => Bool.false_ne_true both.1), if_neg (by omega)]

theorem atTop_step {i : Thread pros cons} {s' : Shared} {ns : List (Notification Cond)}
    (reached : Reachable (program pros cons) (initial pros cons buf procount concount) (atTop s))
    (leaves : (program pros cons).run i .working s = .leave s' .working ns) :
    Reachable (program pros cons) (initial pros cons buf procount concount) (atTop s') := by
  have awake : ∀ k, ∃ point, (atTop s : System pros cons).place k = .code point := fun _ => ⟨.working, rfl⟩
  have step : Step (program pros cons) (atTop s)
      ⟨s', Function.update (atTop s : System pros cons).place i (.code .working)⟩ :=
    .leave rfl leaves (wakesAll_code awake ns)
  have same : Function.update (atTop s : System pros cons).place i (.code .working) =
      (atTop s' : System pros cons).place := Function.update_eq_self i _
  rw [same] at step
  exact reached.tail step

theorem atTop_fifo
    (reached : Reachable (program pros cons) (initial pros cons buf procount concount) (atTop s)) : Fifo s :=
  reachable_fifo reached

/-- Producer 0 adds an item. -/
theorem atTop_produce (somePros : 0 < pros)
    (reached : Reachable (program pros cons) (initial pros cons buf procount concount) (atTop s))
    (room : stored s < queueSize) (more : s.totalProduced < workMax) :
    Reachable (program pros cons) (initial pros cons buf procount concount) (atTop s.produce) ∧
      stored s.produce = stored s + 1 := by
  have fifo := atTop_fifo reached
  have lengths := fifo.removed_le
  have notFull : s.fifo.full = false := by
    apply eq_false_of_ne_true
    intro full
    exact Nat.ne_of_lt room (fifo.full.mp full)
  refine ⟨atTop_step (i := .producer ⟨0, somePros⟩) reached (producer_goes notFull more), ?_⟩
  change (s.added ++ [s.totalProduced]).length - s.removed.length = _
  rw [List.length_append, List.length_singleton]
  omega

/-- Consumer 0 removes an item. -/
theorem atTop_consume (someCons : 0 < cons)
    (reached : Reachable (program pros cons) (initial pros cons buf procount concount) (atTop s))
    (some : 0 < stored s) (more : s.totalConsumed < workMax) :
    Reachable (program pros cons) (initial pros cons buf procount concount) (atTop s.consume) ∧
      stored s.consume = stored s - 1 := by
  have notEmpty : s.fifo.empty = false := by
    apply eq_false_of_ne_true
    intro empty
    exact Nat.ne_of_gt some ((atTop_fifo reached).empty.mp empty)
  refine ⟨atTop_step (i := .consumer ⟨0, someCons⟩) reached (consumer_goes notEmpty more), ?_⟩
  change s.added.length - (s.removed ++ [(queueRemove s.fifo).1]).length = _
  rw [List.length_append, List.length_singleton, stored]
  omega

/-- Producer 0 and consumer 0 hand over `n` items in turn. -/
theorem hand_over (somePros : 0 < pros) (someCons : 0 < cons) (n : ℕ)
    (reached : Reachable (program pros cons) (initial pros cons buf procount concount) (atTop s))
    (none : stored s = 0) (toProduce : n ≤ left s.totalProduced) (toConsume : n ≤ left s.totalConsumed) :
    ∃ s', Reachable (program pros cons) (initial pros cons buf procount concount) (atTop s') ∧
      stored s' = 0 ∧ s'.totalProduced = s.totalProduced + n ∧ s'.totalConsumed = s.totalConsumed + n := by
  simp only [left] at toProduce toConsume
  induction n generalizing s with
  | zero => exact ⟨s, reached, none, (Int.add_zero _).symm, (Int.add_zero _).symm⟩
  | succ n ih =>
    obtain ⟨produced, one⟩ := atTop_produce somePros reached (none ▸ queueSize_pos) (by omega)
    have counts : s.produce.consume.totalProduced = s.totalProduced + 1 ∧ s.produce.totalConsumed = s.totalConsumed ∧
        s.produce.consume.totalConsumed = s.totalConsumed + 1 := ⟨rfl, rfl, rfl⟩
    obtain ⟨consumed, empty⟩ := atTop_consume someCons produced (by omega) (by omega)
    obtain ⟨s', reached', none', produced', consumed'⟩ := ih consumed (by omega) (by omega) (by omega)
    exact ⟨s', reached', none', by omega, by omega⟩

/-- Producer 0 leaves `n` items in the queue. -/
theorem fill (somePros : 0 < pros) (n : ℕ)
    (reached : Reachable (program pros cons) (initial pros cons buf procount concount) (atTop s))
    (room : stored s + n ≤ queueSize) (toProduce : n ≤ left s.totalProduced) :
    ∃ s', Reachable (program pros cons) (initial pros cons buf procount concount) (atTop s') ∧
      stored s' = stored s + n ∧ s'.totalProduced = s.totalProduced + n ∧ s'.totalConsumed = s.totalConsumed := by
  simp only [left] at toProduce
  induction n generalizing s with
  | zero => exact ⟨s, reached, rfl, (Int.add_zero _).symm, rfl⟩
  | succ n ih =>
    obtain ⟨produced, one⟩ := atTop_produce somePros reached (by omega) (by omega)
    have counts : s.produce.totalProduced = s.totalProduced + 1 ∧
        s.produce.totalConsumed = s.totalConsumed := ⟨rfl, rfl⟩
    obtain ⟨s', reached', stored', produced', consumed'⟩ := ih produced (by omega) (by omega)
    exact ⟨s', reached', by omega, by omega, by omega⟩

def threads (pros cons : ℕ) : List (Thread pros cons) :=
  (List.finRange pros).map .producer ++ (List.finRange cons).map .consumer

theorem mem_threads (i : Thread pros cons) : i ∈ threads pros cons := by
  cases i with
  | producer tid => exact List.mem_append_left _ (List.mem_map_of_mem (List.mem_finRange tid))
  | consumer tid => exact List.mem_append_right _ (List.mem_map_of_mem (List.mem_finRange tid))

/-- Where every thread would exit, all do, one after the other. -/
theorem all_exit (reached : Reachable (program pros cons) (initial pros cons buf procount concount) (atTop s))
    (producerExits : producer s = .leave s .exited []) (consumerExits : consumer s = .leave s .exited []) :
    ∃ t, Reachable (program pros cons) (initial pros cons buf procount concount) t ∧ t.shared = s ∧
      ∀ i, t.place i = .code .exited := by
  have some (l : List (Thread pros cons)) : ∃ t, Reachable (program pros cons)
      (initial pros cons buf procount concount) t ∧ t.shared = s ∧
      (∀ i, ∃ point, t.place i = .code point) ∧ ∀ i ∈ l, t.place i = .code .exited := by
    induction l with
    | nil => exact ⟨_, reached, rfl, fun _ => ⟨.working, rfl⟩, by simp⟩
    | cons i l ih =>
      obtain ⟨t, reached', same, awake, exited⟩ := ih
      obtain ⟨point, here⟩ := awake i
      cases point with
      | exited =>
        refine ⟨t, reached', same, awake, ?_⟩
        intro k member
        rcases List.mem_cons.mp member with rfl | inRest
        · exact here
        · exact exited k inRest
      | working =>
        have leaves : (program pros cons).run i .working t.shared = .leave s .exited [] := by
          rw [same]
          cases i with
          | producer => exact producerExits
          | consumer => exact consumerExits
        have step := Step.leave (by rw [here]; rfl) leaves (wakesAll_code awake [])
        refine ⟨_, reached'.tail step, rfl, ?_, ?_⟩
        · intro k
          by_cases is : k = i
          · exact ⟨.exited, update_eq_iff.mpr (.inl ⟨is, rfl⟩)⟩
          · obtain ⟨point, there⟩ := awake k
            exact ⟨point, update_eq_iff.mpr (.inr ⟨is, there⟩)⟩
        · intro k member
          by_cases is : k = i
          · exact update_eq_iff.mpr (.inl ⟨is, rfl⟩)
          · have inRest := (List.mem_cons.mp member).resolve_left is
            exact update_eq_iff.mpr (.inr ⟨is, exited k inRest⟩)
  obtain ⟨t, reached', same, -, exited⟩ := some (threads pros cons)
  exact ⟨t, reached', same, fun i => exited i (mem_threads i)⟩

/-- Hand over what the consumers need, leave the rest in the queue, and exit. -/
theorem ended_of_canEnd (somePros : 0 < pros) (someCons : 0 < cons) (buf : ℕ → ℤ) (can : CanEnd procount concount) :
    ∃ t, Reachable (program pros cons) (initial pros cons buf procount concount) t ∧
      ∀ i, t.place i = .code .exited := by
  obtain ⟨enough, fits, seen⟩ := can
  have start : Reachable (program pros cons) (initial pros cons buf procount concount)
      (atTop ⟨queueInit buf, procount, concount, [], []⟩) := Relation.ReflTransGen.refl
  obtain ⟨s, handed, none, produced, consumed⟩ :=
    hand_over somePros someCons (left concount) start rfl enough (Nat.le_refl _)
  change _ = procount + _ at produced
  change _ = concount + _ at consumed
  have remaining : left procount - left concount ≤ left s.totalProduced := by
    rw [produced]
    simp only [left]
    omega
  obtain ⟨s', filled, stored', produced', consumed'⟩ :=
    fill somePros (left procount - left concount) handed (by omega) remaining
  have fifo := atTop_fifo filled
  simp only [left] at *
  have producerExits : producer s' = .leave s' .exited [] := by
    rw [producer, if_neg, if_pos (by omega)]
    rintro ⟨full, unfinished⟩
    have whole := fifo.full.mp full
    have positive := queueSize_pos
    omega
  have consumerExits : consumer s' = .leave s' .exited [] := by
    rw [consumer, if_neg, if_pos (by omega)]
    rintro ⟨empty, unfinished⟩
    have nothing := fifo.empty.mp empty
    omega
  obtain ⟨t, reached, -, exited⟩ := all_exit filled producerExits consumerExits
  exact ⟨t, reached, exited⟩

/-! ## The initial counters -/

/-- Whatever the counters hold at first: the threads only ever exit with the intended items consumed if
and only if both counters hold zero, or the threads cannot all exit. -/
theorem work_done_iff (somePros : 0 < pros) (someCons : 0 < cons) (buf : ℕ → ℤ) (procount concount : ℤ) :
    (∀ t, Reachable (program pros cons) (initial pros cons buf procount concount) t →
      (∀ i, t.place i = .code .exited) → AllConsumed t.shared) ↔
    (procount = 0 ∧ concount = 0) ∨ ¬ CanEnd procount concount := by
  constructor
  · intro always
    apply Decidable.or_iff_not_not_and_not.mpr
    rintro ⟨notZero, can⟩
    obtain ⟨t, reached, ended⟩ := ended_of_canEnd somePros someCons buf (not_not.mp can)
    obtain ⟨-, removed⟩ := ended_lengths somePros someCons reached ended
    have items := removed_eq (reachable_fifo reached) (reachable_counted reached)
    have all := always t reached ended
    have length := all.length_eq
    rw [List.length_map, List.length_range, removed] at length
    have concountZero : concount = 0 := by
      simp only [left, workMax] at length
      omega
    have first : procount ∈ t.shared.removed := by
      rw [items, List.mem_map]
      refine ⟨0, ?_, by simp⟩
      rw [List.mem_range, removed, concountZero]
      decide
    have zero : (0 : ℤ) ∈ t.shared.removed := all.mem_iff.mpr (List.mem_map.mpr ⟨0, by decide, rfl⟩)
    obtain ⟨k, -, at0⟩ := List.mem_map.mp (all.mem_iff.mp first)
    rw [items] at zero
    obtain ⟨m, -, at0'⟩ := List.mem_map.mp zero
    exact notZero ⟨by omega, concountZero⟩
  · intro condition t reached ended
    rcases condition with ⟨rfl, rfl⟩ | cannot
    · obtain ⟨-, removed⟩ := ended_lengths somePros someCons reached ended
      have items := removed_eq (reachable_fifo reached) (reachable_counted reached)
      have same : t.shared.removed = (List.range workMax.toNat).map fun i : ℕ => (i : ℤ) := by
        rw [items, removed]
        apply List.map_congr_left
        intro i _
        exact Int.zero_add i
      rw [AllConsumed, same]
    · exact (cannot (canEnd_of_ended somePros someCons reached ended)).elim

theorem work_done_zero : ∃ t : System 2 3, Reachable (program 2 3) (initial 2 3 (fun _ => 7) 0 0) t ∧
    (∀ i, t.place i = .code .exited) ∧ AllConsumed t.shared := by
  obtain ⟨t, reached, ended⟩ : ∃ t : System 2 3, _ :=
    ended_of_canEnd (by decide) (by decide) (fun _ => 7) (show CanEnd 0 0 by decide)
  exact ⟨t, reached, ended, (work_done_iff (by decide) (by decide) _ 0 0).mpr (.inl ⟨rfl, rfl⟩) t reached ended⟩

/-- With 30 in both counters all threads exit at once, and nothing is consumed. -/
theorem work_skipped : ∃ t : System 1 1, Reachable (program 1 1) (initial 1 1 (fun _ => 7) 30 30) t ∧
    (∀ i, t.place i = .code .exited) ∧ t.shared.removed = [] ∧ ¬ AllConsumed t.shared := by
  have start : Reachable (program 1 1) (initial 1 1 (fun _ => 7) 30 30)
      (atTop ⟨queueInit fun _ => 7, 30, 30, [], []⟩) := Relation.ReflTransGen.refl
  obtain ⟨t, reached, same, exited⟩ := all_exit start rfl rfl
  have none : t.shared.removed = [] := by rw [same]
  refine ⟨t, reached, exited, none, ?_⟩
  intro all
  have length := all.length_eq
  rw [none, List.length_map, List.length_range] at length
  cases length

end OsLabs.Pthreads
