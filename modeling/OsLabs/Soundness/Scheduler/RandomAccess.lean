import OsLabs.Soundness.Scheduler.IndexSafety

/-! # When random access agrees with polling

`priqueue_at` checks its index against `count` only, so a negative index reads a slot that belongs to no
place of the queue. For the other indices it returns what polling gets to, as long as the polls can
move `start` that far.
-/

namespace OsLabs.Scheduler

open PriqueueT

variable {α : Type} {q : PriqueueT α} {p : Priqueue α} {index : ℤ}

/-- The slot that `priqueue_at` reads, if it reads one. -/
def atSlot (q : PriqueueT α) (index : ℤ) : Option (Except IntFault ℤ) :=
  if index ≥ q.count then none else some (q.priqueueGetTrueIndex index)

theorem priqueueAt_eq (q : PriqueueT α) (index : ℤ) : q.priqueueAt index =
    match atSlot q index with
    | none => .ok none
    | some found => found >>= fun index => some <$> q.load index := by
  rw [priqueueAt, atSlot]
  split
  · rfl
  · rw [entry]
    cases q.priqueueGetTrueIndex index <;> rfl

/-- What the poll after `n` others returns. -/
def laterPoll : ℕ → PriqueueT α → Except IntFault (Option α)
  | 0, q => do let r ← q.priqueuePoll; return r.2
  | n + 1, q => do let r ← q.priqueuePoll; laterPoll n r.1

/-- An index of the queue finds what polling gets to, and any other finds NULL without a look. -/
structure AtAgrees (q : PriqueueT α) (index : ℤ) : Prop where
  inside : 0 ≤ index → index < q.count →
    ∃ ptr, q.priqueueAt index = .ok (some ptr) ∧ laterPoll index.toNat q = .ok (some ptr)
  outside : ¬ (0 ≤ index ∧ index < q.count) → q.priqueueAt index = .ok none ∧ atSlot q index = none

/-! ## Reachable queues -/

/-- An offer that gets through has found a count that can grow and a block that can be doubled. -/
theorem expands_of_offer [DecidableEq α] (size : p.size ≤ intMax) {c : Call α} {r : PriqueueT α × Result α}
    (ran : machineCall p.machine c = .ok r) : Expands p c := by
  cases c with
  | offer ptr =>
    have fits := p.fits
    obtain ⟨_, offered, -⟩ := bind_ok ran
    obtain ⟨_, room, -⟩ := bind_ok offered
    have double : p.count = p.size → 2 * p.size + 1 ≤ intMax := by
      intro full
      have same : p.machine.count = p.machine.size := congrArg Nat.cast full
      rw [PriqueueT.makeRoom, if_pos same] at room
      obtain ⟨_, slots, -⟩ := bind_ok room
      have bound : (p.size : ℤ) * 2 + 1 ≤ intMax := addInt_le slots
      omega
    refine ⟨?_, double⟩
    rcases Nat.eq_or_lt_of_le fits with full | free
    · have bound := double full
      omega
    · omega
  | _ => trivial

theorem size_call [DecidableEq α] (size : p.size ≤ intMax) (c : Call α) (expands : Expands p c) :
    (call p c).1.size ≤ intMax := by
  rcases call_block p c with ⟨⟨ptr, rfl⟩, size', -⟩ | ⟨-, -, size', -⟩ | ⟨size', -⟩
  · rw [size', Priqueue.makeRoom]
    split
    · next full =>
      have bound := expands.2 full
      change ((p.size * 2 + 1 : ℕ) : ℤ) ≤ intMax
      omega
    · exact size
  · exact size' ▸ size
  · exact size' ▸ size

/-- A queue that machine arithmetic has reached without a fault is one on unbounded numbers. -/
theorem machineCalls_reach [DecidableEq α] (grown : Grown p) (size : p.size ≤ intMax) {history : List (Call α)}
    {results : List (Result α)} (ran : machineCalls p.machine history = .ok (q, results)) :
    ∃ p' : Priqueue α, p'.machine = q ∧ Grown p' := by
  induction history generalizing p results with
  | nil =>
    cases ran
    exact ⟨p, rfl, grown⟩
  | cons c history ih =>
    obtain ⟨s, result, results', first, ran, -⟩ := machineCalls_inv ran
    have room := call_room grown first
    have expands := expands_of_offer size first
    rw [call_machine grown.start c expands room] at first
    cases first
    exact ih (grown.call c room) (size_call size c expands) ran

/-! ## Polling -/

theorem start_poll (more : 0 < p.count) : p.priqueuePoll.1.start = p.start + 1 ∧ p.priqueuePoll.1.count = p.count - 1 := by
  rw [Priqueue.priqueuePoll, Priqueue.priqueueSize, if_neg (by omega)]
  exact ⟨rfl, rfl⟩

theorem poll_machine (more : 0 < p.count) (room : p.start + 1 ≤ intMax) :
    p.machine.priqueuePoll = .ok (p.priqueuePoll.1.machine, p.priqueuePoll.2) := by
  apply priqueuePoll_machine
  change (p.start : ℤ) + (if (p.count : ℤ) = 0 then 0 else 1) ≤ intMax
  rw [if_neg (by omega)]
  exact room

/-- Polling takes the entries in the order of the list. -/
theorem laterPoll_machine (n : ℕ) (more : n < p.count) (room : p.start + (n + 1 : ℕ) ≤ intMax) :
    laterPoll n p.machine = .ok p.toList[n]? := by
  induction n generalizing p with
  | zero =>
    rw [laterPoll, poll_machine more room, ok_bind, (Priqueue.priqueuePoll_spec p).1, List.head?_eq_getElem?]
    rfl
  | succ n ih =>
    obtain ⟨start, count⟩ := start_poll (p := p) (by omega)
    rw [laterPoll, poll_machine (by omega) (by omega), ok_bind]
    refine (ih (by omega) (by omega)).trans ?_
    rw [(Priqueue.priqueuePoll_spec p).2, List.getElem?_tail]

theorem poll_le (more : 0 < p.count) (small : p.start ≤ intMax) {r : PriqueueT α × Option α}
    (polled : p.machine.priqueuePoll = .ok r) : p.start + 1 ≤ intMax := by
  have bound : (p.start : ℤ) + (if (p.count : ℤ) = 0 then 0 else 1) ≤ intMax := priqueuePoll_le small polled
  rwa [if_neg (by omega)] at bound

/-- Polls that get through have moved `start` without an overflow. -/
theorem laterPoll_le (n : ℕ) (more : n < p.count) (small : p.start ≤ intMax) {ptr : Option α}
    (ran : laterPoll n p.machine = .ok ptr) : p.start + (n + 1 : ℕ) ≤ intMax := by
  induction n generalizing p with
  | zero =>
    obtain ⟨_, polled, -⟩ := bind_ok ran
    exact poll_le more small polled
  | succ n ih =>
    obtain ⟨_, polled, ran⟩ := bind_ok ran
    have room := poll_le (by omega) small polled
    obtain ⟨start, count⟩ := start_poll (p := p) (by omega)
    rw [poll_machine (by omega) room] at polled
    cases polled
    have bound := ih (by omega) (by omega) ran
    omega

/-! ## Random access -/

theorem atSlot_eq_none : atSlot q index = none ↔ q.count ≤ index := by
  rw [atSlot]
  split
  · next outside => exact iff_of_true rfl outside
  · next inside => exact iff_of_false (Option.some_ne_none _) inside

theorem atAgrees_machine_iff (small : p.start ≤ intMax) (index : ℤ) : AtAgrees p.machine index ↔
    0 ≤ index ∧ (index < p.count → p.start + index + 1 ≤ intMax) := by
  constructor
  · rintro ⟨inside, outside⟩
    have nonneg : 0 ≤ index := by
      by_contra negative
      have past : (p.count : ℤ) ≤ index := atSlot_eq_none.mp (outside fun within => negative within.1).2
      omega
    refine ⟨nonneg, fun within => ?_⟩
    obtain ⟨ptr, -, polled⟩ := inside nonneg within
    have bound := laterPoll_le index.toNat (by omega) small polled
    omega
  · rintro ⟨nonneg, room⟩
    constructor
    · intro _ within
      obtain ⟨n, rfl⟩ := Int.eq_ofNat_of_zero_le nonneg
      have less : (n : ℤ) < p.count := within
      have more : n < p.toList.length := by
        rw [Priqueue.length_toList]
        omega
      have room := room less
      have reads : p.machine.priqueueAt n = .ok p.toList[n]? := by
        rw [priqueueAt_machine, Priqueue.priqueueAt_spec p nonneg, Int.toNat_natCast]
        change (p.start : ℤ) + (if (n : ℤ) < p.count then (n : ℤ) else 0) ≤ intMax
        rw [if_pos less]
        omega
      have polled : laterPoll (n : ℤ).toNat p.machine = .ok p.toList[n]? :=
        laterPoll_machine n (by omega) (by omega)
      rw [List.getElem?_eq_getElem more] at reads polled
      exact ⟨_, reads, polled⟩
    · intro out
      have past : p.machine.count ≤ index := by
        change (p.count : ℤ) ≤ index
        by_contra within
        exact out ⟨nonneg, not_le.mp within⟩
      exact ⟨if_pos past, atSlot_eq_none.mpr past⟩

/-- In every queue that calls have reached, random access agrees with polling at the indices that are not
negative, as long as the polls can move `start` that far. -/
theorem at_agrees_iff [DecidableEq α] (malloc : ℕ → ℤ → α) (comparer : α → α → ℤ) (history : List (Call α))
    (results : List (Result α)) (ran : machineCalls (PriqueueT.priqueueInit malloc comparer) history = .ok (q, results))
    (index : ℤ) : AtAgrees q index ↔ 0 ≤ index ∧ (index < q.count → q.start + index + 1 ≤ intMax) := by
  have size : ((Priqueue.priqueueInit malloc comparer).size : ℤ) ≤ intMax := by
    change ((10 : ℕ) : ℤ) ≤ intMax
    decide
  obtain ⟨p, rfl, grown⟩ := machineCalls_reach (grown_init malloc comparer) size ran
  exact atAgrees_machine_iff grown.start index

theorem at_agrees_second : ∃ q results, machineCalls (PriqueueT.priqueueInit (fun _ _ => 0) fun a b => a - b)
    [.offer (5 : ℤ), .offer 3] = .ok (q, results) ∧ AtAgrees q 1 := by
  obtain ⟨q, results, ran, start⟩ : ∃ q results, machineCalls (PriqueueT.priqueueInit (fun _ _ => 0) fun a b => a - b)
      [.offer (5 : ℤ), .offer 3] = .ok (q, results) ∧ q.start = 0 := ⟨_, _, rfl, rfl⟩
  exact ⟨q, results, ran, (at_agrees_iff _ _ _ results ran 1).mpr ⟨by decide, fun _ => by rw [start]; decide⟩⟩

/-- A negative index on a queue of one entry reads in front of the block. -/
theorem at_disagrees : ¬ ∀ (history : List (Call ℤ)) q results index,
    machineCalls (PriqueueT.priqueueInit (fun _ _ => 0) fun a b => a - b) history = .ok (q, results) →
      AtAgrees q index := by
  intro all
  have read := (all [.offer 5] _ _ (-1) rfl).outside (fun inside => absurd inside.1 (by decide))
  exact absurd read.2 (Option.some_ne_none _)

end OsLabs.Scheduler
