import OsLabs.Proofs.Scheduler.MachinePriqueue
import OsLabs.Soundness.Scheduler.PriqueueRuns

/-! # How long a queue stays in its block

Every poll moves `start` on by one, and only a resize sets it back, so a queue that never grows again
drives `start` out of int after enough polls. A history of calls is safe exactly when each of its
calls finds room between `start` and the largest int for the largest number that it adds to `start`;
it then computes what the queue computes on unbounded numbers.
-/

namespace OsLabs.Scheduler

open PriqueueT

variable {α : Type}

section Calls

variable [DecidableEq α]

/-- A call in machine arithmetic. -/
def machineCall (q : PriqueueT α) : Call α → Except IntFault (PriqueueT α × Result α)
  | .offer ptr => do let r ← q.priqueueOffer ptr; return (r.1, .number r.2)
  | .poll => do let r ← q.priqueuePoll; return (r.1, .pointer r.2)
  | .peek => do let ptr ← q.priqueuePeek; return (q, .pointer ptr)
  | .elementAt index => do let ptr ← q.priqueueAt index; return (q, .pointer ptr)
  | .remove ptr => do let r ← q.priqueueRemove ptr; return (r.1, .number r.2)
  | .removeAt index => do let r ← q.priqueueRemoveAt index; return (r.1, .pointer r.2)
  | .size => .ok (q, .number q.priqueueSize.toNat)

/-- A history of calls; it ends at the first fault. -/
def machineCalls (q : PriqueueT α) : List (Call α) → Except IntFault (PriqueueT α × List (Result α))
  | [] => .ok (q, [])
  | c :: history => do
    let r ← machineCall q c
    let rest ← machineCalls r.1 history
    return (rest.1, r.2 :: rest.2)

/-- The largest number that a call adds to `start`. -/
def reach (q : PriqueueT α) : Call α → ℤ
  | .offer _ => q.offerReach
  | .poll => q.pollReach
  | .elementAt index => q.atReach index
  | .remove _ => q.count - 1
  | .removeAt index => q.removeAtReach index
  | .peek | .size => 0

def Room (q : PriqueueT α) (c : Call α) : Prop := q.start + reach q c ≤ intMax

/-- Every call of a history finds room in the state before it. -/
def Roomy (q : PriqueueT α) (history : List (Call α)) : Prop :=
  ∀ past c s results, past ++ [c] <+: history → machineCalls q past = .ok (s, results) → Room s c

/-- In no state of a history are there more than 2^30 entries. -/
def Few (q : PriqueueT α) (history : List (Call α)) : Prop :=
  ∀ past s results, past <+: history → machineCalls q past = .ok (s, results) → s.count ≤ 2 ^ 30

end Calls

/-! ## One call -/

/-- What every call keeps: the sizes are those of repeated growth from ten slots. -/
structure Grown (q : Priqueue α) : Prop where
  start : q.start ≤ intMax
  size : ∃ k, q.size + 1 = 11 * 2 ^ k

theorem grown_init (malloc : ℕ → ℤ → α) (comparer : α → α → ℤ) : Grown (Priqueue.priqueueInit malloc comparer) :=
  ⟨show ((0 : ℕ) : ℤ) ≤ intMax by decide, 0, rfl⟩

/-- A full block of at most 2^30 slots is far from it, so that its double is an int. -/
theorem Grown.double {q : Priqueue α} (grown : Grown q) (few : q.count ≤ 2 ^ 30) (full : q.count = q.size) :
    2 * q.size + 1 ≤ intMax := by
  obtain ⟨k, size⟩ := grown.size
  have small : k ≤ 26 := by
    by_contra large
    have power : 2 ^ 27 ≤ 2 ^ k := Nat.pow_le_pow_right (by decide) (by omega)
    omega
  have power : 2 ^ k ≤ 2 ^ 26 := Nat.pow_le_pow_right (by decide) small
  simp only [intMax]
  omega

theorem removeLoop_shape [DecidableEq α] (ptr : α) (rest : ℕ) (q : Priqueue α) (i removed : ℕ) :
    (Priqueue.removeLoop ptr rest q i removed).1.size = q.size ∧
      (Priqueue.removeLoop ptr rest q i removed).1.start = q.start := by
  induction rest generalizing q i removed with
  | zero => exact ⟨rfl, rfl⟩
  | succ rest ih =>
    rw [Priqueue.removeLoop]
    split
    · obtain ⟨size, start⟩ := ih (q.priqueueRemoveAt i).1 i (removed + 1)
      rw [size, start, Priqueue.priqueueRemoveAt]
      split
      · exact ⟨rfl, rfl⟩
      · have shape := Priqueue.swapUp_shape q (i : ℤ).toNat (q.count - 1 - (i : ℤ).toNat)
        exact ⟨shape.size, shape.start⟩
    · exact ih q (i + 1) removed

/-- What a call does to the block: an offer may grow it, a poll of an entry moves its start. -/
theorem call_block [DecidableEq α] (q : Priqueue α) (c : Call α) :
    (∃ ptr, c = .offer ptr) ∧ (call q c).1.size = q.makeRoom.size ∧ (call q c).1.start = q.makeRoom.start ∨
    c = .poll ∧ q.count ≠ 0 ∧ (call q c).1.size = q.size ∧ (call q c).1.start = q.start + 1 ∨
    (call q c).1.size = q.size ∧ (call q c).1.start = q.start := by
  cases c with
  | offer ptr =>
    have shape := Priqueue.swapDown_shape (q.makeRoom.setData (q.makeRoom.priqueueGetTrueIndex q.makeRoom.count) ptr)
      (q.makeRoom.offerIndex ptr q.makeRoom.count 0) (q.makeRoom.count - q.makeRoom.offerIndex ptr q.makeRoom.count 0)
    exact .inl ⟨⟨ptr, rfl⟩, shape.size, shape.start⟩
  | poll =>
    change _ ∨ _ ∧ _ ∧ q.priqueuePoll.1.size = q.size ∧ q.priqueuePoll.1.start = q.start + 1 ∨
      q.priqueuePoll.1.size = q.size ∧ q.priqueuePoll.1.start = q.start
    rw [Priqueue.priqueuePoll, Priqueue.priqueueSize]
    split
    · exact .inr (.inr ⟨rfl, rfl⟩)
    · next nonempty => exact .inr (.inl ⟨rfl, nonempty, rfl, rfl⟩)
  | remove ptr => exact .inr (.inr (removeLoop_shape ptr q.count q 0 0))
  | removeAt index =>
    change _ ∨ _ ∨ (q.priqueueRemoveAt index).1.size = q.size ∧ (q.priqueueRemoveAt index).1.start = q.start
    rw [Priqueue.priqueueRemoveAt]
    split
    · exact .inr (.inr ⟨rfl, rfl⟩)
    · have shape := Priqueue.swapUp_shape q index.toNat (q.count - 1 - index.toNat)
      exact .inr (.inr ⟨shape.size, shape.start⟩)
  | _ => exact .inr (.inr ⟨rfl, rfl⟩)

theorem Grown.call [DecidableEq α] {q : Priqueue α} (grown : Grown q) (c : Call α) (room : Room q.machine c) :
    Grown (call q c).1 := by
  obtain ⟨start, k, size⟩ := grown
  rcases call_block q c with ⟨-, size', start'⟩ | ⟨rfl, nonempty, size', start'⟩ | ⟨size', start'⟩
  · rw [Priqueue.makeRoom] at size' start'
    split at size'
    · next full =>
      rw [if_pos full] at start'
      change _ = q.size * 2 + 1 at size'
      change _ = 0 at start'
      refine ⟨start' ▸ show ((0 : ℕ) : ℤ) ≤ intMax by decide, k + 1, ?_⟩
      rw [size', pow_succ]
      omega
    · next free =>
      rw [if_neg free] at start'
      exact ⟨start' ▸ start, k, size' ▸ size⟩
  · change (q.start : ℤ) + (if (q.count : ℤ) = 0 then 0 else 1) ≤ intMax at room
    rw [if_neg (by omega)] at room
    exact ⟨start' ▸ room, k, size' ▸ size⟩
  · exact ⟨start' ▸ start, k, size' ▸ size⟩

/-- What an offer needs besides room for `start`: a count that can grow and a block that can be doubled. -/
def Expands (q : Priqueue α) : Call α → Prop
  | .offer _ => q.count < intMax ∧ (q.count = q.size → 2 * q.size + 1 ≤ intMax)
  | _ => True

theorem Grown.expands {q : Priqueue α} (grown : Grown q) (few : q.count ≤ 2 ^ 30) (c : Call α) : Expands q c := by
  cases c with
  | offer ptr => exact ⟨by simp only [intMax]; omega, grown.double few⟩
  | _ => trivial

/-- With room, a call is the call on unbounded numbers. -/
theorem call_machine [DecidableEq α] {q : Priqueue α} (start : q.start ≤ intMax) (c : Call α) (expands : Expands q c)
    (room : Room q.machine c) : machineCall q.machine c = .ok ((call q c).1.machine, (call q c).2) := by
  cases c with
  | offer ptr =>
    obtain ⟨few, double⟩ := expands
    rw [machineCall, priqueueOffer_machine ptr room few double]
    rfl
  | poll =>
    rw [machineCall, priqueuePoll_machine room]
    rfl
  | peek =>
    rw [machineCall, priqueuePeek_machine start]
    rfl
  | elementAt index =>
    rw [machineCall, priqueueAt_machine room]
    rfl
  | remove ptr =>
    have last : q.start + (q.count - 1 : ℕ) ≤ intMax := by
      change (q.start : ℤ) + ((q.count : ℤ) - 1) ≤ intMax at room
      omega
    rw [machineCall, priqueueRemove_machine ptr last]
    rfl
  | removeAt index =>
    rw [machineCall, priqueueRemoveAt_machine index room]
    rfl
  | size => rfl

/-- A call that gets through had room. -/
theorem call_room [DecidableEq α] {q : Priqueue α} (grown : Grown q) {c : Call α} {r : PriqueueT α × Result α}
    (ran : machineCall q.machine c = .ok r) : Room q.machine c := by
  have start : q.machine.start ≤ intMax := grown.start
  cases c with
  | offer ptr =>
    obtain ⟨_, offered, -⟩ := bind_ok ran
    have positive := q.positive
    apply priqueueOffer_le _ offered
    intro full
    rw [full]
    exact Int.natCast_pos.mpr positive
  | poll =>
    obtain ⟨_, polled, -⟩ := bind_ok ran
    exact priqueuePoll_le start polled
  | elementAt index =>
    obtain ⟨_, found, -⟩ := bind_ok ran
    exact priqueueAt_le start found
  | remove ptr =>
    obtain ⟨_, removed, -⟩ := bind_ok ran
    exact priqueueRemove_le start (Int.natCast_nonneg q.count) removed
  | removeAt index =>
    obtain ⟨_, removed, -⟩ := bind_ok ran
    exact priqueueRemoveAt_le start removed
  | peek => exact (add_zero _).trans_le start
  | size => exact (add_zero _).trans_le start

/-! ## Histories -/

section Histories

variable [DecidableEq α] {q s : PriqueueT α} {c : Call α} {history : List (Call α)} {result : Result α}

theorem machineCalls_cons {past : List (Call α)} {t : PriqueueT α} {results : List (Result α)}
    (first : machineCall q c = .ok (s, result)) (rest : machineCalls s past = .ok (t, results)) :
    machineCalls q (c :: past) = .ok (t, result :: results) := by
  rw [machineCalls, first, ok_bind, rest]
  rfl

theorem machineCalls_inv {t : PriqueueT α} {results : List (Result α)}
    (ran : machineCalls q (c :: history) = .ok (t, results)) : ∃ s result rest,
      machineCall q c = .ok (s, result) ∧ machineCalls s history = .ok (t, rest) ∧ results = result :: rest := by
  obtain ⟨⟨s, result⟩, first, others⟩ := bind_ok ran
  obtain ⟨⟨t', rest⟩, behind, out⟩ := bind_ok others
  cases out
  exact ⟨s, result, rest, first, behind, rfl⟩

theorem Few.now (few : Few q history) : q.count ≤ 2 ^ 30 := few [] q [] List.nil_prefix rfl

theorem Few.next (few : Few q (c :: history)) (first : machineCall q c = .ok (s, result)) : Few s history := by
  intro past t results before rest
  exact few (c :: past) t (result :: results) ((List.prefix_cons_inj c).mpr before) (machineCalls_cons first rest)

theorem Few.cons (now : q.count ≤ 2 ^ 30) (rest : ∀ s result, machineCall q c = .ok (s, result) → Few s history) :
    Few q (c :: history) := by
  intro past t results before ran
  cases past with
  | nil =>
    cases ran
    exact now
  | cons d past =>
    obtain ⟨rfl, behind⟩ := List.cons_prefix_cons.mp before
    obtain ⟨s, result, results', first, others, -⟩ := machineCalls_inv ran
    exact rest s result first past t results' behind others

theorem Roomy.now (roomy : Roomy q (c :: history)) : Room q c :=
  roomy [] c q [] ((List.prefix_cons_inj c).mpr List.nil_prefix) rfl

theorem Roomy.next (roomy : Roomy q (c :: history)) (first : machineCall q c = .ok (s, result)) :
    Roomy s history := by
  intro past d t results before rest
  exact roomy (c :: past) d t (result :: results) ((List.prefix_cons_inj c).mpr before) (machineCalls_cons first rest)

theorem Roomy.cons (room : Room q c) (rest : ∀ s result, machineCall q c = .ok (s, result) → Roomy s history) :
    Roomy q (c :: history) := by
  intro past d t results before ran
  cases past with
  | nil =>
    have same : d = c := by simpa using before
    cases ran
    exact same ▸ room
  | cons e past =>
    rw [List.cons_append] at before
    obtain ⟨rfl, behind⟩ := List.cons_prefix_cons.mp before
    obtain ⟨s, result, results', first, others, -⟩ := machineCalls_inv ran
    exact rest s result first past d t results' behind others

/-- With room for every call the history is the history on unbounded numbers. -/
theorem calls_machine {q : Priqueue α} (grown : Grown q) (few : Few q.machine history)
    (roomy : Roomy q.machine history) :
    machineCalls q.machine history = .ok ((calls q history).1.machine, (calls q history).2) := by
  induction history generalizing q with
  | nil => rfl
  | cons c history ih =>
    have count : q.count ≤ 2 ^ 30 := by
      have bound : (q.count : ℤ) ≤ 2 ^ 30 := few.now
      omega
    have first := call_machine grown.start c (grown.expands count c) roomy.now
    exact machineCalls_cons first (ih (grown.call c roomy.now) (few.next first) (roomy.next first))

theorem roomy_of_ran {q : Priqueue α} (grown : Grown q) (few : Few q.machine history)
    {out : PriqueueT α × List (Result α)} (ran : machineCalls q.machine history = .ok out) :
    Roomy q.machine history := by
  induction history generalizing q out with
  | nil =>
    intro past c s results before
    simp at before
  | cons c history ih =>
    obtain ⟨t, results⟩ := out
    obtain ⟨s, result, results', first, ran, -⟩ := machineCalls_inv ran
    have room := call_room grown first
    have count : q.count ≤ 2 ^ 30 := by
      have bound : (q.count : ℤ) ≤ 2 ^ 30 := few.now
      omega
    have called := call_machine grown.start c (grown.expands count c) room
    apply Roomy.cons room
    intro s' result' first'
    rw [called] at first first'
    cases first
    cases first'
    exact ih (grown.call c room) (few.next called) ran

end Histories

/-- A history with at most 2^30 entries at a time overflows no sum and leaves the block nowhere if
and only if every call finds room. -/
theorem index_safe_iff [DecidableEq α] (malloc : ℕ → ℤ → α) (comparer : α → α → ℤ) (history : List (Call α))
    (few : Few (PriqueueT.priqueueInit malloc comparer) history) :
    (∃ out, machineCalls (PriqueueT.priqueueInit malloc comparer) history = .ok out) ↔
      Roomy (PriqueueT.priqueueInit malloc comparer) history := by
  have grown := grown_init malloc comparer
  constructor
  · intro ⟨out, ran⟩
    exact roomy_of_ran grown few ran
  · intro roomy
    exact ⟨_, calls_machine grown few roomy⟩

/-! ## A queue that lives too long -/

/-- Offers that are polled at once; the queue is empty after each pair. -/
def churn (pairs : ℕ) : List (Call ℕ) := (List.replicate pairs [.offer 0, .poll]).flatten

theorem churn_succ (pairs : ℕ) : churn (pairs + 1) = .offer 0 :: .poll :: churn pairs := rfl

theorem count_offer (q : Priqueue ℕ) : (call q (.offer 0)).1.count = q.count + 1 := by
  have shape := Priqueue.swapDown_shape (q.makeRoom.setData (q.makeRoom.priqueueGetTrueIndex q.makeRoom.count) 0)
    (q.makeRoom.offerIndex 0 q.makeRoom.count 0) (q.makeRoom.count - q.makeRoom.offerIndex 0 q.makeRoom.count 0)
  refine (congrArg (· + 1) shape.count).trans ?_
  change q.makeRoom.count + 1 = q.count + 1
  rw [Priqueue.makeRoom]
  split <;> rfl

/-- A pair of calls moves `start` on by one. -/
theorem offer_poll {q : Priqueue ℕ} (empty : q.count = 0) :
    (call q (.offer 0)).1.count = 1 ∧ (call (call q (.offer 0)).1 .poll).1.count = 0 ∧
      (call (call q (.offer 0)).1 .poll).1.start = q.start + 1 := by
  have positive := q.positive
  have roomy : q.makeRoom = q := if_neg (by omega)
  have shape := Priqueue.swapDown_shape (q.makeRoom.setData (q.makeRoom.priqueueGetTrueIndex q.makeRoom.count) 0)
    (q.makeRoom.offerIndex 0 q.makeRoom.count 0) (q.makeRoom.count - q.makeRoom.offerIndex 0 q.makeRoom.count 0)
  have count : (call q (.offer 0)).1.count = 1 := by rw [count_offer, empty]
  have start : (call q (.offer 0)).1.start = q.start := by
    refine shape.start.trans ?_
    change q.makeRoom.start = q.start
    rw [roomy]
  have polled : (call q (.offer 0)).1.priqueuePoll.1.count = 0 ∧
      (call q (.offer 0)).1.priqueuePoll.1.start = q.start + 1 := by
    rw [Priqueue.priqueuePoll, Priqueue.priqueueSize, if_neg (by omega)]
    exact ⟨by simp only [count], by simp only [start]⟩
  exact ⟨count, polled⟩

theorem offers_few {q : Priqueue ℕ} (grown : Grown q) {offers : ℕ} (short : q.count + offers ≤ 2 ^ 30) :
    Few q.machine (List.replicate offers (.offer 0)) := by
  have few : (q.machine.count : ℤ) ≤ 2 ^ 30 := by
    change (q.count : ℤ) ≤ 2 ^ 30
    omega
  induction offers generalizing q with
  | zero =>
    intro past s results before ran
    cases List.prefix_nil.mp before
    cases ran
    exact few
  | succ offers ih =>
    rw [List.replicate_succ]
    apply Few.cons few
    intro s result first
    have room := call_room grown first
    rw [call_machine grown.start _ (grown.expands (by omega) _) room] at first
    cases first
    apply ih (grown.call _ room)
    · rw [count_offer]
      omega
    · change ((call q (.offer 0)).1.count : ℤ) ≤ 2 ^ 30
      rw [count_offer]
      omega

/-- Pairs leave the queue empty, for the calls behind them. -/
theorem churn_few {q : Priqueue ℕ} (grown : Grown q) (empty : q.count = 0) (pairs : ℕ) {behind : List (Call ℕ)}
    (later : ∀ q' : Priqueue ℕ, Grown q' → q'.count = 0 → Few q'.machine behind) :
    Few q.machine (churn pairs ++ behind) := by
  induction pairs generalizing q with
  | zero => exact later q grown empty
  | succ pairs ih =>
    obtain ⟨one, zero, -⟩ := offer_poll empty
    rw [churn_succ, List.cons_append, List.cons_append]
    apply Few.cons
    · change (q.count : ℤ) ≤ 2 ^ 30
      omega
    intro s result first
    have room := call_room grown first
    rw [call_machine grown.start _ (grown.expands (by omega) _) room] at first
    cases first
    have grown' := grown.call _ room
    apply Few.cons
    · change ((call q (.offer 0)).1.count : ℤ) ≤ 2 ^ 30
      omega
    intro s result second
    have room' := call_room grown' second
    rw [call_machine grown'.start _ (grown'.expands (by omega) _) room'] at second
    cases second
    exact ih (grown'.call _ room') zero

/-- Five pairs, and offers that fill the block around its end and make it grow. -/
theorem index_safe_grown :
    Roomy (PriqueueT.priqueueInit (fun _ _ => 0) fun _ _ => 0) (churn 5 ++ List.replicate 11 (.offer 0)) := by
  have grown : Grown (Priqueue.priqueueInit (fun _ _ => 0) fun _ _ => (0 : ℤ) : Priqueue ℕ) := grown_init _ _
  have later (q : Priqueue ℕ) (grown : Grown q) (empty : q.count = 0) :
      Few q.machine (List.replicate 11 (.offer 0)) := offers_few grown (by omega)
  have few : Few (PriqueueT.priqueueInit (fun _ _ => 0) fun _ _ => 0) (churn 5 ++ List.replicate 11 (.offer 0)) :=
    churn_few grown rfl 5 later
  exact (index_safe_iff _ _ _ few).mp ⟨_, rfl⟩

/-- Too many pairs end in a fault. -/
theorem churn_faults {q : Priqueue ℕ} (grown : Grown q) (empty : q.count = 0) {pairs : ℕ}
    (long : intMax < q.start + pairs) (s : PriqueueT ℕ) (results : List (Result ℕ)) :
    machineCalls q.machine (churn pairs) ≠ .ok (s, results) := by
  induction pairs generalizing q results with
  | zero =>
    have start := grown.start
    omega
  | succ pairs ih =>
    intro ran
    rw [churn_succ] at ran
    obtain ⟨one, zero, next⟩ := offer_poll empty
    obtain ⟨_, _, _, first, ran, -⟩ := machineCalls_inv ran
    have room := call_room grown first
    rw [call_machine grown.start _ (grown.expands (by omega) _) room] at first
    cases first
    have grown' := grown.call _ room
    obtain ⟨_, _, rest, second, ran, -⟩ := machineCalls_inv ran
    have room' := call_room grown' second
    rw [call_machine grown'.start _ (grown'.expands (by omega) _) room'] at second
    cases second
    exact ih (grown'.call _ room') zero (by rw [next]; push_cast; omega) rest ran

/-- 2^31 pairs of an offer and a poll, with never more than one entry in the queue. -/
theorem index_unsafe :
    let init : PriqueueT ℕ := PriqueueT.priqueueInit (fun _ _ => 0) fun _ _ => 0
    Few init (churn (2 ^ 31)) ∧ ¬ ∃ out, machineCalls init (churn (2 ^ 31)) = .ok out := by
  have grown : Grown (Priqueue.priqueueInit (fun _ _ => 0) fun _ _ => (0 : ℤ) : Priqueue ℕ) := grown_init _ _
  have later (q : Priqueue ℕ) (grown : Grown q) (empty : q.count = 0) :
      Few q.machine (List.replicate 0 (.offer 0)) := offers_few grown (by omega)
  have few := churn_few grown rfl (2 ^ 31) later
  rw [List.replicate_zero, List.append_nil] at few
  refine ⟨few, ?_⟩
  intro ⟨⟨s, results⟩, ran⟩
  exact churn_faults grown rfl (by decide) s results ran

end OsLabs.Scheduler
