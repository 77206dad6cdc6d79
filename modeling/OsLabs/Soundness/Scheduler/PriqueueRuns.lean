import Mathlib.Data.List.Perm.Basic
import Mathlib.Order.RelClasses
import OsLabs.Proofs.Scheduler.Priqueue

/-! # The priority queue refines a sorted list

`Call` lists what a client can ask of a queue. `listCall` gives the same calls their meaning on a
list sorted by the comparer: an offer goes behind every entry that is not greater. The theorem
compares the two over whole histories, results included.
-/

namespace OsLabs.Scheduler

open StableInsert Priqueue

variable {α : Type*}

inductive Call (α : Type*) where
  | offer (ptr : α)
  | poll
  | peek
  | elementAt (index : ℕ)
  | remove (ptr : α)
  | removeAt (index : ℤ)
  | size
deriving DecidableEq, Repr

/-- What a call returns: an index or a number of entries, or a pointer. -/
inductive Result (α : Type*) where
  | number (n : ℕ)
  | pointer (ptr : Option α)
deriving DecidableEq, Repr

def call [DecidableEq α] (q : Priqueue α) : Call α → Priqueue α × Result α
  | .offer ptr => ((q.priqueueOffer ptr).1, .number (q.priqueueOffer ptr).2)
  | .poll => (q.priqueuePoll.1, .pointer q.priqueuePoll.2)
  | .peek => (q, .pointer q.priqueuePeek)
  | .elementAt index => (q, .pointer (q.priqueueAt index))
  | .remove ptr => ((q.priqueueRemove ptr).1, .number (q.priqueueRemove ptr).2)
  | .removeAt index => ((q.priqueueRemoveAt index).1, .pointer (q.priqueueRemoveAt index).2)
  | .size => (q, .number q.priqueueSize)

def calls [DecidableEq α] (q : Priqueue α) : List (Call α) → Priqueue α × List (Result α)
  | [] => (q, [])
  | c :: history => ((calls (call q c).1 history).1, (call q c).2 :: (calls (call q c).1 history).2)

/-- The meaning of a call on a sorted list. -/
def listCall [DecidableEq α] (comparer : α → α → ℤ) (l : List α) : Call α → List α × Result α
  | .offer ptr => (insert (Less comparer) ptr l, .number (l.countP fun y => ¬ Less comparer ptr y))
  | .poll => (l.tail, .pointer l.head?)
  | .peek => (l, .pointer l.head?)
  | .elementAt index => (l, .pointer l[index]?)
  | .remove ptr => (l.filter (· ≠ ptr), .number (l.count ptr))
  | .removeAt index => if index < 0 then (l, .pointer none)
      else (l.eraseIdx index.toNat, .pointer l[index.toNat]?)
  | .size => (l, .number l.length)

def listCalls [DecidableEq α] (comparer : α → α → ℤ) (l : List α) :
    List (Call α) → List α × List (Result α)
  | [] => (l, [])
  | c :: history => ((listCalls comparer (listCall comparer l c).1 history).1,
      (listCall comparer l c).2 :: (listCalls comparer (listCall comparer l c).1 history).2)

/-- The pointers a call puts into the queue. -/
def Call.offered : Call α → List α
  | .offer ptr => [ptr]
  | _ => []

/-- The pointers a call takes out of the queue, by its result. -/
def Call.taken : Call α → Result α → List α
  | .poll, .pointer ptr => ptr.toList
  | .removeAt _, .pointer ptr => ptr.toList
  | .remove ptr, .number n => List.replicate n ptr
  | _, _ => []

def offered (history : List (Call α)) : List α := history.flatMap Call.offered

def taken (history : List (Call α)) (results : List (Result α)) : List α :=
  (List.zipWith Call.taken history results).flatten

section Step

variable [DecidableEq α] {comparer : α → α → ℤ} {l : List α}

/-- One call on the ring buffer is the call on its list. -/
theorem call_refines [IsStrictWeakOrder α (Less comparer)] {q : Priqueue α} (same : q.comparer = comparer)
    (sorted : Sorted (Less comparer) q.toList) (c : Call α) :
    (call q c).1.comparer = comparer ∧ (call q c).1.toList = (listCall comparer q.toList c).1 ∧
      (call q c).2 = (listCall comparer q.toList c).2 := by
  subst same
  cases c with
  | offer ptr =>
    obtain ⟨place, list⟩ := priqueueOffer_spec q ptr
    rw [insertIdx_eq_insert sorted] at list
    rw [position_eq sorted] at place
    exact ⟨priqueueOffer_comparer q ptr, list, congrArg Result.number place⟩
  | poll =>
    obtain ⟨head, list⟩ := priqueuePoll_spec q
    exact ⟨priqueuePoll_comparer q, list, congrArg Result.pointer head⟩
  | peek => exact ⟨rfl, rfl, congrArg Result.pointer (priqueuePeek_spec q)⟩
  | elementAt index => exact ⟨rfl, rfl, congrArg Result.pointer (priqueueAt_spec q (Int.natCast_nonneg index))⟩
  | remove ptr =>
    obtain ⟨list, number, comparer⟩ := priqueueRemove_spec q ptr
    exact ⟨comparer, list, congrArg Result.number number⟩
  | removeAt index =>
    obtain ⟨result, list⟩ := priqueueRemoveAt_spec q index
    refine ⟨priqueueRemoveAt_comparer q index, list.trans ?_, (congrArg Result.pointer result).trans ?_⟩
    · rw [listCall]
      split <;> rfl
    · rw [listCall]
      split <;> rfl
  | size => exact ⟨rfl, rfl, congrArg Result.number (length_toList q).symm⟩

theorem listCall_sorted [IsStrictWeakOrder α (Less comparer)] (sorted : Sorted (Less comparer) l)
    (c : Call α) : Sorted (Less comparer) (listCall comparer l c).1 := by
  cases c with
  | offer ptr => exact sorted.insert
  | poll => exact sorted.sublist (List.tail_sublist l)
  | remove ptr => exact sorted.sublist List.filter_sublist
  | removeAt index =>
    rw [listCall]
    split
    · exact sorted
    · exact sorted.sublist (List.eraseIdx_sublist ..)
  | _ => exact sorted

/-- A call keeps tied entries in the order of their offers. -/
theorem listCall_fifo (comparer : α → α → ℤ) [IsStrictWeakOrder α (Less comparer)] (l : List α) (c : Call α) (e : α) :
    ((listCall comparer l c).1.filter (Tied (Less comparer) e)).Sublist
      ((l ++ c.offered).filter (Tied (Less comparer) e)) := by
  have kept {l' : List α} (sub : l'.Sublist l) : (l'.filter (Tied (Less comparer) e)).Sublist
      ((l ++ []).filter (Tied (Less comparer) e)) := by
    rw [List.append_nil]
    exact sub.filter _
  cases c with
  | offer ptr =>
    rw [listCall, filter_insert, Call.offered, List.filter_append, List.filter_cons, List.filter_nil]
    simp only [decide_eq_true_eq, List.Sublist.refl]
  | poll => exact kept (List.tail_sublist l)
  | remove ptr => exact kept List.filter_sublist
  | removeAt index =>
    rw [listCall]
    split
    · exact kept (List.Sublist.refl l)
    · exact kept (List.eraseIdx_sublist ..)
  | _ => exact kept (List.Sublist.refl l)

/-- A call loses and duplicates no entry. -/
theorem listCall_balance (comparer : α → α → ℤ) (l : List α) (c : Call α) :
    (c.taken (listCall comparer l c).2 ++ (listCall comparer l c).1).Perm (l ++ c.offered) := by
  have unchanged : l.Perm (l ++ []) := (List.append_nil l).symm ▸ List.Perm.refl l
  cases c with
  | offer ptr =>
    have parts : (l.filter (fun y => ¬ Less comparer ptr y) ++ l.filter (Less comparer ptr ·)).Perm l := by
      have halves := List.filter_append_perm (Less comparer ptr ·) l
      simp only [decide_not] at halves ⊢
      exact List.perm_append_comm.trans halves
    exact List.perm_middle.trans ((parts.cons ptr).trans (List.perm_append_singleton ptr l).symm)
  | poll =>
    cases l with
    | nil => exact List.Perm.refl _
    | cons x l => exact unchanged
  | remove ptr =>
    have parts := List.filter_append_perm (· = ptr) l
    rw [List.filter_eq] at parts
    refine List.Perm.trans ?_ unchanged
    simpa only [listCall, Call.taken, ne_eq, decide_not] using parts
  | removeAt index =>
    rw [listCall]
    split
    · exact unchanged
    · refine List.Perm.trans ?_ unchanged
      by_cases inside : index.toNat < l.length
      · rw [List.getElem?_eq_getElem inside]
        exact List.getElem_cons_eraseIdx_perm inside
      · rw [List.getElem?_eq_none (not_lt.mp inside), List.eraseIdx_of_length_le (not_lt.mp inside)]
        exact List.Perm.refl l
  | _ => exact unchanged

end Step

/-- The relation between the two runs that every call keeps. -/
theorem calls_refines [DecidableEq α] {comparer : α → α → ℤ} [IsStrictWeakOrder α (Less comparer)]
    {q : Priqueue α} (same : q.comparer = comparer) (sorted : Sorted (Less comparer) q.toList)
    (history : List (Call α)) :
    (calls q history).2 = (listCalls comparer q.toList history).2 ∧
    (calls q history).1.toList = (listCalls comparer q.toList history).1 ∧
    Sorted (Less comparer) (calls q history).1.toList ∧
    (∀ e, ((calls q history).1.toList.filter (Tied (Less comparer) e)).Sublist
      ((q.toList ++ offered history).filter (Tied (Less comparer) e))) ∧
    (taken history (calls q history).2 ++ (calls q history).1.toList).Perm
      (q.toList ++ offered history) := by
  induction history generalizing q with
  | nil =>
    refine ⟨rfl, rfl, sorted, fun e => ?_, ?_⟩
    · rw [offered, List.flatMap_nil, List.append_nil]
      exact List.Sublist.refl _
    · rw [offered, List.flatMap_nil, List.append_nil]
      exact List.Perm.refl _
  | cons c history ih =>
    obtain ⟨comparer', list, result⟩ := call_refines same sorted c
    have fifo := listCall_fifo comparer q.toList c
    have balance := listCall_balance comparer q.toList c
    rw [← list] at fifo
    rw [← list, ← result] at balance
    obtain ⟨results, final, sorted', fifo', balance'⟩ :=
      ih comparer' (list ▸ listCall_sorted sorted c)
    have offers : offered (c :: history) = c.offered ++ offered history := rfl
    refine ⟨?_, ?_, sorted', fun e => ?_, ?_⟩
    · rw [listCalls, calls, results, result, list]
    · rw [listCalls, calls, final, list]
    · rw [offers, ← List.append_assoc, List.filter_append]
      refine (fifo' e).trans ?_
      rw [List.filter_append]
      exact (fifo e).append (List.Sublist.refl _)
    · have step : taken (c :: history) (calls q (c :: history)).2 =
          c.taken (call q c).2 ++ taken history (calls (call q c).1 history).2 := rfl
      rw [step, offers, List.append_assoc]
      refine (balance'.append_left _).trans ?_
      rw [← List.append_assoc, ← List.append_assoc]
      exact balance.append_right _

/-- Over any history of calls the ring buffer is a sorted list: the results agree, ties leave in the
order of their offers, and every offered entry is either taken or still there. -/
theorem priqueue_refines [DecidableEq α] {comparer : α → α → ℤ} [IsStrictWeakOrder α (Less comparer)]
    (malloc : ℕ → ℤ → α) (history : List (Call α)) :
    let run := calls (priqueueInit malloc comparer) history
    run.2 = (listCalls comparer [] history).2 ∧ run.1.toList = (listCalls comparer [] history).1 ∧
    Sorted (Less comparer) run.1.toList ∧
    (∀ e, (run.1.toList.filter (Tied (Less comparer) e)).Sublist
      ((offered history).filter (Tied (Less comparer) e))) ∧
    (taken history run.2 ++ run.1.toList).Perm (offered history) := by
  have same : (priqueueInit malloc comparer).comparer = comparer := rfl
  have empty : Sorted (Less comparer) (priqueueInit malloc comparer).toList := List.Pairwise.nil
  exact calls_refines same empty history

/-- Keys with a tag that the comparer does not see. -/
def compareKeys (a b : ℤ × ℕ) : ℤ := a.1 - b.1

theorem priqueue_refines_ties :
    (calls (priqueueInit (fun _ _ => (0, 0)) compareKeys)
      [.offer (5, 0), .offer (3, 1), .offer (5, 2), .poll]).1.toList = [(5, 0), (5, 2)] := by
  have order : IsStrictWeakOrder (ℤ × ℕ) (Less compareKeys) :=
    { irrefl := by simp only [Less, compareKeys]; omega
      trans := by simp only [Less, compareKeys]; omega
      incomp_trans := by simp only [Less, compareKeys]; omega }
  exact (priqueue_refines _ _).2.1.trans (by decide)

end OsLabs.Scheduler
