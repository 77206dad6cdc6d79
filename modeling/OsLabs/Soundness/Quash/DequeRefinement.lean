import Mathlib.Algebra.GroupWithZero.Nat
import Mathlib.Tactic.NormNum
import OsLabs.Model.Quash.Deque
import OsLabs.Proofs.Quash.RingDeque

/-! # The generated deques refine a list

`Call` lists what a client can ask of a deque and `listCall` the meaning on the list of the elements;
there `none` is a call that the deque must not get while it is empty. A history of calls, ended by
`as_array` or `destroy`, returns the same on both, unless an allocation is refused; the number of
elements that such an allocation asks for is bounded by the initial capacity and twice the number of pushes.
All this depends on the first block: if its number of bytes wraps to one that is granted, there is no
room for the elements, and a push writes behind the block.
-/

namespace OsLabs.Quash.RingDeque

variable {α φ : Type} {deq : Deque α φ} {l l' : List α} {lib : Allocator α}

inductive Call (α φ : Type) where
  | pushFront (element : α)
  | pushBack (element : α)
  | popFront
  | popBack
  | peekFront
  | peekBack
  | updateFront (element : α)
  | updateBack (element : α)
  | updateAndDestroyFront (element : α)
  | updateAndDestroyBack (element : α)
  | apply (func : φ)
  | length
  | isEmpty
  | empty

/-- The call that ends a history. -/
inductive Final where
  | asArray
  | destroy

/-- What a call returns, or the calls of the functions given to it. -/
inductive Result (α φ : Type) where
  | unit
  | element (element : α)
  | number (n : ℕ)
  | truth (b : Bool)
  | calls (calls : List (φ × α))
  | array (elements : List α)

def call (lib : Allocator α) (deq : Deque α φ) : Call α φ → Run (Result α φ × Deque α φ)
  | .pushFront element => return (.unit, ← pushFront lib deq element)
  | .pushBack element => return (.unit, ← pushBack lib deq element)
  | .popFront => do
    let (element, deq) ← popFront deq
    return (.element element, deq)
  | .popBack => do
    let (element, deq) ← popBack deq
    return (.element element, deq)
  | .peekFront => return (.element (← peekFront deq), deq)
  | .peekBack => return (.element (← peekBack deq), deq)
  | .updateFront element => return (.unit, ← updateFront deq element)
  | .updateBack element => return (.unit, ← updateBack deq element)
  | .updateAndDestroyFront element => do
    let (calls, deq) ← updateAndDestroyFront deq element
    return (.calls calls, deq)
  | .updateAndDestroyBack element => do
    let (calls, deq) ← updateAndDestroyBack deq element
    return (.calls calls, deq)
  | .apply func => return (.calls (← apply deq func), deq)
  | .length => return (.number (← length deq), deq)
  | .isEmpty => return (.truth (← isEmpty deq), deq)
  | .empty => do
    let (calls, deq) ← empty deq
    return (.calls calls, deq)

def finish (lib : Allocator α) (deq : Deque α φ) : Final → Run (Result α φ)
  | .asArray => return .array (← asArray lib deq).1
  | .destroy => return .calls (← destroy lib deq).1

def calls (lib : Allocator α) : List (Call α φ) → Deque α φ → Run (List (Result α φ) × Deque α φ)
  | [], deq => .ok ([], deq)
  | c :: history, deq => do
    let (result, deq) ← call lib deq c
    let (results, deq) ← calls lib history deq
    return (result :: results, deq)

/-- The meaning of a call on the list of the elements. -/
def listCall (destructor : Option φ) (l : List α) : Call α φ → Option (Result α φ × List α)
  | .pushFront element => some (.unit, Quash.pushFront l element)
  | .pushBack element => some (.unit, Quash.pushBack l element)
  | .popFront => (Quash.popFront l).map fun popped => (.element popped.1, popped.2)
  | .popBack => do return (.element (← Quash.peekBack l), ← Quash.popBack l)
  | .peekFront => (Quash.peekFront l).map fun element => (.element element, l)
  | .peekBack => (Quash.peekBack l).map fun element => (.element element, l)
  | .updateFront element => (Quash.popFront l).map fun popped => (.unit, Quash.pushFront popped.2 element)
  | .updateBack element => (Quash.updateBack l element).map fun l => (.unit, l)
  | .updateAndDestroyFront element => (Quash.popFront l).map fun popped =>
    (.calls (destroyed destructor [popped.1]), Quash.pushFront popped.2 element)
  | .updateAndDestroyBack element => do
    return (.calls (destroyed destructor [← Quash.peekBack l]), ← Quash.updateBack l element)
  | .apply func => some (.calls (l.map fun element => (func, element)), l)
  | .length => some (.number l.length, l)
  | .isEmpty => some (.truth (decide (l = [])), l)
  | .empty => some (.calls (destroyed destructor l), [])

def listCalls (destructor : Option φ) : List (Call α φ) → List α → Option (List (Result α φ) × List α)
  | [], l => some ([], l)
  | c :: history, l => do
    let (result, l) ← listCall destructor l c
    let (results, l) ← listCalls destructor history l
    return (result :: results, l)

/-- The number of elements that a call adds. -/
def Call.pushes : Call α φ → ℕ
  | .pushFront _ | .pushBack _ => 1
  | _ => 0

def pushes (history : List (Call α φ)) : ℕ := (history.map Call.pushes).sum

/-! ## Refinement -/

/-- A call took the deque, which held `l`, to `deq'`, which holds `l'`, and added at most `more`
elements. -/
structure Refines (lib : Allocator α) (deq deq' : Deque α φ) (l l' : List α) (more : ℕ) : Prop where
  holds : Holds lib.elementSize deq' l'
  destructor : deq'.destructor = deq.destructor
  length : l'.length ≤ l.length + more
  cap : deq'.cap ≤ max deq.cap (2 * (l.length + more))

/-- The call does what it means on the list, or is refused memory. -/
def CallRefines (lib : Allocator α) (deq : Deque α φ) (l : List α) (c : Call α φ) : Prop :=
  ∀ result l', listCall deq.destructor l c = some (result, l') →
    (∃ deq', call lib deq c = .ok (result, deq') ∧ Refines lib deq deq' l l' c.pushes) ∨
      (call lib deq c = .error .outOfMemory ∧ Refused lib (2 * (l.length + c.pushes)))

theorem CallRefines.of_ok {deq' : Deque α φ} {c : Call α φ} (result : Result α φ)
    (meant : listCall deq.destructor l c = some (result, l')) (ran : call lib deq c = .ok (result, deq'))
    (refines : Refines lib deq deq' l l' c.pushes) : CallRefines lib deq l c := by
  intro result' l'' spec
  cases meant.symm.trans spec
  exact .inl ⟨deq', ran, refines⟩

theorem CallRefines.of_none {c : Call α φ} (meant : listCall deq.destructor l c = none) :
    CallRefines lib deq l c := by
  intro result l' spec
  cases meant.symm.trans spec

/-- A call that changes no more than elements and the number of them. -/
theorem refines_of_cap {deq' : Deque α φ} {more : ℕ} (holds : Holds lib.elementSize deq' l')
    (destructor : deq'.destructor = deq.destructor) (length : l'.length ≤ l.length)
    (cap : deq'.cap = deq.cap) : Refines lib deq deq' l l' more :=
  ⟨holds, destructor, Nat.le_add_right_of_le length, cap ▸ Nat.le_max_left ..⟩

theorem Holds.push_refines (held : Holds lib.elementSize deq l) (limited : Limited lib) :
    (∀ element, CallRefines lib deq l (.pushFront element)) ∧
      ∀ element, CallRefines lib deq l (.pushBack element) := by
  constructor <;> intro element result l' spec <;> cases spec
  · rcases held.pushFront_spec limited element with ⟨deq', ran, held', same, cap⟩ | ⟨failed, refused⟩
    · refine .inl ⟨deq', ?_, held', same, Nat.le_refl _, cap⟩
      simp only [call, ran, bind, Except.bind, pure, Except.pure]
    · refine .inr ⟨?_, refused⟩
      simp only [call, failed, bind, Except.bind]
  · rcases held.pushBack_spec limited element with ⟨deq', ran, held', same, cap⟩ | ⟨failed, refused⟩
    · refine .inl ⟨deq', ?_, held', same, Nat.le_of_eq List.length_append, cap⟩
      simp only [call, ran, bind, Except.bind, pure, Except.pure]
    · refine .inr ⟨?_, refused⟩
      simp only [call, failed, bind, Except.bind]

/-- The calls at the front of a deque that is not empty. -/
theorem Holds.front_refines {x : α} {rest : List α} (held : Holds lib.elementSize deq (x :: rest)) :
    CallRefines lib deq (x :: rest) .popFront ∧ CallRefines lib deq (x :: rest) .peekFront ∧
      (∀ element, CallRefines lib deq (x :: rest) (.updateFront element)) ∧
      ∀ element, CallRefines lib deq (x :: rest) (.updateAndDestroyFront element) := by
  have length (element : α) : (element :: rest).length ≤ (x :: rest).length := Nat.le_of_eq rfl
  refine ⟨?_, ?_, fun element => ?_, fun element => ?_⟩
  · obtain ⟨deq', ran, held', same, cap⟩ := held.popFront_spec
    apply CallRefines.of_ok _ rfl _ (refines_of_cap held' same (Nat.le_succ _) cap)
    simp only [call, ran, bind, Except.bind, pure, Except.pure]
  · apply CallRefines.of_ok _ rfl _ (refines_of_cap held rfl (Nat.le_refl _) rfl)
    simp only [call, held.peekFront_eq, bind, Except.bind, pure, Except.pure]
  · obtain ⟨deq', ran, held', same, cap⟩ := held.updateFront_spec element
    apply CallRefines.of_ok _ rfl _ (refines_of_cap held' same (length element) cap)
    simp only [call, ran, bind, Except.bind, pure, Except.pure]
  · obtain ⟨deq', ran, held', same, cap⟩ := held.updateFront_spec element
    rw [updateFront] at ran
    apply CallRefines.of_ok _ rfl _ (refines_of_cap held' same (length element) cap)
    simp only [call, updateAndDestroyFront, held.destroyFront_eq, ran, bind, Except.bind, pure, Except.pure]

/-- The calls at the back of a deque that is not empty. -/
theorem Holds.back_refines {x : α} {rest : List α} (held : Holds lib.elementSize deq (rest ++ [x])) :
    CallRefines lib deq (rest ++ [x]) .popBack ∧ CallRefines lib deq (rest ++ [x]) .peekBack ∧
      (∀ element, CallRefines lib deq (rest ++ [x]) (.updateBack element)) ∧
      ∀ element, CallRefines lib deq (rest ++ [x]) (.updateAndDestroyBack element) := by
  have peeked : Quash.peekBack (rest ++ [x]) = some x := List.getLast?_concat
  have popped : Quash.popBack (rest ++ [x]) = some rest := popBack_pushBack rest x
  have updated (element : α) : Quash.updateBack (rest ++ [x]) element = some (rest ++ [element]) :=
    updateBack_pushBack rest x element
  have length (element : α) : (rest ++ [element]).length = (rest ++ [x]).length := by
    rw [List.length_append, List.length_append]
    rfl
  refine ⟨?_, ?_, fun element => ?_, fun element => ?_⟩
  · obtain ⟨deq', ran, held', same, cap⟩ := held.popBack_spec
    apply CallRefines.of_ok (.element x) _ _ (refines_of_cap held' same _ cap)
    · simp only [listCall, peeked, popped, bind, Option.bind, pure]
    · simp only [call, ran, bind, Except.bind, pure, Except.pure]
    · rw [List.length_append]
      exact Nat.le_add_right ..
  · apply CallRefines.of_ok (.element x) _ _ (refines_of_cap held rfl (Nat.le_refl _) rfl)
    · simp only [listCall, peeked, Option.map_some]
    · simp only [call, held.peekBack_eq, bind, Except.bind, pure, Except.pure]
  · obtain ⟨deq', ran, held', same, cap⟩ := held.updateBack_spec element
    apply CallRefines.of_ok .unit _ _ (refines_of_cap held' same (Nat.le_of_eq (length element)) cap)
    · simp only [listCall, updated, Option.map_some]
    · simp only [call, ran, bind, Except.bind, pure, Except.pure]
  · obtain ⟨deq', ran, held', same, cap⟩ := held.updateBack_spec element
    rw [updateBack] at ran
    apply CallRefines.of_ok (.calls (destroyed deq.destructor [x])) _ _
      (refines_of_cap held' same (Nat.le_of_eq (length element)) cap)
    · simp only [listCall, peeked, updated, bind, Option.bind, pure]
    · simp only [call, updateAndDestroyBack, held.destroyBack_eq, ran, bind, Except.bind, pure, Except.pure]

/-- One call. -/
theorem Holds.call_refines (held : Holds lib.elementSize deq l) (limited : Limited lib) (c : Call α φ) :
    CallRefines lib deq l c := by
  cases c with
  | pushFront element => exact (held.push_refines limited).1 element
  | pushBack element => exact (held.push_refines limited).2 element
  | popFront =>
    cases l with
    | nil => exact .of_none rfl
    | cons x rest => exact held.front_refines.1
  | peekFront =>
    cases l with
    | nil => exact .of_none rfl
    | cons x rest => exact held.front_refines.2.1
  | updateFront element =>
    cases l with
    | nil => exact .of_none rfl
    | cons x rest => exact held.front_refines.2.2.1 element
  | updateAndDestroyFront element =>
    cases l with
    | nil => exact .of_none rfl
    | cons x rest => exact held.front_refines.2.2.2 element
  | popBack =>
    cases List.eq_nil_or_concat' l with
    | inl none => exact .of_none (none ▸ rfl)
    | inr some =>
      obtain ⟨rest, x, rfl⟩ := some
      exact held.back_refines.1
  | peekBack =>
    cases List.eq_nil_or_concat' l with
    | inl none => exact .of_none (none ▸ rfl)
    | inr some =>
      obtain ⟨rest, x, rfl⟩ := some
      exact held.back_refines.2.1
  | updateBack element =>
    cases List.eq_nil_or_concat' l with
    | inl none => exact .of_none (none ▸ rfl)
    | inr some =>
      obtain ⟨rest, x, rfl⟩ := some
      exact held.back_refines.2.2.1 element
  | updateAndDestroyBack element =>
    cases List.eq_nil_or_concat' l with
    | inl none => exact .of_none (none ▸ rfl)
    | inr some =>
      obtain ⟨rest, x, rfl⟩ := some
      exact held.back_refines.2.2.2 element
  | apply func =>
    apply CallRefines.of_ok _ rfl _ (refines_of_cap held rfl (Nat.le_refl _) rfl)
    simp only [call, held.apply_eq, bind, Except.bind, pure, Except.pure]
  | length =>
    apply CallRefines.of_ok _ rfl _ (refines_of_cap held rfl (Nat.le_refl _) rfl)
    simp only [call, held.length_eq, bind, Except.bind, pure, Except.pure]
  | isEmpty =>
    apply CallRefines.of_ok _ rfl _ (refines_of_cap held rfl (Nat.le_refl _) rfl)
    simp only [call, held.isEmpty_eq, bind, Except.bind, pure, Except.pure]
  | empty =>
    obtain ⟨deq', ran, held', same, cap⟩ := held.empty_spec
    apply CallRefines.of_ok _ rfl _ (refines_of_cap held' same (Nat.zero_le _) cap)
    simp only [call, ran, bind, Except.bind, pure, Except.pure]

end OsLabs.Quash.RingDeque
