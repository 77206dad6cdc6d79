/-! # Deques

The sequence that a deque generated by `IMPLEMENT_DEQUE` holds, from front to back. `none` is the
abort of a pop from an empty deque or of the assertion in a peek or an update.
-/

namespace OsLabs.Quash

variable {α : Type _}

def newDeque : List α := []

def pushFront (deq : List α) (element : α) : List α := element :: deq

def pushBack (deq : List α) (element : α) : List α := deq ++ [element]

def popFront : List α → Option (α × List α)
  | [] => none
  | element :: deq => some (element, deq)

def peekFront (deq : List α) : Option α := deq.head?

def peekBack (deq : List α) : Option α := deq.getLast?

/-- The deque that `pop_back` leaves. -/
def popBack (deq : List α) : Option (List α) := if deq = [] then none else some deq.dropLast

def updateBack (deq : List α) (element : α) : Option (List α) :=
  if deq = [] then none else some (deq.dropLast ++ [element])

theorem pushBack_ne_nil (deq : List α) (element : α) : pushBack deq element ≠ [] :=
  List.append_ne_nil_of_right_ne_nil deq (List.cons_ne_nil element [])

@[simp] theorem popBack_pushBack (deq : List α) (element : α) :
    popBack (pushBack deq element) = some deq := by
  rw [popBack, if_neg (pushBack_ne_nil deq element), pushBack, List.dropLast_concat]

@[simp] theorem updateBack_pushBack (deq : List α) (element element' : α) :
    updateBack (pushBack deq element) element' = some (pushBack deq element') := by
  rw [updateBack, if_neg (pushBack_ne_nil deq element), pushBack, List.dropLast_concat, pushBack]

end OsLabs.Quash
