import OsLabs.Model.Buddy.Allocator

/-! # The free lists as rings

`FreeLists l lists` reads the pointers `l` as one ring of pages for each order. The three list
operations of the allocator act on the list of one order and leave the other rings alone, since no
page hangs on two lists.
-/

namespace OsLabs.Buddy

open LinkedRing

/-- Every free list is a ring over its pages, and no page hangs on two lists. -/
structure FreeLists (l : Links Node) (lists : ℕ → List ℕ) : Prop where
  ring : ∀ o, minOrder ≤ o → o ≤ maxOrder → l.Ring (.freeArea o) ((lists o).map .page)
  apart : ∀ o o' i, i ∈ lists o → i ∈ lists o' → o = o'

theorem freeArea_notMem (o : ℕ) (list : List ℕ) : Node.freeArea o ∉ list.map Node.page := by
  simp only [List.mem_map, reduceCtorEq, and_false, exists_false, not_false_eq_true]

@[simp] theorem page_mem_iff (i o : ℕ) (list : List ℕ) :
    Node.page i ∈ Node.freeArea o :: list.map Node.page ↔ i ∈ list := by
  simp only [List.mem_cons, reduceCtorEq, List.mem_map, Node.page.injEq, exists_eq_right, false_or]

/-- The first node of a list of pages in front of its head. -/
def firstNode (o : ℕ) (list : List ℕ) : Node := (list.map Node.page).headD (.freeArea o)

@[simp] theorem firstNode_nil (o : ℕ) : firstNode o [] = .freeArea o := rfl

@[simp] theorem firstNode_cons (o i : ℕ) (list : List ℕ) : firstNode o (i :: list) = .page i := rfl

namespace FreeLists

variable {l : Links Node} {lists : ℕ → List ℕ} {o i : ℕ} {front back : List ℕ}

/-- A node belongs to the ring of at most one order. -/
theorem node_apart (free : FreeLists l lists) {o o' : ℕ} {x : Node}
    (first : x ∈ Node.freeArea o :: (lists o).map .page)
    (second : x ∈ Node.freeArea o' :: (lists o').map .page) : o = o' := by
  cases x with
  | freeArea k =>
    have same {o : ℕ} (member : Node.freeArea k ∈ Node.freeArea o :: (lists o).map .page) : k = o := by
      rcases List.mem_cons.mp member with equal | member
      · exact Node.freeArea.inj equal
      · exact (freeArea_notMem k _ member).elim
    exact (same first).symm.trans (same second)
  | page i => exact free.apart o o' i ((page_mem_iff ..).mp first) ((page_mem_iff ..).mp second)
  | poison =>
    simp only [List.mem_cons, reduceCtorEq, List.mem_map, and_false, exists_false, or_self] at first

theorem next_freeArea (free : FreeLists l lists) (low : minOrder ≤ o) (high : o ≤ maxOrder) :
    l.next (.freeArea o) = firstNode o (lists o) := (free.ring o low high).next_head

theorem listEmpty_iff (free : FreeLists l lists) (low : minOrder ≤ o) (high : o ≤ maxOrder) :
    listEmpty l (.freeArea o) = true ↔ lists o = [] := by
  rw [listEmpty, decide_eq_true_iff, free.next_freeArea low high]
  cases lists o with
  | nil => simp only [firstNode_nil]
  | cons i list => simp only [firstNode_cons, reduceCtorEq]

/-- The order of the only changed ring, for the other rings. -/
private theorem off_ring (free : FreeLists l lists) {o' : ℕ} (ne : o' ≠ o) {x y : Node}
    (member : x ∈ Node.freeArea o' :: (lists o').map .page)
    (other : y ∈ Node.freeArea o :: (lists o).map .page) : x ≠ y := by
  rintro rfl
  exact ne (free.node_apart member other)

private theorem apart_update (free : FreeLists l lists) {new : List ℕ}
    (old : ∀ j ∈ new, j ∈ lists o ∨ ∀ o', j ∉ lists o') :
    ∀ p p' j, j ∈ Function.update lists o new p → j ∈ Function.update lists o new p' → p = p' := by
  intro p p' j first second
  have moved {q q' : ℕ} (isO : q = o) (notO : q' ≠ o) (member : j ∈ new)
      (other : j ∈ lists q') : q = q' := by
    rcases old j member with inO | fresh
    · exact isO.trans (free.apart o q' j inO other)
    · exact (fresh q' other).elim
  by_cases isO : p = o <;> by_cases isO' : p' = o
  · exact isO.trans isO'.symm
  · rw [isO, Function.update_self] at first
    rw [Function.update_of_ne isO'] at second
    exact moved isO isO' first second
  · rw [isO', Function.update_self] at second
    rw [Function.update_of_ne isO] at first
    exact (moved isO' isO second first).symm
  · rw [Function.update_of_ne isO] at first
    rw [Function.update_of_ne isO'] at second
    exact free.apart p p' j first second

/-- `list_del` of a page takes it off its list. -/
theorem listDel (free : FreeLists l lists) (low : minOrder ≤ o) (high : o ≤ maxOrder)
    (split : lists o = front ++ i :: back) :
    FreeLists (Buddy.listDel l (.page i)) (Function.update lists o (front ++ back)) where
  ring o' low' high' := by
    have ring := free.ring o low high
    have onRing : Node.page i ∈ Node.freeArea o :: (lists o).map .page := by
      rw [page_mem_iff, split]
      exact List.mem_append_right _ (List.mem_cons_self ..)
    have neighbours := ring.neighbours_mem onRing
    by_cases isO : o' = o
    · subst isO
      rw [Function.update_self, List.map_append]
      rw [split, List.map_append, List.map_cons] at ring
      refine ring.bridge.write_frame ?_
      have nodup := (List.nodup_cons.mp ring.2).2
      have removed := (List.perm_middle.nodup_iff).mp nodup
      rw [← List.map_append, page_mem_iff]
      rw [← List.map_append] at removed
      exact fun member => (List.nodup_cons.mp removed).1 (List.mem_map_of_mem member)
    · rw [Function.update_of_ne isO]
      refine ((free.ring o' low' high').bridge_frame fun x member => ?_).write_frame fun member => ?_
      · exact ⟨free.off_ring isO member neighbours.2, free.off_ring isO member neighbours.1⟩
      · exact free.off_ring isO member onRing rfl
  apart := by
    refine free.apart_update fun j member => .inl ?_
    rw [split]
    simp only [List.mem_append, List.mem_cons] at member ⊢
    exact member.imp_right .inr

/-- `list_add_tail` in front of the node after a cut inserts a page there. -/
theorem listAddTail (free : FreeLists l lists) (low : minOrder ≤ o) (high : o ≤ maxOrder)
    (split : lists o = front ++ back) (fresh : ∀ o', i ∉ lists o') :
    FreeLists (Buddy.listAddTail l (.page i) (firstNode o back))
      (Function.update lists o (front ++ i :: back)) where
  ring o' low' high' := by
    have ring := free.ring o low high
    have onRing : firstNode o back ∈ Node.freeArea o :: (lists o).map .page := by
      cases back with
      | nil => exact List.mem_cons_self ..
      | cons j back =>
        rw [firstNode_cons, page_mem_iff, split]
        exact List.mem_append_right _ (List.mem_cons_self ..)
    have neighbours := ring.neighbours_mem onRing
    by_cases isO : o' = o
    · subst isO
      rw [Function.update_self, List.map_append, List.map_cons]
      rw [split, List.map_append] at ring
      refine ring.insertBetween ?_
      rw [← List.map_append, page_mem_iff, ← split]
      exact fresh o'
    · rw [Function.update_of_ne isO]
      refine (free.ring o' low' high').insertBetween_frame fun x member => ?_
      refine ⟨?_, free.off_ring isO member neighbours.2, free.off_ring isO member onRing⟩
      rintro rfl
      exact fresh o' ((page_mem_iff ..).mp member)
  apart := by
    refine free.apart_update fun j member => ?_
    rw [split]
    simp only [List.mem_append, List.mem_cons] at member ⊢
    rcases member with member | rfl | member
    · exact .inl (.inl member)
    · exact .inr fresh
    · exact .inl (.inr member)

/-- `list_add` to a list head puts a page in front. -/
theorem listAdd (free : FreeLists l lists) (low : minOrder ≤ o) (high : o ≤ maxOrder)
    (fresh : ∀ o', i ∉ lists o') :
    FreeLists (Buddy.listAdd l (.page i) (.freeArea o)) (Function.update lists o (i :: lists o)) where
  ring o' low' high' := by
    have ring := free.ring o low high
    have neighbours := ring.neighbours_mem (List.mem_cons_self ..)
    by_cases isO : o' = o
    · subst isO
      rw [Function.update_self, List.map_cons]
      exact ring.insertAfterHead (by rw [page_mem_iff]; exact fresh o')
    · rw [Function.update_of_ne isO]
      refine (free.ring o' low' high').insertBetween_frame fun x member => ?_
      refine ⟨?_, free.off_ring isO member (List.mem_cons_self ..), free.off_ring isO member neighbours.1⟩
      rintro rfl
      exact fresh o' ((page_mem_iff ..).mp member)
  apart := by
    refine free.apart_update fun j member => ?_
    rcases List.mem_cons.mp member with rfl | member
    · exact .inr fresh
    · exact .inl member

/-- The printed free list is the list itself. -/
theorem freeList_eq {s : Memory} (free : FreeLists s.links lists) (low : minOrder ≤ o)
    (high : o ≤ maxOrder) (short : (lists o).length ≤ nPages) : s.freeList o = lists o := by
  have walked := (free.ring o low high).walk (by simpa only [List.length_map] using short)
  rw [Memory.freeList, walked, List.filterMap_map]
  exact List.filterMap_some

end FreeLists

end OsLabs.Buddy
