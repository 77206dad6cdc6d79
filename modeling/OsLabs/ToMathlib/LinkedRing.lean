import Mathlib.Data.List.Basic
import Mathlib.Logic.Function.Basic

/-! # Circular doubly linked lists

Nodes carry a next and a previous pointer. `Ring l h body` says that the nodes of `body` hang in
order on the list head `h`, in both directions. Inserting between two neighbours and unlinking a
node are a few pointer writes; on a ring they are list insertion and deletion, and they leave every
ring without a written node alone.
-/

namespace LinkedRing

/-- The two pointer fields of every node. -/
structure Links (ν : Type*) where
  next : ν → ν
  prev : ν → ν

namespace Links

variable {ν : Type*} [DecidableEq ν]

def setNext (l : Links ν) (a b : ν) : Links ν := { l with next := Function.update l.next a b }

def setPrev (l : Links ν) (a b : ν) : Links ν := { l with prev := Function.update l.prev a b }

@[simp] theorem setNext_next (l : Links ν) (a b c : ν) :
    (l.setNext a b).next c = if c = a then b else l.next c := Function.update_apply _ _ _ _

@[simp] theorem setNext_prev (l : Links ν) (a b c : ν) : (l.setNext a b).prev c = l.prev c := rfl

@[simp] theorem setPrev_prev (l : Links ν) (a b c : ν) :
    (l.setPrev a b).prev c = if c = a then b else l.prev c := Function.update_apply _ _ _ _

@[simp] theorem setPrev_next (l : Links ν) (a b c : ν) : (l.setPrev a b).next c = l.next c := rfl

/-- The nodes of a list are linked in order from `first` to `last`. -/
def Seg (l : Links ν) : ν → List ν → ν → Prop
  | first, [], last => l.next first = last ∧ l.prev last = first
  | first, x :: rest, last => l.next first = x ∧ l.prev x = first ∧ l.Seg x rest last

/-- The nodes of `body` hang on the head `h`, each once. -/
def Ring (l : Links ν) (h : ν) (body : List ν) : Prop := l.Seg h body h ∧ (h :: body).Nodup

/-- A new node between two neighbours: four pointer writes. -/
def insertBetween (l : Links ν) (new before after : ν) : Links ν :=
  (((l.setPrev after new).setNext new after).setPrev new before).setNext before new

/-- The neighbours of a removed node point to each other. -/
def bridge (l : Links ν) (before after : ν) : Links ν := (l.setPrev after before).setNext before after

omit [DecidableEq ν] in
/-- Only the next pointers of the first nodes and the previous pointers of the last nodes count. -/
theorem Seg.congr {l l' : Links ν} {first last : ν} {body : List ν} (seg : l.Seg first body last)
    (next : ∀ x ∈ first :: body, l'.next x = l.next x)
    (prev : ∀ x, x = last ∨ x ∈ body → l'.prev x = l.prev x) : l'.Seg first body last := by
  induction body generalizing first with
  | nil =>
    exact ⟨(next first (List.mem_cons_self ..)).trans seg.1, (prev last (.inl rfl)).trans seg.2⟩
  | cons x rest ih =>
    obtain ⟨nextFirst, prevX, tail⟩ := seg
    refine ⟨(next first (List.mem_cons_self ..)).trans nextFirst,
      (prev x (.inr (List.mem_cons_self ..))).trans prevX, ih tail ?_ ?_⟩
    · exact fun y member => next y (List.mem_cons_of_mem _ member)
    · exact fun y member => prev y (member.imp_right (List.mem_cons_of_mem _))

omit [DecidableEq ν] in
/-- The node in front of a cut is the last one before it. -/
theorem Seg.prev_mem {l : Links ν} {first last : ν} {front back : List ν}
    (seg : l.Seg first (front ++ back) last) : l.prev (back.headD last) ∈ first :: front := by
  induction front generalizing first with
  | nil =>
    cases back with
    | nil => exact List.mem_singleton.mpr seg.2
    | cons y back => exact List.mem_singleton.mpr seg.2.1
  | cons x front ih => exact List.mem_cons_of_mem _ (ih seg.2.2)

omit [DecidableEq ν] in
/-- The node behind a cut is the first one after it. -/
theorem Seg.next_eq {l : Links ν} {first last x : ν} {front back : List ν}
    (seg : l.Seg first (front ++ x :: back) last) : l.next x = back.headD last := by
  induction front generalizing first with
  | nil =>
    cases back with
    | nil => exact seg.2.2.1
    | cons y back => exact seg.2.2.1
  | cons y front ih => exact ih seg.2.2

omit [DecidableEq ν] in
private theorem headD_mem (last : ν) (back : List ν) : back.headD last = last ∨ back.headD last ∈ back := by
  cases back with
  | nil => exact .inl rfl
  | cons y back => exact .inr (List.mem_cons_self ..)

/-- Inserting in front of the node after a cut. -/
theorem Seg.insertBetween {l : Links ν} {first last new : ν} {front back : List ν}
    (seg : l.Seg first (front ++ back) last) (nodup : (first :: (front ++ back)).Nodup)
    (open' : last ∉ front ++ back) (fresh : new ∉ first :: (front ++ back)) (other : new ≠ last) :
    (l.insertBetween new (l.prev (back.headD last)) (back.headD last)).Seg
      first (front ++ new :: back) last := by
  induction front generalizing first with
  | nil =>
    simp only [List.nil_append, List.mem_cons, List.nodup_cons, not_or] at *
    cases back with
    | nil =>
      simp only [List.headD_nil, seg.2]
      simp only [Seg, Links.insertBetween, setNext_next, setPrev_prev, setNext_prev, setPrev_next,
        Ne.symm other, fresh.1, ↓reduceIte, and_self]
    | cons y rest =>
      simp only [List.mem_cons, List.nodup_cons, not_or] at nodup open' fresh
      obtain ⟨_, prevY, tail⟩ := seg
      simp only [List.headD_cons, prevY]
      refine ⟨?_, ?_, ?_, ?_, ?_⟩
      · simp only [Links.insertBetween, setNext_next, ↓reduceIte]
      · simp only [Links.insertBetween, setNext_prev, setPrev_prev, ↓reduceIte]
      · simp only [Links.insertBetween, setNext_next, setPrev_next, fresh.1, ↓reduceIte]
      · simp only [Links.insertBetween, setNext_prev, setPrev_prev, Ne.symm fresh.2.1, ↓reduceIte]
      · refine tail.congr ?_ ?_
        · intro z member
          have ne : z ≠ first ∧ z ≠ new := by
            rcases List.mem_cons.mp member with rfl | member
            · exact ⟨fun equal => nodup.1.1 equal.symm, fun equal => fresh.2.1 equal.symm⟩
            · exact ⟨fun equal => nodup.1.2 (equal ▸ member), fun equal => fresh.2.2 (equal ▸ member)⟩
          simp only [Links.insertBetween, setNext_next, setPrev_next, ne.1, ne.2, ↓reduceIte]
        · intro z member
          have ne : z ≠ new ∧ z ≠ y := by
            rcases member with rfl | member
            · exact ⟨Ne.symm other, open'.1⟩
            · exact ⟨fun equal => fresh.2.2 (equal ▸ member), fun equal => nodup.2.1 (equal ▸ member)⟩
          simp only [Links.insertBetween, setNext_prev, setPrev_prev, ne.1, ne.2, ↓reduceIte]
  | cons x front ih =>
    obtain ⟨nextFirst, prevX, tail⟩ := seg
    simp only [List.cons_append, List.mem_cons, List.nodup_cons, not_or] at nodup open' fresh
    have before := tail.prev_mem
    refine ⟨?_, ?_, ih tail (List.nodup_cons.mpr nodup.2) open'.2 ?_⟩
    · have ne : first ≠ l.prev (back.headD last) := by
        intro equal
        rcases List.mem_cons.mp (equal ▸ before) with same | member
        · exact nodup.1.1 same
        · exact nodup.1.2 (List.mem_append_left _ member)
      simp only [Links.insertBetween, setNext_next, setPrev_next, ne, Ne.symm fresh.1, ↓reduceIte, nextFirst]
    · have ne : x ≠ back.headD last := by
        intro equal
        rcases headD_mem last back with same | member
        · exact open'.1 (same.symm.trans equal.symm)
        · exact nodup.2.1 (List.mem_append_right _ (equal ▸ member))
      simp only [Links.insertBetween, setNext_prev, setPrev_prev, ne, Ne.symm fresh.2.1, ↓reduceIte, prevX]
    · simp only [List.mem_cons, not_or]
      exact fresh.2

/-- Bridging over a node removes it. -/
theorem Seg.bridge {l : Links ν} {first last x : ν} {front back : List ν}
    (seg : l.Seg first (front ++ x :: back) last) (nodup : (first :: (front ++ x :: back)).Nodup)
    (open' : last ∉ front ++ x :: back) :
    (l.bridge (l.prev x) (l.next x)).Seg first (front ++ back) last := by
  rw [seg.next_eq]
  induction front generalizing first with
  | nil =>
    obtain ⟨_, prevX, tail⟩ := seg
    simp only [List.nil_append, List.mem_cons, List.nodup_cons, not_or] at nodup open' ⊢
    rw [prevX]
    cases back with
    | nil => exact ⟨if_pos rfl, if_pos rfl⟩
    | cons y rest =>
      simp only [List.mem_cons, List.nodup_cons, not_or] at nodup open'
      refine ⟨if_pos rfl, if_pos rfl, tail.2.2.congr ?_ ?_⟩
      · intro z member
        have ne : z ≠ first := by
          rintro rfl
          rcases List.mem_cons.mp member with same | member
          · exact nodup.1.2.1 same
          · exact nodup.1.2.2 member
        simp only [Links.bridge, setNext_next, setPrev_next, ne, ↓reduceIte]
      · intro z member
        have ne : z ≠ y := by
          rintro rfl
          rcases member with same | member
          · exact open'.2.1 same.symm
          · exact nodup.2.2.1 member
        simp only [Links.bridge, setNext_prev, setPrev_prev, List.headD_cons, ne, ↓reduceIte]
  | cons y front ih =>
    obtain ⟨nextFirst, prevY, tail⟩ := seg
    simp only [List.cons_append, List.mem_cons, List.nodup_cons, not_or] at nodup open'
    have before := tail.prev_mem
    simp only [List.headD_cons] at before
    refine ⟨?_, ?_, ih tail (List.nodup_cons.mpr nodup.2) open'.2⟩
    · have ne : first ≠ l.prev x := by
        intro equal
        rcases List.mem_cons.mp (equal ▸ before) with same | member
        · exact nodup.1.1 same
        · exact nodup.1.2 (List.mem_append_left _ member)
      simp only [Links.bridge, setNext_next, setPrev_next, ne, ↓reduceIte, nextFirst]
    · have ne : y ≠ back.headD last := by
        intro equal
        rcases headD_mem last back with same | member
        · exact open'.1 (same.symm.trans equal.symm)
        · exact nodup.2.1 (List.mem_append_right _ (List.mem_cons_of_mem _ (equal ▸ member)))
      simp only [Links.bridge, setNext_prev, setPrev_prev, ne, ↓reduceIte, prevY]

namespace Ring

variable {l : Links ν} {h x new : ν} {body front back : List ν}

omit [DecidableEq ν] in
/-- A ring only reads the pointers of its own nodes. -/
theorem congr {l' : Links ν} (ring : l.Ring h body)
    (same : ∀ x ∈ h :: body, l'.next x = l.next x ∧ l'.prev x = l.prev x) : l'.Ring h body :=
  ⟨ring.1.congr (fun x member => (same x member).1)
    (fun x member => (same x (List.mem_cons.mpr member)).2), ring.2⟩

omit [DecidableEq ν] in
theorem next_head (ring : l.Ring h body) : l.next h = body.headD h := by
  cases body with
  | nil => exact ring.1.1
  | cons x body => exact ring.1.1

omit [DecidableEq ν] in
theorem next_mem (ring : l.Ring h (front ++ x :: back)) : l.next x = back.headD h := ring.1.next_eq

omit [DecidableEq ν] in
theorem neighbours_mem (ring : l.Ring h body) (member : x ∈ h :: body) :
    l.next x ∈ h :: body ∧ l.prev x ∈ h :: body := by
  rcases List.mem_cons.mp member with rfl | inBody
  · constructor
    · rw [ring.next_head]
      exact List.mem_cons.mpr (headD_mem x body)
    · have seg := ring.1
      rw [← List.append_nil body] at seg
      exact seg.prev_mem
  · obtain ⟨front, back, rfl⟩ := List.append_of_mem inBody
    constructor
    · rw [ring.next_mem]
      rcases headD_mem h back with same | member
      · exact List.mem_cons.mpr (.inl same)
      · exact List.mem_cons_of_mem _ (List.mem_append_right _ (List.mem_cons_of_mem _ member))
    · have before := ring.1.prev_mem
      rcases List.mem_cons.mp before with same | member
      · exact List.mem_cons.mpr (.inl same)
      · exact List.mem_cons_of_mem _ (List.mem_append_left _ member)

/-- Inserting in front of the node after a cut of the ring. -/
theorem insertBetween (ring : l.Ring h (front ++ back)) (fresh : new ∉ h :: (front ++ back)) :
    (l.insertBetween new (l.prev (back.headD h)) (back.headD h)).Ring h (front ++ new :: back) := by
  obtain ⟨seg, nodup⟩ := ring
  have other : new ≠ h := fun equal => fresh (equal ▸ List.mem_cons_self ..)
  refine ⟨seg.insertBetween nodup (List.nodup_cons.mp nodup).1 fresh other, ?_⟩
  have swapped : (h :: (front ++ new :: back)).Perm (new :: h :: (front ++ back)) :=
    (List.perm_middle.cons h).trans (List.Perm.swap ..)
  exact swapped.nodup_iff.mpr (List.nodup_cons.mpr ⟨fresh, nodup⟩)

/-- Inserting right after the head. -/
theorem insertAfterHead (ring : l.Ring h body) (fresh : new ∉ h :: body) :
    (l.insertBetween new h (l.next h)).Ring h (new :: body) := by
  have cut : l.Ring h ([] ++ body) := ring
  have inserted := cut.insertBetween fresh
  have before : l.prev (body.headD h) = h := List.mem_singleton.mp cut.1.prev_mem
  rwa [before, ← ring.next_head] at inserted

/-- Bridging over a node of the ring. -/
theorem bridge (ring : l.Ring h (front ++ x :: back)) :
    (l.bridge (l.prev x) (l.next x)).Ring h (front ++ back) := by
  obtain ⟨seg, nodup⟩ := ring
  refine ⟨seg.bridge nodup (List.nodup_cons.mp nodup).1, ?_⟩
  have moved : (h :: (front ++ x :: back)).Perm (x :: h :: (front ++ back)) :=
    (List.perm_middle.cons h).trans (List.Perm.swap ..)
  exact (List.nodup_cons.mp (moved.nodup_iff.mp nodup)).2

/-- Nodes off the ring may be written freely. -/
theorem insertBetween_frame (ring : l.Ring h body) {before after : ν}
    (off : ∀ x ∈ h :: body, x ≠ new ∧ x ≠ before ∧ x ≠ after) :
    (l.insertBetween new before after).Ring h body := by
  refine ring.congr fun x member => ?_
  obtain ⟨notNew, notBefore, notAfter⟩ := off x member
  simp only [Links.insertBetween, setNext_next, setPrev_next, setNext_prev, setPrev_prev, notNew,
    notBefore, notAfter, ↓reduceIte, and_self]

theorem bridge_frame (ring : l.Ring h body) {before after : ν}
    (off : ∀ x ∈ h :: body, x ≠ before ∧ x ≠ after) : (l.bridge before after).Ring h body := by
  refine ring.congr fun x member => ?_
  obtain ⟨notBefore, notAfter⟩ := off x member
  simp only [Links.bridge, setNext_next, setPrev_next, setNext_prev, setPrev_prev, notBefore,
    notAfter, ↓reduceIte, and_self]

theorem write_frame (ring : l.Ring h body) {a b c : ν} (off : a ∉ h :: body) :
    ((l.setNext a b).setPrev a c).Ring h body := by
  refine ring.congr fun x member => ?_
  have other : x ≠ a := fun equal => off (equal ▸ member)
  simp only [setNext_next, setPrev_next, setNext_prev, setPrev_prev, other, ↓reduceIte, and_self]

end Ring

/-- The nodes met from `start` until `h` comes round, at most `fuel` of them. -/
def walk (l : Links ν) (h : ν) : ℕ → ν → List ν
  | 0, _ => []
  | fuel + 1, x => if x = h then [] else x :: l.walk h fuel (l.next x)

theorem Seg.walk {l : Links ν} {h first : ν} {body : List ν} (seg : l.Seg first body h)
    (off : h ∉ body) {fuel : ℕ} (enough : body.length ≤ fuel) :
    l.walk h fuel (l.next first) = body := by
  induction body generalizing first fuel with
  | nil =>
    cases fuel with
    | zero => rfl
    | succ fuel => simp only [Links.walk, seg.1, ↓reduceIte]
  | cons x rest ih =>
    obtain ⟨nextFirst, _, tail⟩ := seg
    cases fuel with
    | zero => simp at enough
    | succ fuel =>
      have other : x ≠ h := fun equal => off (equal ▸ List.mem_cons_self ..)
      simp only [Links.walk, nextFirst, other, ↓reduceIte, List.cons.injEq, true_and]
      exact ih tail (fun member => off (List.mem_cons_of_mem _ member)) (Nat.le_of_succ_le_succ enough)

/-- Walking a ring from its head lists the body. -/
theorem Ring.walk {l : Links ν} {h : ν} {body : List ν} (ring : l.Ring h body) {fuel : ℕ}
    (enough : body.length ≤ fuel) : l.walk h fuel (l.next h) = body :=
  ring.1.walk (List.nodup_cons.mp ring.2).1 enough

end Links

end LinkedRing
