import Mathlib.Data.List.Basic
import Mathlib.Order.Lattice
import Mathlib.Order.Defs.Unbundled

/-! # Stable insertion under a strict weak order

A list is sorted when no entry is less than one in front of it. A new entry goes behind every entry
that is not greater. Scanning from the front finds this place, since in a sorted list the greater
entries come last.
-/

namespace StableInsert

variable {α : Type*} (less : α → α → Prop)

def Sorted (l : List α) : Prop := l.Pairwise fun a b => ¬ less b a

/-- Neither entry is less than the other. -/
def Tied (x y : α) : Prop := ¬ less x y ∧ ¬ less y x

variable [DecidableRel less]

/-- The place a scan from the front finds. -/
def position (x : α) (l : List α) : ℕ := (l.takeWhile fun y => ¬ less x y).length

/-- The entries that are not greater, the new entry, the greater entries. -/
def insert (x : α) (l : List α) : List α := l.filter (fun y => ¬ less x y) ++ x :: l.filter (less x ·)

instance : DecidableRel (Tied less) := fun _ _ => inferInstanceAs (Decidable (_ ∧ _))

variable {less} {x : α} {l : List α}

theorem position_le : position less x l ≤ l.length := (List.takeWhile_prefix _).length_le

omit [DecidableRel less] in
theorem Sorted.sublist {l' : List α} (sorted : Sorted less l) (sub : l'.Sublist l) : Sorted less l' :=
  List.Pairwise.sublist sub sorted

/-- A greater entry ends the scan, any other is passed. -/
theorem position_cons (y : α) : position less x (y :: l) = if less x y then 0 else position less x l + 1 := by
  rw [position, List.takeWhile_cons]
  split
  · next passed =>
    rw [if_neg (of_decide_eq_true passed)]
    rfl
  · next greater =>
    rw [if_pos (not_not.mp (mt decide_eq_true greater))]
    rfl

theorem position_congr {less' : α → α → Prop} [DecidableRel less']
    (same : ∀ y ∈ l, less x y ↔ less' x y) : position less x l = position less' x l := by
  induction l with
  | nil => rfl
  | cons y l ih =>
    have rest := ih fun z member => same z (List.mem_cons_of_mem y member)
    have here := same y (List.mem_cons_self ..)
    rw [position_cons, position_cons, rest]
    exact if_congr here rfl rfl

theorem insertIdx_position : l.insertIdx (position less x l) x =
    l.takeWhile (fun y => ¬ less x y) ++ x :: l.dropWhile (fun y => ¬ less x y) := by
  induction l with
  | nil => rfl
  | cons y l ih =>
    rw [position_cons, List.takeWhile_cons, List.dropWhile_cons]
    split
    · next greater =>
      rw [decide_eq_false (not_not.mpr greater)]
      rfl
    · next passed =>
      rw [decide_eq_true passed, List.insertIdx_succ_cons, ih]
      rfl

/-- Comparing by a key is a strict weak order. -/
theorem isStrictWeakOrder_key {κ : Type*} [LinearOrder κ] (key : α → κ) :
    IsStrictWeakOrder α fun a b => key a < key b where
  irrefl a := lt_irrefl (key a)
  trans _ _ _ := lt_trans
  incomp_trans a b c first second := by
    have same : key a = key b := le_antisymm (not_lt.mp first.2) (not_lt.mp first.1)
    rw [same]
    exact second

section Order

variable [IsStrictWeakOrder α less]

omit [DecidableRel less] in
/-- A third entry is on one side of two ordered ones. -/
theorem less_or_less {y : α} (ordered : less x y) (z : α) : less x z ∨ less z y := by
  by_contra neither
  obtain ⟨notXZ, notZY⟩ := not_or.mp neither
  have first : ¬ less x z ∧ ¬ less z x := ⟨notXZ, fun below => notZY (trans_of less below ordered)⟩
  have second : ¬ less z y ∧ ¬ less y z := ⟨notZY, fun below => notXZ (trans_of less ordered below)⟩
  exact (IsStrictWeakOrder.incomp_trans x z y first second).1 ordered

/-- In a sorted list the entries behind a greater one are greater. -/
theorem scan_eq_filter (sorted : Sorted less l) :
    l.takeWhile (fun y => ¬ less x y) = l.filter (fun y => ¬ less x y) ∧
      l.dropWhile (fun y => ¬ less x y) = l.filter (less x ·) := by
  induction l with
  | nil => exact ⟨rfl, rfl⟩
  | cons y l ih =>
    obtain ⟨above, sorted⟩ := List.pairwise_cons.mp sorted
    obtain ⟨front, back⟩ := ih sorted
    by_cases greater : less x y
    · have rest : ∀ z ∈ l, less x z := fun z member =>
        (less_or_less greater z).resolve_right (above z member)
      have none : l.filter (fun z => ¬ less x z) = [] :=
        List.filter_eq_nil_iff.mpr fun z member => by simp only [rest z member, not_true_eq_false,
          decide_false, Bool.false_eq_true, not_false_eq_true]
      have all : l.filter (less x ·) = l := List.filter_eq_self.mpr fun z member =>
        decide_eq_true (rest z member)
      simp only [List.takeWhile_cons, List.dropWhile_cons, List.filter_cons, greater, not_true_eq_false,
        decide_true, decide_false, Bool.false_eq_true, ↓reduceIte, none, all, and_self]
    · simp only [List.takeWhile_cons, List.filter_cons, List.dropWhile_cons, greater, not_false_eq_true,
        decide_true, decide_false, Bool.false_eq_true, ↓reduceIte, front, back, and_self]

/-- The scan inserts behind every entry that is not greater. -/
theorem insertIdx_eq_insert (sorted : Sorted less l) :
    l.insertIdx (position less x l) x = insert less x l := by
  rw [insertIdx_position, (scan_eq_filter sorted).1, (scan_eq_filter sorted).2, insert]

theorem position_eq (sorted : Sorted less l) :
    position less x l = l.countP fun y => ¬ less x y := by
  rw [position, (scan_eq_filter sorted).1, List.countP_eq_length_filter]

theorem Sorted.insert (sorted : Sorted less l) : Sorted less (insert less x l) := by
  refine List.pairwise_append.mpr ⟨sorted.sublist List.filter_sublist, ?_, ?_⟩
  · refine List.pairwise_cons.mpr ⟨fun y member below => ?_, sorted.sublist List.filter_sublist⟩
    have greater : less x y := of_decide_eq_true (List.mem_filter.mp member).2
    exact asymm_of less greater below
  · intro y inFront z inBack below
    have notGreater : ¬ less x y := of_decide_eq_true (List.mem_filter.mp inFront).2
    rcases List.mem_cons.mp inBack with rfl | inBack
    · exact notGreater below
    · have greater : less x z := of_decide_eq_true (List.mem_filter.mp inBack).2
      exact notGreater (trans_of less greater below)

omit [DecidableRel less] in
theorem less_iff_of_tied {e y : α} (tied : Tied less e y) : less x y ↔ less x e :=
  ⟨fun below => (less_or_less below e).resolve_right tied.1,
    fun below => (less_or_less below y).resolve_right tied.2⟩

/-- Among the entries tied with `e`, a new one comes last. -/
theorem filter_insert (e : α) : (insert less x l).filter (Tied less e) =
    l.filter (Tied less e) ++ if Tied less e x then [x] else [] := by
  have tied (y : α) (member : decide (Tied less e y) = true) : less x y ↔ less x e :=
    less_iff_of_tied (of_decide_eq_true member)
  have pick (p : α → Bool) (c : Bool) (same : ∀ y, decide (Tied less e y) = true → p y = c) :
      (l.filter p).filter (Tied less e) = if c then l.filter (Tied less e) else [] := by
    rw [List.filter_filter]
    cases c with
    | true =>
      refine List.filter_congr fun y _ => ?_
      by_cases inClass : decide (Tied less e y) = true
      · rw [inClass, same y inClass, Bool.and_self]
      · rw [Bool.eq_false_iff.mpr inClass, Bool.false_and]
    | false =>
      refine List.filter_eq_nil_iff.mpr fun y _ both => ?_
      obtain ⟨inClass, holds⟩ := Bool.and_eq_true_iff.mp both
      exact Bool.noConfusion ((same y inClass).symm.trans holds)
  rw [StableInsert.insert, List.filter_append, List.filter_cons,
    pick _ (decide (¬ less x e)) fun y member => decide_eq_decide.mpr (not_congr (tied y member)),
    pick _ (decide (less x e)) fun y member => decide_eq_decide.mpr (tied y member)]
  by_cases below : less x e
  · have notTied : ¬ Tied less e x := fun tied => tied.2 below
    simp only [below, notTied, not_true_eq_false, decide_false, decide_true, Bool.false_eq_true,
      ↓reduceIte, List.nil_append, List.append_nil]
  · by_cases isTied : Tied less e x <;>
      simp only [below, isTied, not_false_eq_true, decide_false, decide_true, Bool.false_eq_true,
        ↓reduceIte, List.append_nil]

end Order

end StableInsert
