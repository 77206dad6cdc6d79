import Mathlib.Data.List.TakeWhile
import OsLabs.ToMathlib.StableInsert

/-! # Stable priority queues

A queue filled by stable insertion is compared with its waiting list, the entries in the order they
were put. It is sorted, and entries that tie stand as in the waiting list. So its head is the first
of the least entries that wait.
-/

namespace StableInsert

variable {α : Type*} (less : α → α → Prop)

/-- `x` is the first of the least entries of the waiting list `w`. -/
def First (x : α) (w : List α) : Prop :=
  ∃ front back, w = front ++ x :: back ∧ (∀ y ∈ front, less x y) ∧ ∀ y ∈ back, ¬ less y x

/-- The queue `l` is sorted and keeps the order of the waiting list `w` among tied entries. -/
structure Stable [DecidableRel less] (l w : List α) : Prop where
  sorted : Sorted less l
  ties : ∀ e, l.filter (Tied less e) = w.filter (Tied less e)

variable {less} [DecidableRel less] {x : α} {l w : List α}

theorem Stable.nil : Stable less [] [] := ⟨List.Pairwise.nil, fun _ => rfl⟩

omit [DecidableRel less] in
theorem tied_self [Std.Irrefl less] (x : α) : Tied less x x := ⟨irrefl_of less x, irrefl_of less x⟩

/-- An entry that is less than none goes to the end. -/
theorem position_eq_length (last : ∀ y ∈ l, ¬ less x y) : position less x l = l.length := by
  have all : l.takeWhile (fun y => ¬ less x y) = l :=
    List.takeWhile_eq_self_iff.mpr fun y member => decide_eq_true (last y member)
  rw [position, all]

theorem position_map {β : Type*} (f : β → α) (b : β) (l : List β) :
    position less (f b) (l.map f) = position (fun b c => less (f b) (f c)) b l := by
  rw [position, position, List.takeWhile_map, List.length_map]
  rfl

section Order

variable [IsStrictWeakOrder α less]

theorem Stable.put (stable : Stable less l w) (x : α) :
    Stable less (l.insertIdx (position less x l) x) (w ++ [x]) where
  sorted := by
    rw [insertIdx_eq_insert stable.sorted]
    exact stable.sorted.insert
  ties e := by
    rw [insertIdx_eq_insert stable.sorted, filter_insert, stable.ties, List.filter_append, List.filter_cons,
      List.filter_nil]
    by_cases tied : Tied less e x <;> simp only [tied, decide_true, decide_false, Bool.false_eq_true, ↓reduceIte]

variable [DecidableEq α]

theorem Stable.perm (stable : Stable less l w) : l.Perm w := by
  refine List.perm_iff_count.mpr fun x => ?_
  have counts (l : List α) : (l.filter (Tied less x)).count x = l.count x :=
    List.count_filter (decide_eq_true (tied_self x))
  rw [← counts, stable.ties x, counts]

theorem Stable.first (stable : Stable less (x :: l) w) : First less x w := by
  have ties := stable.ties x
  simp only [List.filter_cons, tied_self x, decide_true, ↓reduceIte] at ties
  obtain ⟨front, back, rfl, untied, _, _⟩ := List.filter_eq_cons_iff.mp ties.symm
  have notLess : ∀ y ∈ front ++ x :: back, ¬ less y x := by
    intro y member
    rcases List.mem_cons.mp (stable.perm.mem_iff.mpr member) with rfl | behind
    · exact irrefl_of less y
    · exact (List.pairwise_cons.mp stable.sorted).1 y behind
  refine ⟨front, back, rfl, fun y member => ?_, fun y member => ?_⟩
  · by_contra notAbove
    exact untied y member (decide_eq_true ⟨notAbove, notLess y (List.mem_append_left _ member)⟩)
  · exact notLess y (List.mem_append_right _ (List.mem_cons_of_mem x member))

theorem Stable.take (stable : Stable less (x :: l) w) : Stable less l (w.erase x) where
  sorted := (List.pairwise_cons.mp stable.sorted).2
  ties e := by
    obtain ⟨front, back, rfl, above, _⟩ := stable.first
    have fresh : x ∉ front := fun member => irrefl_of less x (above x member)
    have ties := stable.ties e
    rw [List.erase_append_right _ fresh, List.erase_cons_head]
    rw [List.filter_append] at ties ⊢
    by_cases tied : Tied less e x
    · -- what is before `x` is greater, so it does not tie with `e`
      have none : front.filter (Tied less e) = [] := by
        refine List.filter_eq_nil_iff.mpr fun y member both => ?_
        exact (of_decide_eq_true both).1 ((less_or_less (above y member) e).resolve_left tied.2)
      simp only [List.filter_cons, tied, decide_true, ↓reduceIte, none, List.nil_append] at ties ⊢
      exact (List.cons.inj ties).2
    · simpa only [List.filter_cons, tied, decide_false, Bool.false_eq_true, ↓reduceIte] using ties

end Order

end StableInsert
