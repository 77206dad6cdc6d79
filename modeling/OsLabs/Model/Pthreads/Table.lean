import Mathlib.Data.Nat.Notation

/-! # The table

The numbering that `dp_waiter.c` and `dp_asymmetric.c` have in common: who sits next to whom and
which chopsticks a philosopher uses, for any number of philosophers and as many chopsticks.
-/

namespace OsLabs.Pthreads

variable {n : ℕ}

/-- The index before `id`, or the last one. -/
def before (id : Fin n) : Fin n :=
  if id.val = 0 then ⟨n - 1, Nat.sub_lt (Nat.lt_of_le_of_lt (Nat.zero_le _) id.isLt) Nat.one_pos⟩
  else ⟨id.val - 1, Nat.lt_of_le_of_lt (Nat.sub_le ..) id.isLt⟩

def leftPhil (id : Fin n) : Fin n :=
  if last : id.val = n - 1 then ⟨0, Nat.lt_of_le_of_lt (Nat.zero_le _) id.isLt⟩
  else ⟨id.val + 1, by have := id.isLt; omega⟩

def rightPhil (id : Fin n) : Fin n := before id

def leftChop (id : Fin n) : Fin n := id

def rightChop (id : Fin n) : Fin n := before id

/-- The other philosopher that uses a chopstick as the right one. -/
theorem rightChop_eq_iff {id c : Fin n} : rightChop id = c ↔ id = leftPhil c := by
  have small := id.isLt
  have small' := c.isLt
  rw [rightChop, before, leftPhil]
  split
  · split
    · simp only [Fin.ext_iff]
      omega
    · simp only [Fin.ext_iff]
      omega
  · split
    · simp only [Fin.ext_iff]
      omega
    · simp only [Fin.ext_iff]
      omega

theorem leftPhil_rightPhil (id : Fin n) : leftPhil (rightPhil id) = id := (rightChop_eq_iff.mp rfl).symm

theorem rightPhil_leftPhil (id : Fin n) : rightPhil (leftPhil id) = id := rightChop_eq_iff.mpr rfl

/-- The philosopher uses the chopstick. -/
def Uses (id c : Fin n) : Prop := leftChop id = c ∨ rightChop id = c

instance (id c : Fin n) : Decidable (Uses id c) := inferInstanceAs (Decidable (_ ∨ _))

/-- Two philosophers with a chopstick in common are neighbours. -/
theorem Uses.neighbours {id other c : Fin n} (uses : Uses id c) (uses' : Uses other c) (ne : other ≠ id) :
    other = leftPhil id ∨ other = rightPhil id := by
  rcases uses with rfl | isRight
  · rcases uses' with same | isRight'
    · exact absurd same ne
    · exact .inl (rightChop_eq_iff.mp isRight')
  · rcases uses' with rfl | isRight'
    · exact .inr isRight.symm
    · rw [rightChop_eq_iff] at isRight isRight'
      exact absurd (isRight'.trans isRight.symm) ne

theorem uses_leftPhil (id : Fin n) : Uses (leftPhil id) id := .inr (rightPhil_leftPhil id)

/-- Nobody is his own neighbour. -/
theorem leftPhil_ne (many : 2 ≤ n) (id : Fin n) : leftPhil id ≠ id := by
  have small := id.isLt
  rw [leftPhil]
  split
  · rw [Ne, Fin.ext_iff]
    change ¬ 0 = id.val
    omega
  · rw [Ne, Fin.ext_iff]
    change ¬ id.val + 1 = id.val
    omega

theorem rightPhil_ne (many : 2 ≤ n) (id : Fin n) : rightPhil id ≠ id := by
  intro same
  have other := leftPhil_ne many id
  apply other
  rw [← same, leftPhil_rightPhil]
  exact same.symm

end OsLabs.Pthreads
