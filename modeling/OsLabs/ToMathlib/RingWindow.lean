import Mathlib.Logic.Function.Basic
import OsLabs.ToMathlib.ListWindow

/-! # Windows of a ring

The list of the `n` values of a function from the index `start` on, where indices are taken modulo
`size`. While there is room, an entry may be put at either end; an entry may be taken from
either end.
-/

namespace RingWindow

open ListWindow

variable {α : Type*} {f g : ℕ → α} {size start n i : ℕ} {x : α}

def ring (f : ℕ → α) (size start n : ℕ) : List α := window (fun i => f ((start + i) % size)) n

@[simp] theorem length_ring (f : ℕ → α) (size start n : ℕ) : (ring f size start n).length = n :=
  length_window ..

@[simp] theorem ring_zero (f : ℕ → α) (size start : ℕ) : ring f size start 0 = [] := rfl

/-- Indices of one window are different. -/
theorem index_ne (start : ℕ) {j : ℕ} (below : i < j) (inRing : j < size) :
    (start + i) % size ≠ (start + j) % size := by
  intro same
  have gap := Nat.sub_mod_eq_zero_of_mod_eq same.symm
  rw [Nat.add_sub_add_left] at gap
  have dvd := Nat.dvd_of_mod_eq_zero gap
  have le := Nat.le_of_dvd (by omega) dvd
  omega

theorem ring_congr (same : ∀ i < n, f ((start + i) % size) = g ((start + i) % size)) :
    ring f size start n = ring g size start n :=
  window_congr same

/-- The window from an index that is the same modulo `size`. -/
theorem ring_start_mod (f : ℕ → α) (size start n : ℕ) : ring f size (start % size) n = ring f size start n := by
  apply window_congr
  intro i _
  rw [Nat.mod_add_mod]

theorem ring_succ (f : ℕ → α) (inRing : start < size) (n : ℕ) :
    ring f size start (n + 1) = f start :: ring f size ((start + 1) % size) n := by
  rw [ring_start_mod, ring, window_succ, Nat.add_zero, Nat.mod_eq_of_lt inRing, ring]
  congr 1
  apply window_congr
  intro i _
  rw [Nat.add_assoc, Nat.add_comm 1 i]

theorem ring_concat (f : ℕ → α) (size start n : ℕ) :
    ring f size start (n + 1) = ring f size start n ++ [f ((start + n) % size)] := by
  rw [ring, window, List.range_succ, List.map_append]
  rfl

/-- Writing outside the window. -/
theorem ring_update_of_ne {k : ℕ} (outside : ∀ i < n, (start + i) % size ≠ k) :
    ring (Function.update f k x) size start n = ring f size start n := by
  apply ring_congr
  intro i inside
  rw [Function.update_of_ne (outside i inside)]

/-- A new entry behind the last one. -/
theorem ring_push_back (room : n < size) :
    ring (Function.update f ((start + n) % size) x) size start (n + 1) = ring f size start n ++ [x] := by
  rw [ring_concat, Function.update_self, ring_update_of_ne]
  intro i inside
  exact index_ne start inside room

/-- A new entry before the first one. -/
theorem ring_push_front (inRing : start < size) (room : n < size) :
    ring (Function.update f ((start + size - 1) % size) x) size ((start + size - 1) % size) (n + 1) =
      x :: ring f size start n := by
  have next : ((start + size - 1) % size + 1) % size = start := by
    rw [Nat.mod_add_mod, Nat.sub_add_cancel (by omega), Nat.add_mod_right, Nat.mod_eq_of_lt inRing]
  rw [ring_succ _ (Nat.mod_lt _ (by omega)), Function.update_self, next, ring_update_of_ne]
  intro i inside same
  have first : (start + i) % size = ((start + size - 1) + (i + 1)) % size := by
    rw [show start + size - 1 + (i + 1) = start + i + size by omega, Nat.add_mod_right]
  rw [first] at same
  exact index_ne (start + size - 1) (Nat.succ_pos i) (by omega) same.symm

/-- Writing the first entry. -/
theorem ring_update_front (inRing : start < size) (small : n < size) :
    ring (Function.update f start x) size start (n + 1) = x :: ring f size ((start + 1) % size) n := by
  rw [ring_succ _ inRing, Function.update_self, ring_start_mod, ring_update_of_ne, ring_start_mod]
  intro i inside same
  rw [Nat.add_assoc, Nat.add_comm 1 i] at same
  apply index_ne start (Nat.succ_pos i) (show i + 1 < size by omega)
  rw [same, Nat.add_zero, Nat.mod_eq_of_lt inRing]

end RingWindow
