import Mathlib.Data.List.Basic

/-! # Lists read off a window of a function

The first `n` values of a function form a list. Inserting or erasing an entry of that list is a
shift of the function between the entry and the end of the window.
-/

namespace ListWindow

variable {α : Type*} {f g : ℕ → α} {n k : ℕ} {x : α}

def window (f : ℕ → α) (n : ℕ) : List α := (List.range n).map f

@[simp] theorem length_window (f : ℕ → α) (n : ℕ) : (window f n).length = n := by
  rw [window, List.length_map, List.length_range]

@[simp] theorem getElem_window (i : ℕ) (bound : i < (window f n).length) : (window f n)[i] = f i := by
  simp only [window, List.getElem_map, List.getElem_range]

theorem getElem?_window (i : ℕ) : (window f n)[i]? = if i < n then some (f i) else none := by
  split
  · next bound =>
    rw [List.getElem?_eq_getElem (by rwa [length_window]), getElem_window]
  · next outside => exact List.getElem?_eq_none (by rw [length_window]; omega)

theorem window_congr (same : ∀ i < n, f i = g i) : window f n = window g n :=
  List.map_congr_left fun i member => same i (List.mem_range.mp member)

@[simp] theorem window_zero (f : ℕ → α) : window f 0 = [] := rfl

theorem window_succ (f : ℕ → α) (n : ℕ) : window f (n + 1) = f 0 :: window (fun i => f (i + 1)) n := by
  rw [window, List.range_succ_eq_map, List.map_cons, List.map_map]
  rfl

/-- Shifting the values from `k` on up by one makes room for a new entry. -/
theorem window_insert (inside : k ≤ n) (below : ∀ i < k, g i = f i) (new : g k = x)
    (above : ∀ i, k ≤ i → i < n → g (i + 1) = f i) : window g (n + 1) = (window f n).insertIdx k x := by
  have length : ((window f n).insertIdx k x).length = n + 1 := by
    rw [List.length_insertIdx_of_le_length (by rwa [length_window]), length_window]
  apply List.ext_getElem
  · rw [length_window, length]
  · intro i bound bound'
    rw [length] at bound'
    rw [getElem_window, List.getElem_insertIdx]
    split
    · next less => rw [getElem_window, below i less]
    · split
      · next same => rw [same, new]
      · next notLess ne =>
        obtain ⟨j, rfl⟩ : ∃ j, i = j + 1 := ⟨i - 1, by omega⟩
        rw [getElem_window, above j (by omega) (by omega), Nat.add_sub_cancel]

/-- Shifting the values behind `k` down by one erases the entry. -/
theorem window_erase (inside : k ≤ n) (below : ∀ i < k, g i = f i)
    (above : ∀ i, k ≤ i → i < n → g i = f (i + 1)) : window g n = (window f (n + 1)).eraseIdx k := by
  have length : ((window f (n + 1)).eraseIdx k).length = n := by
    rw [List.length_eraseIdx_of_lt (by rw [length_window]; omega), length_window, Nat.add_sub_cancel]
  apply List.ext_getElem
  · rw [length_window, length]
  · intro i bound bound'
    rw [length] at bound'
    rw [getElem_window, List.getElem_eraseIdx]
    split
    · next less => rw [getElem_window, below i less]
    · next notLess => rw [getElem_window, above i (by omega) bound']

end ListWindow
