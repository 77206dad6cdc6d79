import Mathlib.Data.List.Basic
import Mathlib.Data.List.GetD

/-! # Tables of descriptors

A finite table from small numbers to open things. Opening takes the lowest free number, closing
frees a number, and duplication makes a second number for what is open under a first.
-/

/-- The descriptors of a process: entry `fd` is what is open as `fd`. -/
abbrev DescriptorTable (δ : Type*) := List (Option δ)

namespace DescriptorTable

variable {δ : Type*} {t : DescriptorTable δ} {fd fd' : ℕ} {d : δ}

/-- What is open as `fd`. -/
def get (t : DescriptorTable δ) (fd : ℕ) : Option δ := t.getD fd none

def set (t : DescriptorTable δ) (fd : ℕ) (d : Option δ) : DescriptorTable δ :=
  if fd < t.length then List.set t fd d else t ++ List.replicate (fd - t.length) none ++ [d]

/-- The lowest free descriptor. -/
def lowest (t : DescriptorTable δ) : ℕ := t.findIdx (·.isNone)

/-- The new descriptor and the table with it. -/
def «open» (t : DescriptorTable δ) (d : δ) : ℕ × DescriptorTable δ := (t.lowest, t.set t.lowest (some d))

def close (t : DescriptorTable δ) (fd : ℕ) : DescriptorTable δ :=
  if (t.get fd).isSome then t.set fd none else t

/-- Descriptor `fd'` becomes what `fd` is, which is open. -/
def dup (t : DescriptorTable δ) (fd fd' : ℕ) : DescriptorTable δ :=
  if (t.get fd).isSome then t.set fd' (t.get fd) else t

theorem get_set (t : DescriptorTable δ) (fd fd' : ℕ) (d : Option δ) :
    (t.set fd d).get fd' = if fd' = fd then d else t.get fd' := by
  rw [get, get, set, List.getD_eq_getElem?_getD, List.getD_eq_getElem?_getD]
  by_cases inside : fd < t.length
  · rw [if_pos inside, List.getElem?_set]
    by_cases same : fd = fd'
    · rw [if_pos same, if_pos inside, if_pos same.symm]
      rfl
    · rw [if_neg same, if_neg (Ne.symm same)]
  · rw [if_neg inside, List.append_assoc]
    by_cases inOld : fd' < t.length
    · rw [List.getElem?_append_left inOld, if_neg (by omega)]
    · rw [List.getElem?_append_right (by omega), List.getElem?_eq_none (Nat.le_of_not_lt inOld)]
      by_cases inGap : fd' < fd
      · rw [List.getElem?_append_left (by rw [List.length_replicate]; omega), if_neg (by omega),
          List.getElem?_replicate, if_pos (by omega)]
        rfl
      · rw [List.getElem?_append_right (by rw [List.length_replicate]; omega), List.length_replicate]
        by_cases same : fd' = fd
        · rw [if_pos same, same, Nat.sub_self]
          rfl
        · rw [if_neg same, List.getElem?_eq_none (by rw [List.length_singleton]; omega)]

@[simp] theorem get_close (t : DescriptorTable δ) (fd fd' : ℕ) :
    (t.close fd).get fd' = if fd' = fd then none else t.get fd' := by
  rw [close]
  split
  · exact get_set ..
  · next isFree =>
    split
    · next same => rw [same, Option.not_isSome_iff_eq_none.mp isFree]
    · rfl

/-- The lowest free descriptor is free. -/
theorem get_lowest (t : DescriptorTable δ) : t.get t.lowest = none := by
  rw [get, List.getD_eq_getElem?_getD]
  by_cases inside : t.lowest < t.length
  · rw [List.getElem?_eq_getElem inside]
    exact Option.isNone_iff_eq_none.mp (List.findIdx_getElem (w := inside))
  · rw [List.getElem?_eq_none (Nat.le_of_not_lt inside)]
    rfl

theorem get_open (t : DescriptorTable δ) (d : δ) (fd : ℕ) :
    (t.open d).2.get fd = if fd = t.lowest then some d else t.get fd := get_set ..

theorem get_dup (isOpen : t.get fd = some d) (fd₂ : ℕ) :
    (t.dup fd fd').get fd₂ = if fd₂ = fd' then some d else t.get fd₂ := by
  rw [dup, if_pos (isOpen ▸ rfl), get_set, isOpen]

end DescriptorTable
