import Mathlib.Order.Interval.Set.Defs
import Mathlib.Data.Set.Function
import OsLabs.Model.Scheduler.Diagram
import OsLabs.ToMathlib.PrefixCode

/-! # Reading a row of the diagram

A dash is an idle unit, a character that stands alone is one of the first 62 jobs, and a parenthesis
starts a number. Eight digits fill the nine characters that are printed, and then no parenthesis ends
the number. So the labels of the first 10⁸ jobs can be told apart in any row, and no more than these.
-/

namespace OsLabs.Scheduler

open CStrings ScanFormat

variable {k : ℕ} {rest : List Char}

/-- The job that a single character stands for. -/
def letterValue (c : Char) : ℕ :=
  if c.isDigit then c.toNat - '0'.toNat
  else if 'a'.toNat ≤ c.toNat then c.toNat - 'a'.toNat + 10
  else c.toNat - 'A'.toNat + 36

/-- The first unit of a row and the rest of the row. -/
def readCell : List Char → Option (Option ℕ × List Char)
  | [] => none
  | c :: rest =>
    if c = '-' then some (none, rest)
    else if c = '(' then
      let digits := (rest.take 8).takeWhile Char.isDigit
      let behind := rest.drop digits.length
      some (some (digitsValue digits), if digits.length < 8 then behind.tail else behind)
    else some (some (letterValue c), rest)

/-- What is printed for a unit of a core. -/
def cellText : Option ℕ → List Char
  | none => ['-']
  | some jobId => jobLabel jobId

theorem jobLabel_short (short : k < 62) : ∃ c, jobLabel k = [c] ∧ c ≠ '-' ∧ c ≠ '(' ∧ letterValue c = k := by
  have all : ∀ k < 62, jobLabel (k : ℕ) = [(jobLabel (k : ℕ)).headD '-'] ∧ (jobLabel (k : ℕ)).headD '-' ≠ '-' ∧
      (jobLabel (k : ℕ)).headD '-' ≠ '(' ∧ letterValue ((jobLabel (k : ℕ)).headD '-') = k := by decide +kernel
  exact ⟨_, all k short⟩

theorem jobLabel_long (long : 62 ≤ k) : jobLabel k = ('(' :: (Nat.toDigits 10 k ++ [')'])).take 9 := by
  rw [jobLabel, if_neg (by omega), if_neg (by omega), if_neg (by omega), decimal_natCast]

theorem jobLabel_ne_nil (k : ℕ) : jobLabel k ≠ [] := by
  by_cases short : k < 62
  · obtain ⟨c, label, -⟩ := jobLabel_short short
    rw [label]
    exact List.cons_ne_nil _ _
  · rw [jobLabel_long (Nat.not_lt.mp short), List.take_succ_cons]
    exact List.cons_ne_nil _ _

/-- A label fits its array. -/
theorem jobLabel_length (k : ℕ) : (jobLabel k).length < timeStringSize := by
  by_cases short : k < 62
  · obtain ⟨c, label, -⟩ := jobLabel_short short
    rw [label]
    exact (by decide : 1 < timeStringSize)
  · rw [jobLabel_long (Nat.not_lt.mp short), List.length_take]
    exact Nat.lt_of_le_of_lt (Nat.min_le_left _ _) (by decide)

/-- A number in parentheses is read up to the closing one. -/
theorem readCell_closed {digits : List Char} (isDigits : ∀ c ∈ digits, c.isDigit = true) (fits : digits.length < 8) :
    readCell ('(' :: (digits ++ ')' :: rest)) = some (some (digitsValue digits), rest) := by
  have taken : ((digits ++ ')' :: rest).take 8).takeWhile Char.isDigit = digits := by
    obtain ⟨n, isSucc⟩ : ∃ n, 8 - digits.length = n + 1 := ⟨8 - digits.length - 1, by omega⟩
    rw [List.take_append, List.take_of_length_le (by omega), isSucc, List.take_succ_cons]
    exact takeWhile_span isDigits (stops_cons rfl)
  rw [readCell, if_neg (by decide), if_pos rfl]
  dsimp only
  rw [taken, if_pos fits, List.drop_left, List.tail_cons]

/-- Eight digits are read without a closing parenthesis. -/
theorem readCell_open {digits : List Char} (isDigits : ∀ c ∈ digits, c.isDigit = true) (fills : digits.length = 8) :
    readCell ('(' :: (digits ++ rest)) = some (some (digitsValue digits), rest) := by
  have taken : ((digits ++ rest).take 8).takeWhile Char.isDigit = digits := by
    rw [← fills, List.take_left]
    exact List.takeWhile_eq_self_iff.mpr isDigits
  rw [readCell, if_neg (by decide), if_pos rfl]
  dsimp only
  rw [taken, if_neg (by omega), List.drop_left]

theorem readCell_label (few : k < 10 ^ 8) (rest : List Char) : readCell (jobLabel k ++ rest) = some (some k, rest) := by
  by_cases short : k < 62
  · obtain ⟨c, label, notDash, notOpen, value⟩ := jobLabel_short short
    rw [label, List.singleton_append, readCell, if_neg notDash, if_neg notOpen, value]
  · have digits := (digits_toDigits k).all
    have length : (Nat.toDigits 10 k).length ≤ 8 := (Nat.length_toDigits_le_iff (by decide) (by decide)).mpr few
    rw [jobLabel_long (Nat.not_lt.mp short), List.take_succ_cons]
    by_cases fills : (Nat.toDigits 10 k).length = 8
    · have cut : (Nat.toDigits 10 k ++ [')']).take 8 = Nat.toDigits 10 k := by rw [← fills, List.take_left]
      rw [cut, List.cons_append, readCell_open digits fills, digitsValue_toDigits]
    · have whole : (Nat.toDigits 10 k ++ [')']).take 8 = Nat.toDigits 10 k ++ [')'] := by
        apply List.take_of_length_le
        rw [List.length_append, List.length_singleton]
        omega
      rw [whole, List.cons_append, List.append_assoc, List.singleton_append, readCell_closed digits (by omega),
        digitsValue_toDigits]

/-- The units of a row, as long as no job has a number of nine digits. -/
def cells : PrefixCode (Option ℕ) Char where
  code := cellText
  next := readCell
  valid cell := ∀ jobId ∈ cell, jobId < 10 ^ 8
  code_ne_nil cell _ := by
    cases cell with
    | none => exact List.cons_ne_nil _ _
    | some jobId => exact jobLabel_ne_nil jobId
  next_code cell rest few := by
    cases cell with
    | none => rfl
    | some jobId => exact readCell_label (few jobId rfl) rest

/-- The labels of the first jobs are different as long as no job has a number of nine digits. -/
theorem jobLabel_injOn_iff (n : ℕ) : Set.InjOn (fun k : ℕ => jobLabel k) (Set.Iio n) ↔ n ≤ 10 ^ 8 := by
  constructor
  · intro injective
    by_contra! many
    have same : jobLabel (10 ^ 7 : ℕ) = jobLabel (10 ^ 8 : ℕ) := by decide +kernel
    have absurd := injective (Set.mem_Iio.mpr (by omega)) (Set.mem_Iio.mpr many) same
    omega
  · intro few a inRange b inRange' same
    have read := readCell_label ((Set.mem_Iio.mp inRange).trans_le few) []
    have read' := readCell_label ((Set.mem_Iio.mp inRange').trans_le few) []
    rw [show jobLabel (a : ℕ) = jobLabel (b : ℕ) from same, read'] at read
    cases read
    rfl

end OsLabs.Scheduler
