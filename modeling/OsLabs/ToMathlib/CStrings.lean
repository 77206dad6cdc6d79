import Mathlib.Data.List.Forall2
import Mathlib.Data.List.TakeWhile
import OsLabs.ToMathlib.ScanFormat

/-! # Lines, fields and numbers of a text

`fgets`, `strtok` with one separator, `atoi` and the `%d` of `printf`, on texts as lists of characters.
What they find is said once more without them: the pieces of a file, the first fields of a text, the
number that a text starts with.
-/

namespace CStrings

open ScanFormat

variable {text rest w : List Char} {c : Char} {n : ℤ} {size : ℕ}

def nul : Char := Char.ofNat 0

/-- The characters in front of the first NUL. -/
def cString (text : List Char) : List Char := text.takeWhile (· ≠ nul)

/-! ## Numbers -/

/-- `%d`. -/
def decimal (n : ℤ) : List Char := if n < 0 then '-' :: Nat.toDigits 10 n.natAbs else Nat.toDigits 10 n.toNat

/-- `atoi`, which reads as `%d` does and takes a text without a number for 0. -/
def atoi (text : List Char) : ℤ := (Stream.scanInt ⟨text, false⟩).2.getD 0

/-- What a text is worth: the number it starts with, or 0. -/
inductive Value : List Char → ℤ → Prop
  | number {w rest : List Char} {n : ℤ} (number : Number w n) (stops : Stops Char.isDigit rest) :
      Value (w ++ rest) (storeInt n)
  | blank {w : List Char} (blank : Blank w) : Value w 0
  | sign {w rest : List Char} {s : Char} (blank : Blank w) (sign : isSign s = true) (stops : Stops Char.isDigit rest) :
      Value (w ++ s :: rest) 0
  | other {w rest : List Char} {c : Char} (blank : Blank w) (other : starts c = false) : Value (w ++ c :: rest) 0

theorem value_iff : Value text n ↔ atoi text = n := by
  constructor
  · intro value
    cases value with
    | number number stops =>
      rw [atoi, Stream.scanInt_number number stops]
      rfl
    | blank blank =>
      rw [atoi, Stream.scanInt_blank blank]
      rfl
    | sign blank sign stops =>
      rw [atoi, Stream.scanInt_sign blank sign stops]
      rfl
    | other blank other =>
      rw [atoi, Stream.scanInt_other blank other]
      rfl
  · rintro rfl
    cases leading text with
    | number number stops =>
      rw [atoi, Stream.scanInt_number number stops]
      exact .number number stops
    | blank blank =>
      rw [atoi, Stream.scanInt_blank blank]
      exact .blank blank
    | sign blank sign stops =>
      rw [atoi, Stream.scanInt_sign blank sign stops]
      exact .sign blank sign stops
    | other blank other =>
      rw [atoi, Stream.scanInt_other blank other]
      exact .other blank other

theorem digitsValue_toDigits (n : ℕ) : digitsValue (Nat.toDigits 10 n) = n := by
  have value : Nat.ofDigitChars 10 (Nat.toDigits 10 n) 0 = n := Nat.ofDigitChars_ten_toDigits
  simp only [Nat.ofDigitChars_eq_foldl, Nat.mul_comm 10] at value
  exact value

theorem digits_toDigits (n : ℕ) : Digits (Nat.toDigits 10 n) where
  nonempty := Nat.toDigits_ne_nil
  all _ member := Nat.isDigit_of_mem_toDigits (by decide) (by decide) member

theorem decimal_natCast (n : ℕ) : decimal n = Nat.toDigits 10 n := by
  rw [decimal, if_neg (by omega), Int.toNat_natCast]

/-! ## Fields -/

/-- `strtok` with one separator: the next field, if there is one, and what is behind its separator. -/
def strtok (separator : Char) (text : List Char) : Option (List Char) × List Char :=
  match text.dropWhile (· = separator) with
  | [] => (none, [])
  | c :: rest => (some ((c :: rest).takeWhile (· ≠ separator)), ((c :: rest).dropWhile (· ≠ separator)).tail)

/-- The first fields of a text, behind any number of separators each. -/
inductive Fields (separator : Char) : List Char → List (List Char) → Prop
  | nil (text : List Char) : Fields separator text []
  | cons {skipped w rest : List Char} {fields : List (List Char)} (skips : ∀ c ∈ skipped, c = separator)
      (nonempty : w ≠ []) (field : ∀ c ∈ w, c ≠ separator) (ends : Stops (· ≠ separator) rest)
      (more : Fields separator rest.tail fields) : Fields separator (skipped ++ (w ++ rest)) (w :: fields)

variable {separator : Char} {fields : List (List Char)}

theorem strtok_field {skipped : List Char} (skips : ∀ c ∈ skipped, c = separator) (nonempty : w ≠ [])
    (field : ∀ c ∈ w, c ≠ separator) (ends : Stops (· ≠ separator) rest) :
    strtok separator (skipped ++ (w ++ rest)) = (some w, rest.tail) := by
  obtain ⟨c, w, rfl⟩ := List.exists_cons_of_ne_nil nonempty
  have start : (skipped ++ (c :: w ++ rest)).dropWhile (· = separator) = c :: (w ++ rest) := by
    have all : ∀ d ∈ skipped, decide (d = separator) = true := fun d member => decide_eq_true (skips d member)
    exact dropWhile_span all (stops_cons (decide_eq_false (field c List.mem_cons_self)))
  have all : ∀ d ∈ c :: w, decide (d ≠ separator) = true := fun d member => decide_eq_true (field d member)
  rw [strtok, start]
  dsimp only
  rw [← List.cons_append, takeWhile_span all ends, dropWhile_span all ends]

/-- A field is the one that `strtok` finds. -/
theorem fields_cons_iff :
    Fields separator text (w :: fields) ↔ ∃ rest, strtok separator text = (some w, rest) ∧ Fields separator rest fields := by
  constructor
  · intro split
    cases split with
    | cons skips nonempty field ends more => exact ⟨_, strtok_field skips nonempty field ends, more⟩
  · rintro ⟨rest, found, more⟩
    obtain ⟨skipped, text, rfl, skips, stops⟩ := exists_span (· = separator) text
    have skips' : ∀ c ∈ skipped, c = separator := fun c member => of_decide_eq_true (skips c member)
    obtain ⟨w', rest', rfl, field, ends⟩ := exists_span (· ≠ separator) text
    have field' : ∀ c ∈ w', c ≠ separator := fun c member => of_decide_eq_true (field c member)
    by_cases empty : w' = []
    · -- the text goes on with no separator and with no other character
      subst empty
      have ended : rest' = [] := by
        cases rest' with
        | nil => rfl
        | cons c rest' =>
          have isSeparator := stops c rfl
          have notSeparator := ends c rfl
          simp only [decide_eq_false_iff_not, not_not] at isSeparator notSeparator
          exact absurd notSeparator isSeparator
      subst ended
      rw [List.append_nil, strtok, List.append_nil, List.dropWhile_eq_nil_iff.mpr skips] at found
      cases found
    · rw [strtok_field skips' empty field' ends] at found
      cases found
      exact .cons skips' empty field' ends more

/-! ## Lines -/

/-- `fgets`: the characters up to a newline or the end of the buffer, and what is behind them. -/
def fgets (size : ℕ) (file : List Char) : Option (List Char × List Char) :=
  if file = [] then none
  else
    let line := (file.take (size - 1)).takeWhile (· ≠ '\n')
    let length := if line.length < size - 1 then line.length + 1 else line.length
    some (file.take length, file.drop length)

/-- The lines of a file, each as `fgets` stores it. -/
def readLines (size : ℕ) : ℕ → List Char → List (List Char)
  | 0, _ => []
  | fuel + 1, file =>
    match fgets size file with
    | none => []
    | some (line, rest) => line :: readLines size fuel rest

/-- A file and its pieces: lines that fit the buffer, pieces of longer lines that fill it, and a last line
without a newline. -/
inductive Lines (size : ℕ) : List Char → List (List Char) → Prop
  | nil : Lines size [] []
  | line {w rest : List Char} {lines : List (List Char)} (line : ∀ c ∈ w, c ≠ '\n') (fits : w.length + 1 < size)
      (more : Lines size rest lines) : Lines size (w ++ '\n' :: rest) ((w ++ ['\n']) :: lines)
  | piece {w rest : List Char} {lines : List (List Char)} (line : ∀ c ∈ w, c ≠ '\n') (fills : w.length + 1 = size)
      (more : Lines size rest lines) : Lines size (w ++ rest) (w :: lines)
  | last {w : List Char} (nonempty : w ≠ []) (line : ∀ c ∈ w, c ≠ '\n') (short : w.length + 1 < size) :
      Lines size w [w]

theorem fgets_line (line : ∀ c ∈ w, c ≠ '\n') (fits : w.length + 1 < size) :
    fgets size (w ++ '\n' :: rest) = some (w ++ ['\n'], rest) := by
  have nonempty : w ++ '\n' :: rest ≠ [] := List.append_ne_nil_of_right_ne_nil w (List.cons_ne_nil _ _)
  have all : ∀ c ∈ w, decide (c ≠ '\n') = true := fun c member => decide_eq_true (line c member)
  have taken : ((w ++ '\n' :: rest).take (size - 1)).takeWhile (· ≠ '\n') = w := by
    rw [List.take_append, List.take_of_length_le (by omega)]
    obtain ⟨k, isSucc⟩ : ∃ k, size - 1 - w.length = k + 1 := ⟨size - 1 - w.length - 1, by omega⟩
    rw [isSucc, List.take_succ_cons]
    exact takeWhile_span all (stops_cons rfl)
  have split : w ++ '\n' :: rest = (w ++ ['\n']) ++ rest := by rw [List.append_assoc, List.singleton_append]
  have length : w.length + 1 = (w ++ ['\n']).length := by rw [List.length_append, List.length_singleton]
  rw [fgets, if_neg nonempty]
  dsimp only
  rw [taken, if_pos (by omega), split, length, List.take_left, List.drop_left]

theorem fgets_piece (positive : 1 < size) (line : ∀ c ∈ w, c ≠ '\n') (fills : w.length + 1 = size) :
    fgets size (w ++ rest) = some (w, rest) := by
  have all : ∀ c ∈ w, decide (c ≠ '\n') = true := fun c member => decide_eq_true (line c member)
  have nonempty : w ++ rest ≠ [] := by
    apply List.append_ne_nil_of_left_ne_nil
    rw [← List.length_pos_iff]
    omega
  have length : size - 1 = w.length := by omega
  have taken : ((w ++ rest).take (size - 1)).takeWhile (· ≠ '\n') = w := by
    rw [length, List.take_left]
    exact List.takeWhile_eq_self_iff.mpr all
  rw [fgets, if_neg nonempty]
  dsimp only
  rw [taken, if_neg (by omega), List.take_left, List.drop_left]

theorem fgets_last (nonempty : w ≠ []) (line : ∀ c ∈ w, c ≠ '\n') (short : w.length + 1 < size) :
    fgets size w = some (w, []) := by
  have all : ∀ c ∈ w, decide (c ≠ '\n') = true := fun c member => decide_eq_true (line c member)
  have taken : (w.take (size - 1)).takeWhile (· ≠ '\n') = w := by
    rw [List.take_of_length_le (by omega)]
    exact List.takeWhile_eq_self_iff.mpr all
  rw [fgets, if_neg nonempty]
  dsimp only
  rw [taken, if_pos (by omega), List.take_of_length_le (Nat.le_succ _), List.drop_of_length_le (Nat.le_succ _)]

theorem fgets_shorter {line : List Char} (positive : 1 < size) (read : fgets size text = some (line, rest)) :
    rest.length < text.length := by
  rw [fgets] at read
  split at read
  · cases read
  · next nonempty =>
    have some := List.length_pos_iff.mpr nonempty
    have same := (Prod.mk.inj (Option.some.inj read)).2
    rw [← same, List.length_drop]
    split <;> omega

/-- More than a line for each character is never read. -/
theorem readLines_fuel (positive : 1 < size) {fuel : ℕ} (enough : text.length ≤ fuel) :
    readLines size fuel text = readLines size text.length text := by
  induction fuel using Nat.strongRecOn generalizing text with
  | ind fuel ih =>
    cases fuel with
    | zero => rw [Nat.le_zero.mp enough]
    | succ fuel =>
      cases here : text with
      | nil => rfl
      | cons c rest =>
        rw [← here]
        have length : text.length = rest.length + 1 := by rw [here, List.length_cons]
        rw [length, readLines, readLines]
        cases read : fgets size text with
        | none => rfl
        | some pair =>
          obtain ⟨line, behind⟩ := pair
          have shorter := fgets_shorter positive read
          dsimp only
          rw [ih fuel (Nat.lt_succ_self fuel) (by omega)]
          congr 1
          exact (ih rest.length (by omega) (by omega)).symm

theorem readLines_cons {line : List Char} (positive : 1 < size) (read : fgets size text = some (line, rest)) :
    readLines size text.length text = line :: readLines size rest.length rest := by
  have shorter := fgets_shorter positive read
  obtain ⟨k, isSucc⟩ : ∃ k, text.length = k + 1 := ⟨text.length - 1, by omega⟩
  rw [isSucc, readLines, read]
  dsimp only
  rw [readLines_fuel positive (by omega)]

theorem Lines.read {lines : List (List Char)} (positive : 1 < size) (cut : Lines size text lines) :
    readLines size text.length text = lines := by
  induction cut with
  | nil => rfl
  | line line fits more ih => rw [readLines_cons positive (fgets_line line fits), ih]
  | piece line fills more ih => rw [readLines_cons positive (fgets_piece positive line fills), ih]
  | last nonempty line short =>
    rw [readLines_cons positive (fgets_last nonempty line short)]
    rfl

theorem exists_lines (positive : 1 < size) (text : List Char) : ∃ lines, Lines size text lines := by
  induction length : text.length using Nat.strongRecOn generalizing text with
  | ind length' ih =>
    by_cases empty : text = []
    · exact ⟨[], empty ▸ .nil⟩
    have some := List.length_pos_iff.mpr empty
    obtain ⟨w, rest, rfl, all, stops⟩ := exists_span (· ≠ '\n') text
    have line : ∀ c ∈ w, c ≠ '\n' := fun c member => of_decide_eq_true (all c member)
    rw [List.length_append] at length some
    by_cases fits : w.length + 1 < size
    · cases rest with
      | nil =>
        rw [List.append_nil] at empty ⊢
        exact ⟨[w], .last empty line fits⟩
      | cons c rest =>
        have newline := stops c rfl
        simp only [decide_eq_false_iff_not, not_not] at newline
        subst newline
        obtain ⟨lines, cut⟩ := ih rest.length (by rw [List.length_cons] at length; omega) rest rfl
        exact ⟨(w ++ ['\n']) :: lines, .line line fits cut⟩
    · -- the buffer is full in front of the newline
      have split : w ++ rest = w.take (size - 1) ++ (w.drop (size - 1) ++ rest) := by
        rw [← List.append_assoc, List.take_append_drop]
      obtain ⟨lines, cut⟩ := ih (w.drop (size - 1) ++ rest).length
        (by rw [List.length_append, List.length_drop]; omega) _ rfl
      rw [split]
      refine ⟨w.take (size - 1) :: lines, .piece (fun c member => line c (List.mem_of_mem_take member)) ?_ cut⟩
      rw [List.length_take]
      omega

/-- The pieces of a file are those that `fgets` reads. -/
theorem lines_iff {lines : List (List Char)} (positive : 1 < size) :
    Lines size text lines ↔ readLines size text.length text = lines := by
  refine ⟨Lines.read positive, ?_⟩
  rintro rfl
  obtain ⟨lines, cut⟩ := exists_lines positive text
  rwa [cut.read positive]

/-- Lines that are all read, one by one. -/
theorem mapM_eq_some_iff {α β : Type} {f : α → Option β} {as : List α} {bs : List β} :
    as.mapM f = some bs ↔ List.Forall₂ (fun a b => f a = some b) as bs := by
  induction as generalizing bs with
  | nil => rw [List.forall₂_nil_left_iff, List.mapM_nil, Option.pure_def, Option.some.injEq, eq_comm]
  | cons a as ih =>
    rw [List.forall₂_cons_left_iff, List.mapM_cons]
    simp only [Option.bind_eq_bind, Option.bind_eq_some_iff, Option.pure_def, Option.some.injEq, ih]
    constructor
    · rintro ⟨b, first, bs, rest, rfl⟩
      exact ⟨b, bs, first, rest, rfl⟩
    · rintro ⟨b, bs, first, rest, rfl⟩
      exact ⟨b, first, bs, rest, rfl⟩

end CStrings
