import Mathlib.Algebra.Group.Int.Defs
import Mathlib.Algebra.Group.Nat.Defs
import Mathlib.Data.List.Basic

/-! # Formatted input

`fscanf` for the directives `%d`, a literal character and white space, on a stream that notes when
its end has been met. A directive that fails leaves the first character that does not fit; a sign
without a number is gone. What a text is to `%d` is said here without the stream: a numeral after
white space, white space alone, a lone sign, or a character that no number starts with.
-/

namespace ScanFormat

/-! ## Characters -/

def isSpace (c : Char) : Bool := c ∈ [' ', '\t', '\n', Char.ofNat 11, Char.ofNat 12, '\r']

def isSign (c : Char) : Bool := c = '-' ∨ c = '+'

/-- A number may start here. -/
def starts (c : Char) : Bool := isSpace c || isSign c || c.isDigit

theorem not_isSpace_of_isSign {c : Char} (sign : isSign c = true) : isSpace c = false := by
  simp only [isSign, decide_eq_true_eq] at sign
  rcases sign with rfl | rfl <;> rfl

theorem not_isSpace_of_isDigit {c : Char} (digit : c.isDigit = true) : isSpace c = false := by
  simp only [isSpace, decide_eq_false_iff_not, List.mem_cons, List.not_mem_nil, or_false]
  rintro (rfl | rfl | rfl | rfl | rfl | rfl) <;> cases digit

theorem not_isSign_of_isDigit {c : Char} (digit : c.isDigit = true) : isSign c = false := by
  simp only [isSign, decide_eq_false_iff_not]
  rintro (rfl | rfl) <;> cases digit

/-- The text does not go on with such a character. -/
def Stops (p : Char → Bool) (rest : List Char) : Prop := ∀ c ∈ rest.head?, p c = false

section Spans

variable {p : Char → Bool} {w rest : List Char} {c : Char}

theorem stops_nil (p : Char → Bool) : Stops p [] := fun _ none => absurd none (Option.not_mem_none _)

theorem stops_cons (stop : p c = false) : Stops p (c :: rest) := by
  intro d head
  cases head
  exact stop

theorem takeWhile_span (all : ∀ c ∈ w, p c = true) (stops : Stops p rest) : (w ++ rest).takeWhile p = w := by
  rw [List.takeWhile_append_of_pos all]
  cases rest with
  | nil => exact List.append_nil w
  | cons c rest => rw [List.takeWhile_cons_of_neg (by rw [stops c rfl]; exact Bool.false_ne_true), List.append_nil]

theorem dropWhile_span (all : ∀ c ∈ w, p c = true) (stops : Stops p rest) : (w ++ rest).dropWhile p = rest := by
  rw [List.dropWhile_append_of_pos all]
  cases rest with
  | nil => rfl
  | cons c rest => rw [List.dropWhile_cons_of_neg (by rw [stops c rfl]; exact Bool.false_ne_true)]

theorem exists_span (p : Char → Bool) (text : List Char) :
    ∃ w rest, text = w ++ rest ∧ (∀ c ∈ w, p c = true) ∧ Stops p rest := by
  induction text with
  | nil => exact ⟨[], [], rfl, List.forall_mem_nil _, stops_nil p⟩
  | cons c text ih =>
    cases here : p c with
    | false => exact ⟨[], c :: text, rfl, List.forall_mem_nil _, stops_cons here⟩
    | true =>
      obtain ⟨w, rest, rfl, all, stops⟩ := ih
      exact ⟨c :: w, rest, rfl, List.forall_mem_cons.mpr ⟨here, all⟩, stops⟩

end Spans

/-! ## Numbers -/

def Blank (w : List Char) : Prop := ∀ c ∈ w, isSpace c = true

structure Digits (w : List Char) : Prop where
  nonempty : w ≠ []
  all : ∀ c ∈ w, c.isDigit = true

def digitsValue (digits : List Char) : ℕ :=
  digits.foldl (fun value c => value * 10 + (c.toNat - '0'.toNat)) 0

/-- Decimal digits with or without a sign, and the number they spell. -/
inductive Numeral : List Char → ℤ → Prop
  | unsigned {w : List Char} (digits : Digits w) : Numeral w (digitsValue w)
  | plus {w : List Char} (digits : Digits w) : Numeral ('+' :: w) (digitsValue w)
  | minus {w : List Char} (digits : Digits w) : Numeral ('-' :: w) (-digitsValue w)

/-- What `%d` takes for a number. -/
inductive Number : List Char → ℤ → Prop
  | mk {w text : List Char} {n : ℤ} (blank : Blank w) (numeral : Numeral text n) : Number (w ++ text) n

/-- A number that is read as a `long` and stored as an `int`. -/
def storeInt (n : ℤ) : ℤ := (max (-2 ^ 63) (min (2 ^ 63 - 1) n)).bmod (2 ^ 32)

/-- What a text is to `%d`. -/
inductive Leading : List Char → Prop
  | number {w rest : List Char} {n : ℤ} (number : Number w n) (stops : Stops Char.isDigit rest) : Leading (w ++ rest)
  | blank {w : List Char} (blank : Blank w) : Leading w
  | sign {w rest : List Char} {s : Char} (blank : Blank w) (sign : isSign s = true) (stops : Stops Char.isDigit rest) :
      Leading (w ++ s :: rest)
  | other {w rest : List Char} {c : Char} (blank : Blank w) (other : starts c = false) : Leading (w ++ c :: rest)

theorem leading (text : List Char) : Leading text := by
  obtain ⟨w, rest, rfl, blank, stops⟩ := exists_span isSpace text
  cases rest with
  | nil => exact (List.append_nil w).symm ▸ .blank blank
  | cons s rest =>
    have notSpace : isSpace s = false := stops s rfl
    obtain ⟨digits, behind, rfl, all, stopsDigit⟩ := exists_span Char.isDigit rest
    cases sign : isSign s with
    | true =>
      cases digits with
      | nil => exact .sign blank sign stopsDigit
      | cons d digits =>
        have isDigits : Digits (d :: digits) := ⟨List.cons_ne_nil _ _, all⟩
        obtain ⟨n, numeral⟩ : ∃ n, Numeral (s :: d :: digits) n := by
          simp only [isSign, decide_eq_true_eq] at sign
          rcases sign with rfl | rfl
          · exact ⟨_, .minus isDigits⟩
          · exact ⟨_, .plus isDigits⟩
        have taken := Leading.number (.mk blank numeral) stopsDigit
        rwa [List.append_assoc] at taken
    | false =>
      cases digit : s.isDigit with
      | true =>
        have isDigits : Digits (s :: digits) := ⟨List.cons_ne_nil _ _, List.forall_mem_cons.mpr ⟨digit, all⟩⟩
        have taken := Leading.number (.mk blank (.unsigned isDigits)) stopsDigit
        rwa [List.append_assoc] at taken
      | false =>
        apply Leading.other blank
        rw [starts, notSpace, sign, digit]
        rfl

/-! ## Streams -/

structure Stream where
  rest : List Char
  eof : Bool
deriving DecidableEq, Repr

namespace Stream

/-- The stream after everything in front of `rest` is read, and the first character behind it read and
put back, or the end met. -/
def behind (f : Stream) (rest : List Char) : Stream := ⟨rest, f.eof || rest.isEmpty⟩

def skipSpace (f : Stream) : Stream := f.behind (f.rest.dropWhile isSpace)

def takeSign : List Char → Bool × List Char
  | [] => (false, [])
  | c :: rest => if c = '-' then (true, rest) else if c = '+' then (false, rest) else (false, c :: rest)

/-- `%d`. -/
def scanInt (f : Stream) : Stream × Option ℤ :=
  let f := f.skipSpace
  let (negative, text) := takeSign f.rest
  let digits := text.takeWhile Char.isDigit
  let value : ℤ := if negative then -digitsValue digits else digitsValue digits
  (f.behind (text.dropWhile Char.isDigit), if digits = [] then none else some (storeInt value))

/-- A character that stands for itself. -/
def scanLiteral (c : Char) (f : Stream) : Stream × Bool :=
  match f.rest with
  | [] => (f.behind [], false)
  | d :: rest => if d = c then ({ f with rest }, true) else (f, false)

/-- `getline`: everything up to the first newline. -/
def skipLine (f : Stream) : Stream :=
  match f.rest.dropWhile (· ≠ '\n') with
  | [] => f.behind []
  | _ :: rest => { f with rest }

end Stream

/-- The directives of a format. -/
inductive Directive where
  | int
  | literal (c : Char)
  | space
deriving DecidableEq, Repr

/-- `fscanf`, with the numbers that it stores. -/
def fscanf : List Directive → Stream → Stream × List ℤ
  | [], f => (f, [])
  | .int :: format, f =>
    match f.scanInt with
    | (f, none) => (f, [])
    | (f, some n) => ((fscanf format f).1, n :: (fscanf format f).2)
  | .literal c :: format, f =>
    match f.scanLiteral c with
    | (f, false) => (f, [])
    | (f, true) => fscanf format f
  | .space :: format, f => fscanf format f.skipSpace

/-! ## What the directives take -/

namespace Stream

variable {w rest text : List Char} {c s : Char} {n : ℤ} {eof : Bool}

@[simp] theorem behind_nil (f : Stream) : f.behind [] = ⟨[], true⟩ := by
  rw [behind, List.isEmpty_nil, Bool.or_true]

@[simp] theorem behind_cons (f : Stream) (c : Char) (rest : List Char) : f.behind (c :: rest) = ⟨c :: rest, f.eof⟩ := by
  rw [behind, List.isEmpty_cons, Bool.or_false]

theorem skipSpace_span (blank : Blank w) (stops : Stops isSpace rest) (eof : Bool) :
    skipSpace ⟨w ++ rest, eof⟩ = behind ⟨w ++ rest, eof⟩ rest := by
  rw [skipSpace, dropWhile_span blank stops]

theorem skipSpace_blank (blank : Blank w) (eof : Bool) : skipSpace ⟨w, eof⟩ = ⟨[], true⟩ := by
  have skipped := skipSpace_span blank (stops_nil isSpace) eof
  rw [List.append_nil, behind_nil] at skipped
  exact skipped

theorem takeSign_of_isSign (sign : isSign s = true) : (takeSign (s :: rest)).2 = rest := by
  simp only [isSign, decide_eq_true_eq] at sign
  rcases sign with rfl | rfl <;> rfl

theorem takeSign_of_not (sign : isSign c = false) (rest : List Char) : takeSign (c :: rest) = (false, c :: rest) := by
  simp only [isSign, decide_eq_false_iff_not, not_or] at sign
  rw [takeSign, if_neg sign.1, if_neg sign.2]

/-- `%d` behind white space: the sign, the digits and the rest. -/
theorem scanInt_eq {digits rest' : List Char} (blank : Blank w) (visible : isSpace c = false)
    (split : (takeSign (c :: rest)).2 = digits ++ rest') (all : ∀ d ∈ digits, d.isDigit = true)
    (stops : Stops Char.isDigit rest') (eof : Bool) :
    scanInt ⟨w ++ c :: rest, eof⟩ = (behind ⟨c :: rest, eof⟩ rest', if digits = [] then none else
      some (storeInt (if (takeSign (c :: rest)).1 then -digitsValue digits else digitsValue digits))) := by
  have skipped : skipSpace ⟨w ++ c :: rest, eof⟩ = ⟨c :: rest, eof⟩ := by
    rw [skipSpace_span blank (stops_cons visible), behind_cons]
  simp only [scanInt, skipped, split, takeWhile_span all stops, dropWhile_span all stops]

theorem scanInt_number (number : Number w n) (stops : Stops Char.isDigit rest) (eof : Bool) :
    scanInt ⟨w ++ rest, eof⟩ = (behind ⟨w ++ rest, eof⟩ rest, some (storeInt n)) := by
  cases number with
  | @mk w text n blank numeral =>
    rw [List.append_assoc]
    cases numeral with
    | unsigned digits =>
      obtain ⟨d, digits', rfl⟩ := List.exists_cons_of_ne_nil digits.nonempty
      have digit := digits.all d List.mem_cons_self
      have noSign := takeSign_of_not (not_isSign_of_isDigit digit) (digits' ++ rest)
      rw [List.cons_append, scanInt_eq blank (not_isSpace_of_isDigit digit) (by rw [noSign]; rfl) digits.all stops,
        if_neg digits.nonempty, noSign]
      rfl
    | plus digits =>
      rw [List.cons_append, scanInt_eq blank rfl rfl digits.all stops, if_neg digits.nonempty]
      rfl
    | minus digits =>
      rw [List.cons_append, scanInt_eq blank rfl rfl digits.all stops, if_neg digits.nonempty]
      rfl

theorem scanInt_blank (blank : Blank w) (eof : Bool) : scanInt ⟨w, eof⟩ = (⟨[], true⟩, none) := by
  rw [scanInt, skipSpace_blank blank]
  rfl

theorem scanInt_sign (blank : Blank w) (sign : isSign s = true) (stops : Stops Char.isDigit rest) (eof : Bool) :
    scanInt ⟨w ++ s :: rest, eof⟩ = (behind ⟨w ++ s :: rest, eof⟩ rest, none) := by
  have split : (takeSign (s :: rest)).2 = [] ++ rest := takeSign_of_isSign sign
  exact scanInt_eq blank (not_isSpace_of_isSign sign) split (List.forall_mem_nil _) stops eof

theorem scanInt_other (blank : Blank w) (other : starts c = false) (eof : Bool) :
    scanInt ⟨w ++ c :: rest, eof⟩ = (⟨c :: rest, eof⟩, none) := by
  simp only [starts, Bool.or_eq_false_iff] at other
  have noSign := takeSign_of_not other.1.2 rest
  have split : (takeSign (c :: rest)).2 = [] ++ c :: rest := by
    rw [noSign]
    rfl
  have scanned := scanInt_eq blank other.1.1 split (List.forall_mem_nil _) (stops_cons other.2) eof
  rw [behind_cons] at scanned
  exact scanned

theorem scanLiteral_self (c : Char) (rest : List Char) (eof : Bool) :
    scanLiteral c ⟨c :: rest, eof⟩ = (⟨rest, eof⟩, true) := if_pos rfl

theorem scanLiteral_stops (stops : Stops (· = c) rest) (eof : Bool) :
    scanLiteral c ⟨rest, eof⟩ = (behind ⟨rest, eof⟩ rest, false) := by
  cases rest with
  | nil => rfl
  | cons d rest =>
    rw [behind_cons]
    exact if_neg (of_decide_eq_false (stops d rfl))

end Stream

end ScanFormat
