import OsLabs.Model.Funcptr.ParseFile

/-! # Rows

The text that one call of `fscanf` takes: numbers behind commas, cut short in front of the first
character that does not fit. A call either takes a row or stops at a character that no later call
gets over.
-/

namespace OsLabs.Funcptr

open ScanFormat ScanFormat.Stream

/-- The format for a number and so many more behind commas. -/
def fields : ℕ → List Directive
  | 0 => [.int, .space]
  | commas + 1 => .int :: .literal ',' :: fields commas

theorem rowFormat_eq : rowFormat = fields 2 := rfl

/-- A row with at most so many commas, and the text behind it. -/
inductive Row : ℕ → List Char → List Char → Prop
  | blank {commas : ℕ} {w : List Char} (blank : Blank w) : Row commas w []
  | sign {commas : ℕ} {w rest : List Char} {s : Char} (blank : Blank w) (sign : isSign s = true)
      (stops : Stops Char.isDigit rest) : Row commas (w ++ [s]) rest
  | short {commas : ℕ} {w rest : List Char} {n : ℤ} (number : Number w n) (stops : Stops Char.isDigit rest)
      (noComma : Stops (· = ',') rest) : Row (commas + 1) w rest
  | full {w blanks rest : List Char} {n : ℤ} (number : Number w n) (blank : Blank blanks)
      (ends : Stops Char.isDigit (blanks ++ rest)) (stops : Stops isSpace rest) : Row 0 (w ++ blanks) rest
  | comma {commas : ℕ} {w row rest : List Char} {n : ℤ} (number : Number w n) (isRow : Row commas row rest) :
      Row (commas + 1) (w ++ ',' :: row) rest

/-- A text of so many rows; the last one reaches its end. -/
inductive Rows : ℕ → List Char → Prop
  | last {row : List Char} (isRow : Row 2 row []) : Rows 1 row
  | more {n : ℕ} {row rest : List Char} {c : Char} (isRow : Row 2 row (c :: rest)) (rows : Rows n (c :: rest)) :
      Rows (n + 1) (row ++ c :: rest)

variable {commas : ℕ} {row rest text : List Char} {c : Char}

/-- `fscanf` takes a row. -/
theorem fscanf_row (isRow : Row commas row rest) (eof : Bool) :
    (fscanf (fields commas) ⟨row ++ rest, eof⟩).1 = ⟨rest, eof || rest.isEmpty⟩ := by
  induction isRow generalizing eof with
  | @blank commas w blank =>
    rw [List.append_nil, List.isEmpty_nil, Bool.or_true]
    cases commas <;> rw [fields, fscanf, scanInt_blank blank]
  | @sign commas w rest s blank sign stops =>
    rw [List.append_assoc, List.singleton_append]
    cases commas <;> rw [fields, fscanf, scanInt_sign blank sign stops, behind]
  | @short commas w rest n number stops noComma =>
    rw [fields, fscanf, scanInt_number number stops, behind]
    simp only [fscanf, scanLiteral_stops noComma, behind, Bool.or_assoc, Bool.or_self]
  | @full w blanks rest n number blank ends stops =>
    rw [List.append_assoc, fields, fscanf, scanInt_number number ends, behind]
    simp only [fscanf, skipSpace_span blank stops, behind]
    cases rest <;> simp
  | @comma commas w row rest n number isRow ih =>
    have stops : Stops Char.isDigit (',' :: (row ++ rest)) := stops_cons rfl
    rw [List.append_assoc, List.cons_append, fields, fscanf, scanInt_number number stops, behind_cons]
    simp only [fscanf, scanLiteral_self, ih]

/-- `fscanf` stays in front of a character that no number starts with. -/
theorem fscanf_stuck (other : starts c = false) (commas : ℕ) (rest : List Char) (eof : Bool) :
    (fscanf (fields commas) ⟨c :: rest, eof⟩).1 = ⟨c :: rest, eof⟩ := by
  have nothing : Blank [] := List.forall_mem_nil _
  have scanned : scanInt ⟨c :: rest, eof⟩ = (⟨c :: rest, eof⟩, none) := scanInt_other nothing other eof
  cases commas <;> rw [fields, fscanf, scanned]

/-- What one call does to a text: it takes a row, or gets stuck. -/
theorem exists_row (commas : ℕ) (text : List Char) (eof : Bool) :
    (∃ row rest, text = row ++ rest ∧ Row commas row rest) ∨
      ∃ c rest, starts c = false ∧ (fscanf (fields commas) ⟨text, eof⟩).1 = ⟨c :: rest, eof⟩ := by
  induction commas using Nat.strongRecOn generalizing text with
  | ind commas ih =>
    cases leading text with
    | @number w rest n number stops =>
      cases commas with
      | zero =>
        obtain ⟨blanks, rest, rfl, blank, noSpace⟩ := exists_span isSpace rest
        exact .inl ⟨w ++ blanks, rest, (List.append_assoc ..).symm, .full number blank stops noSpace⟩
      | succ commas =>
        cases rest with
        | nil => exact .inl ⟨w, [], rfl, .short number stops (stops_nil _)⟩
        | cons d rest =>
          cases comma : decide (d = ',') with
          | false => exact .inl ⟨w, d :: rest, rfl, .short number stops (stops_cons comma)⟩
          | true =>
            obtain rfl := of_decide_eq_true comma
            rcases ih commas (Nat.lt_succ_self commas) rest with ⟨row, rest, rfl, isRow⟩ | ⟨c, rest', other, stuck⟩
            · exact .inl ⟨w ++ ',' :: row, rest, by simp, .comma number isRow⟩
            · refine .inr ⟨c, rest', other, ?_⟩
              rw [fields, fscanf, scanInt_number number stops, behind_cons]
              simp only [fscanf, scanLiteral_self, stuck]
    | blank blank => exact .inl ⟨text, [], (List.append_nil _).symm, .blank blank⟩
    | @sign w rest s blank sign stops =>
      exact .inl ⟨w ++ [s], rest, (List.append_assoc w [s] rest).symm, .sign blank sign stops⟩
    | @other w rest c blank other =>
      refine .inr ⟨c, rest, other, ?_⟩
      cases commas <;> rw [fields, fscanf, scanInt_other blank other]

end OsLabs.Funcptr
