import OsLabs.Proofs.Funcptr.Rows

/-! # Which process files are parsed safely

The loop of `parse_file` goes on until `fscanf` meets the end of the file, whatever `fscanf` makes of
the text in between. It is safe on the files whose text behind the header is at most `P_SIZE` rows. A
character that fits nowhere keeps the loop going for ever, and a further row is stored behind the array.
-/

namespace OsLabs.Funcptr

open ScanFormat ScanFormat.Stream ParseFile

variable {locals malloc : ℕ → Process} {content text rest : List Char} {p : ParseFile} {c : Char} {n : ℕ}

/-- `parse_file` ends, and writes no entry outside of its array. -/
structure Safe (locals malloc : ℕ → Process) (content : List Char) : Prop where
  ends : ∃ n, (parseFile locals malloc content n).f.eof = true
  inside : ∀ n, ∀ i ∈ (parseFile locals malloc content n).stores, i < pSize

/-! ## One iteration -/

theorem step_ended (ended : p.f.eof = true) : step locals p = p := if_pos ended

/-- The entries written are those in front of the next one. -/
def Stored (p : ParseFile) : Prop := ∀ i, i ∈ p.stores ↔ i < p.s

/-- An iteration at a text. -/
structure Goes (p p' : ParseFile) (text : List Char) : Prop where
  f : p'.f = (fscanf (fields 2) ⟨text, false⟩).1
  s : p'.s = p.s + 1
  stores : p'.stores = p.s :: p.stores

theorem step_goes (locals : ℕ → Process) (at_ : p.f = ⟨text, false⟩) : Goes p (step locals p) text := by
  have goes : step locals p = _ := if_neg (by rw [at_]; exact Bool.false_ne_true)
  rw [goes]
  exact ⟨by rw [at_, rowFormat_eq], rfl, rfl⟩

theorem Stored.next (stored : Stored p) (locals : ℕ → Process) : Stored (step locals p) := by
  cases ended : p.f.eof with
  | true =>
    rw [step_ended ended]
    exact stored
  | false =>
    obtain ⟨-, s, stores⟩ := step_goes locals (show p.f = ⟨p.f.rest, false⟩ from ended ▸ rfl)
    intro i
    rw [s, stores, List.mem_cons, stored i]
    omega

theorem le_step (locals : ℕ → Process) (p : ParseFile) : p.s ≤ (step locals p).s := by
  cases ended : p.f.eof with
  | true => exact Nat.le_of_eq (congrArg ParseFile.s (step_ended ended)).symm
  | false =>
    obtain ⟨-, s, -⟩ := step_goes locals (show p.f = ⟨p.f.rest, false⟩ from ended ▸ rfl)
    omega

/-! ## The loop -/

theorem iterate_ended (ended : p.f.eof = true) (n : ℕ) : (step locals)^[n] p = p :=
  Function.iterate_fixed (step_ended ended) n

theorem Stored.iterate (stored : Stored p) (n : ℕ) : Stored ((step locals)^[n] p) := by
  induction n generalizing p with
  | zero => exact stored
  | succ n ih => exact ih (stored.next locals)

theorem le_iterate (locals : ℕ → Process) (p : ParseFile) (n : ℕ) : p.s ≤ ((step locals)^[n] p).s := by
  induction n generalizing p with
  | zero => exact Nat.le_refl _
  | succ n ih => exact Nat.le_trans (le_step locals p) (ih (step locals p))

/-- Rows are parsed one by one. -/
theorem rows_parsed (rows : Rows n text) (at_ : p.f = ⟨text, false⟩) :
    ((step locals)^[n] p).f.eof = true ∧ ((step locals)^[n] p).s = p.s + n := by
  induction rows generalizing p with
  | @last row isRow =>
    obtain ⟨f, s, -⟩ := step_goes locals at_
    have taken := fscanf_row isRow false
    rw [List.append_nil] at taken
    rw [taken] at f
    exact ⟨congrArg Stream.eof f, s⟩
  | @more n row rest c isRow rows ih =>
    obtain ⟨f, s, -⟩ := step_goes locals at_
    rw [fscanf_row isRow false] at f
    obtain ⟨ended, last⟩ := ih f
    refine ⟨ended, last.trans ?_⟩
    omega

theorem iterate_stuck (other : starts c = false) (at_ : p.f = ⟨c :: rest, false⟩) (n : ℕ) :
    ((step locals)^[n] p).f.eof = false := by
  induction n generalizing p with
  | zero => exact congrArg Stream.eof at_
  | succ n ih =>
    obtain ⟨f, -⟩ := step_goes locals at_
    rw [fscanf_stuck other] at f
    exact ih f

/-- A loop that ends has parsed rows. -/
theorem rows_of_ended (at_ : p.f = ⟨text, false⟩) (ended : ((step locals)^[n] p).f.eof = true) :
    ∃ k, Rows k text ∧ ((step locals)^[n] p).s = p.s + k := by
  induction n generalizing p text with
  | zero => cases (congrArg Stream.eof at_).symm.trans ended
  | succ n ih =>
    obtain ⟨f, s, -⟩ := step_goes locals at_
    rw [Function.iterate_succ_apply] at ended ⊢
    rcases exists_row 2 text false with ⟨row, rest, rfl, isRow⟩ | ⟨c, rest, other, stuck⟩
    · rw [fscanf_row isRow] at f
      cases rest with
      | nil =>
        have done : (step locals p).f.eof = true := congrArg Stream.eof f
        refine ⟨1, ?_, ?_⟩
        · rw [List.append_nil]
          exact .last isRow
        · rw [iterate_ended done]
          exact s
      | cons c rest =>
        obtain ⟨k, rows, last⟩ := ih f ended
        refine ⟨k + 1, .more isRow rows, last.trans ?_⟩
        omega
    · rw [stuck] at f
      cases (iterate_stuck other f n).symm.trans ended

/-! ## The file -/

theorem skipLine_noNewline (single : '\n' ∉ content) : skipLine ⟨content, false⟩ = ⟨[], true⟩ := by
  have dropped : (content ++ []).dropWhile (· ≠ '\n') = [] := by
    apply dropWhile_span _ (stops_nil _)
    intro c mem
    exact decide_eq_true fun newline => single (newline ▸ mem)
  rw [List.append_nil] at dropped
  simp only [skipLine, dropped, behind_nil]

theorem skipLine_header {header : List Char} (single : '\n' ∉ header) :
    skipLine ⟨header ++ '\n' :: text, false⟩ = ⟨text, false⟩ := by
  have dropped : (header ++ '\n' :: text).dropWhile (· ≠ '\n') = '\n' :: text := by
    apply dropWhile_span _ (stops_cons rfl)
    intro c mem
    exact decide_eq_true fun newline => single (newline ▸ mem)
  simp only [skipLine, dropped]

theorem stored_start (malloc : ℕ → Process) (content : List Char) : Stored (start malloc content) :=
  fun i => iff_of_false List.not_mem_nil (Nat.not_lt_zero i)

theorem safe_of_ended (ended : (parseFile locals malloc content n).f.eof = true)
    (few : (parseFile locals malloc content n).s ≤ pSize) : Safe locals malloc content := by
  refine ⟨⟨n, ended⟩, ?_⟩
  intro m i mem
  have before := ((stored_start malloc content).iterate m i).mp mem
  have later : (parseFile locals malloc content (n + m)).s = (parseFile locals malloc content n).s := by
    rw [parseFile, Nat.add_comm, Function.iterate_add_apply]
    exact congrArg ParseFile.s (iterate_ended ended m)
  have grows := le_iterate locals ((step locals)^[m] (start malloc content)) n
  rw [← Function.iterate_add_apply] at grows
  change _ ≤ (parseFile locals malloc content (n + m)).s at grows
  omega

theorem Safe.le (safe : Safe locals malloc content) (n : ℕ) : (parseFile locals malloc content n).s ≤ pSize := by
  by_contra more
  have written := ((stored_start malloc content).iterate n pSize).mpr (Nat.lt_of_not_le more)
  exact absurd (safe.inside n pSize written) (Nat.lt_irrefl _)

/-- `parse_file` is safe on the files without a second line and on those with at most `P_SIZE` rows. -/
theorem parse_file_safe_iff (locals malloc : ℕ → Process) (content : List Char) : Safe locals malloc content ↔
    '\n' ∉ content ∨ ∃ header text rows, content = header ++ '\n' :: text ∧ '\n' ∉ header ∧
      rows ≤ pSize ∧ Rows rows text := by
  constructor
  · intro safe
    obtain ⟨header, behind, rfl, single, stops⟩ := exists_span (· ≠ '\n') content
    have noNewline : '\n' ∉ header := fun mem => absurd rfl (of_decide_eq_true (single '\n' mem))
    cases behind with
    | nil =>
      rw [List.append_nil]
      exact .inl noNewline
    | cons d text =>
      obtain rfl : d = '\n' := by simpa using stops d rfl
      right
      obtain ⟨n, ended⟩ := safe.ends
      obtain ⟨rows, isRows, last⟩ := rows_of_ended (skipLine_header noNewline) ended
      have few := safe.le n
      refine ⟨header, text, rows, rfl, noNewline, ?_, isRows⟩
      change _ = 0 + rows at last
      change _ ≤ pSize at few
      rw [parseFile, last] at few
      omega
  · rintro (single | ⟨header, text, rows, rfl, single, few, isRows⟩)
    · have ended : (parseFile locals malloc content 0).f.eof = true :=
        congrArg Stream.eof (skipLine_noNewline single)
      exact safe_of_ended ended (Nat.zero_le _)
    · have begins : (start malloc (header ++ '\n' :: text)).f = ⟨text, false⟩ := skipLine_header single
      obtain ⟨ended, last⟩ : ((step locals)^[rows] (start malloc _)).f.eof = true ∧ _ := rows_parsed isRows begins
      apply safe_of_ended ended
      change _ = 0 + rows at last
      rw [parseFile, last]
      omega

/-- A word in place of a number keeps the loop going for ever; an eighth row is stored behind the array. -/
theorem parse_file_unsafe : ¬ Safe (fun _ => ⟨0, 0, 0⟩) (fun _ => ⟨0, 0, 0⟩) "pid\nx".toList ∧
    ¬ Safe (fun _ => ⟨0, 0, 0⟩) (fun _ => ⟨0, 0, 0⟩)
      "pid\n1,2,3\n1,2,3\n1,2,3\n1,2,3\n1,2,3\n1,2,3\n1,2,3\n1,2,3\n".toList := by
  constructor
  · intro safe
    obtain ⟨n, ended⟩ := safe.ends
    have other : starts 'x' = false := rfl
    have begins : (start (fun _ => ⟨0, 0, 0⟩) "pid\nx".toList).f = ⟨['x'], false⟩ := rfl
    cases (iterate_stuck other begins n).symm.trans ended
  · intro safe
    have behind : pSize ∈ (parseFile (fun _ => ⟨0, 0, 0⟩) (fun _ => ⟨0, 0, 0⟩)
        "pid\n1,2,3\n1,2,3\n1,2,3\n1,2,3\n1,2,3\n1,2,3\n1,2,3\n1,2,3\n".toList 8).stores := by decide
    exact absurd (safe.inside 8 pSize behind) (Nat.lt_irrefl _)

end OsLabs.Funcptr
