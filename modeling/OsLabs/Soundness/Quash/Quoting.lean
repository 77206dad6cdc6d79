import OsLabs.Proofs.Quash.Quoting
import OsLabs.Proofs.Quash.Spelling

/-! # Where lexer and interpreter agree on quotes

The interpreter leaves a token outside of quotes unless the token closes a quote behind an even,
positive number of backslashes: the lexer sees the quote, the interpreter takes the last of the
backslashes as its escape. After such a quote the two disagree until one more quote without a
backslash.
-/

namespace OsLabs.Quash

variable {runs : List ℕ}

/-- A quote behind an even, positive number of backslashes. -/
def Doubled (k : ℕ) : Prop := 0 < k ∧ Even k

/-- No quote is doubled, or after the last doubled one an odd number of quotes have no backslash. -/
def Balanced (runs : List ℕ) : Prop :=
  (∀ k ∈ runs, ¬ Doubled k) ∨ ∃ front k back, runs = front ++ k :: back ∧ Doubled k ∧
    (∀ k' ∈ back, ¬ Doubled k') ∧ Odd (back.count 0)

instance (k : ℕ) : Decidable (Doubled k) := inferInstanceAs (Decidable (_ ∧ _))

theorem interpreterQuote_of_not_doubled {k : ℕ} (notDoubled : ¬ Doubled k) (inQuotes : Bool) :
    interpreterQuote inQuotes k = patternQuote inQuotes k := by
  rw [interpreterQuote, patternQuote]
  cases k with
  | zero => rw [if_pos rfl, if_pos Even.zero]
  | succ k =>
    have odd : ¬ Even (k + 1) := fun even => notDoubled ⟨Nat.succ_pos k, even⟩
    rw [if_neg k.succ_ne_zero, if_neg odd, if_neg odd]

/-- Without doubled quotes the interpreter follows the pattern. -/
theorem foldl_of_not_doubled (notDoubled : ∀ k ∈ runs, ¬ Doubled k) (inQuotes : Bool) :
    runs.foldl interpreterQuote inQuotes = runs.foldl patternQuote inQuotes := by
  induction runs generalizing inQuotes with
  | nil => rfl
  | cons k runs ih =>
    obtain ⟨here, behind⟩ := List.forall_mem_cons.mp notDoubled
    rw [List.foldl_cons, List.foldl_cons, interpreterQuote_of_not_doubled here, ih behind]

/-- Without doubled quotes the quotes without a backslash decide. -/
theorem foldl_pattern (notDoubled : ∀ k ∈ runs, ¬ Doubled k) (inQuotes : Bool) :
    runs.foldl patternQuote inQuotes = if Odd (runs.count 0) then !inQuotes else inQuotes := by
  induction runs generalizing inQuotes with
  | nil => rfl
  | cons k runs ih =>
    obtain ⟨here, behind⟩ := List.forall_mem_cons.mp notDoubled
    rw [List.foldl_cons, ih behind]
    cases k with
    | zero =>
      rw [List.count_cons_self, patternQuote, if_pos Even.zero]
      split
      · next odd => rw [if_neg (Nat.not_odd_iff_even.mpr odd.add_one), Bool.not_not]
      · next even => rw [if_pos (Nat.not_odd_iff_even.mp even).add_one]
    | succ k =>
      have odd : ¬ Even (k + 1) := fun even => here ⟨Nat.succ_pos k, even⟩
      rw [List.count_cons_of_ne k.succ_ne_zero, patternQuote, if_neg odd]

/-- The last doubled quote of a list that has one. -/
theorem exists_last_doubled (some : ¬ ∀ k ∈ runs, ¬ Doubled k) : ∃ front k back,
    runs = front ++ k :: back ∧ Doubled k ∧ ∀ k' ∈ back, ¬ Doubled k' := by
  induction runs with
  | nil => exact (some nofun).elim
  | cons k runs ih =>
    by_cases behind : ∀ k ∈ runs, ¬ Doubled k
    · refine ⟨[], k, runs, rfl, ?_, behind⟩
      by_contra notDoubled
      exact some (List.forall_mem_cons.mpr ⟨notDoubled, behind⟩)
    · obtain ⟨front, k', back, rfl, doubled, after⟩ := ih behind
      exact ⟨k :: front, k', back, rfl, doubled, after⟩

/-- After a doubled quote, the quotes behind it decide. -/
theorem foldl_doubled {front back : List ℕ} {k : ℕ} (doubled : Doubled k)
    (after : ∀ k' ∈ back, ¬ Doubled k') (inQuotes : Bool) :
    (front ++ k :: back).foldl interpreterQuote inQuotes = false ↔ Odd (back.count 0) := by
  have enters : interpreterQuote (front.foldl interpreterQuote inQuotes) k = true := by
    rw [interpreterQuote, if_neg (Nat.ne_of_gt doubled.1), if_pos doubled.2]
  rw [List.foldl_append, List.foldl_cons, enters, foldl_of_not_doubled after, foldl_pattern after]
  split
  · next odd => exact iff_of_true rfl odd
  · next even => exact iff_of_false (Bool.noConfusion ·) even

theorem interpreter_closes_iff (closes : runs.foldl patternQuote false = false) :
    runs.foldl interpreterQuote false = false ↔ Balanced runs := by
  by_cases none : ∀ k ∈ runs, ¬ Doubled k
  · rw [foldl_of_not_doubled none, closes]
    exact iff_of_true rfl (.inl none)
  · constructor
    · intro outside
      obtain ⟨front, k, back, rfl, doubled, after⟩ := exists_last_doubled none
      exact .inr ⟨front, k, back, rfl, doubled, after, (foldl_doubled doubled after _).mp outside⟩
    · rintro (none' | ⟨front, k, back, rfl, doubled, after, odd⟩)
      · exact (none none').elim
      · exact (foldl_doubled doubled after _).mpr odd

/-- The loop over a token always ends, and the function returns exactly on the balanced ones. -/
theorem string_token_interpreted (lookupEnv : Env) (token : List Char) (isToken : StringToken token) :
    (afterLoop lookupEnv token).isSome = true ∧
      ((interpretComplexStringToken lookupEnv token).isSome = true ↔ Balanced (quoteRuns 0 token)) := by
  obtain ⟨s, ended, built, inQuotes⟩ := afterLoop_spec lookupEnv token
  refine ⟨ended ▸ rfl, ?_⟩
  rw [← interpreter_closes_iff (stringToken_closes isToken Even.zero), ← inQuotes]
  simp only [interpretComplexStringToken, ended, updateBack, if_neg built, Option.bind_eq_bind,
    Option.bind_some]
  cases s.inQuotes with
  | false => exact iff_of_true rfl rfl
  | true => exact iff_of_false Bool.false_ne_true (Bool.noConfusion ·)

theorem string_token_interpreted_escaped :
    let lookupEnv : Env := fun _ => some ['v']
    let token := ['$', 'X', '\'', 'a', ' ', '\\', '\'', '\'', '\\', '\'']
    (afterLoop lookupEnv token).isSome = true ∧
      ((interpretComplexStringToken lookupEnv token).isSome = true ↔ Balanced (quoteRuns 0 token)) := by
  have content : QuotedText ['a', ' ', '\\', '\''] :=
    .char (by decide) (by decide) (by decide) (.char (by decide) (by decide) (by decide)
      (.escape (by decide) .nil))
  have isToken : StringToken (['$'] ++ (['X'] ++ (('\'' :: (['a', ' ', '\\', '\''] ++ ['\''])) ++
      ['\\', '\'']))) :=
    .more (.char (by decide)) (.more (.char (by decide)) (.more (.quoted content)
      (.last (.escape (by decide)))))
  exact string_token_interpreted (fun _ => some ['v']) _ isToken

/-- Two backslashes in quotes are a token, and the interpreter is still in quotes after it. -/
theorem string_token_aborts : ¬ ∀ (lookupEnv : Env) (token : List Char), StringToken token →
    (interpretComplexStringToken lookupEnv token).isSome = true := by
  intro returns
  have content : QuotedText ['\\', '\\'] := .escape (by decide) .nil
  have aborts := returns (fun _ => none) ['\'', '\\', '\\', '\''] (.last (.quoted content))
  exact absurd aborts (by decide)

/-! ## Spelled texts

Whatever pieces a text is spelled in, the interpreter returns what the pieces mean. Dollar signs in
quotes and the characters of a variable's value come out as they are.
-/

/-- The returned array is the pieces' meaning and the NUL behind it. -/
theorem spelling_interpreted (lookupEnv : Env) (pieces : List Piece) (separated : Separated pieces) :
    interpretComplexStringToken lookupEnv (spelling pieces) =
      some (meaning lookupEnv pieces ++ [nul]) := by
  have reaches : Reaches lookupEnv (spelling pieces) ⟨[], 0, false⟩
      ⟨[] ++ meaning lookupEnv pieces, 0 + (spelling pieces).length, false⟩ := reaches_spelling separated rfl
  rw [List.nil_append, Nat.zero_add] at reaches
  have ended := (reaches.trans reaches_nul).afterLoop rfl
  have notEmpty : meaning lookupEnv pieces ++ [nul] ≠ [] := pushBack_ne_nil _ nul
  simp only [interpretComplexStringToken, ended, updateBack, if_neg notEmpty, List.dropLast_concat,
    Option.bind_eq_bind, Option.bind_some, Bool.false_eq_true, ↓reduceIte]

/-- A variable that holds `$a'`, spelled before a quoted `$A'`, an escaped blank and a continued line. -/
theorem spelling_interpreted_nested :
    let lookupEnv : Env := fun name => if name = ['A'] then some ['$', 'a', '\''] else none
    let pieces : List Piece := [.deref ['A'] ⟨rfl, nofun⟩, .quoted ['$', 'A', '\''] (forall_mem_of_all rfl),
      .escaped ' ' (by decide), .continued, .plain ['b', '#'] (forall_mem_of_all rfl), .deref ['u'] ⟨rfl, nofun⟩]
    interpretComplexStringToken lookupEnv (spelling pieces) =
      some (meaning lookupEnv pieces ++ [nul]) := by
  intro lookupEnv pieces
  have ends : ∀ c ∈ some '\'', isIdentifierChar c = false := by
    rintro _ ⟨⟩
    rfl
  have separated : Separated pieces := ⟨ends, trivial, trivial, trivial, trivial, nofun, trivial⟩
  exact spelling_interpreted lookupEnv pieces separated

end OsLabs.Quash
