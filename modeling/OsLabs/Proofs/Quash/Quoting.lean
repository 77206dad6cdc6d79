import Mathlib.Algebra.Group.Nat.Even
import Mathlib.Algebra.Ring.Parity
import Mathlib.Data.List.GetD
import OsLabs.Model.Quash.StringToken

/-! # Quotes and the backslashes before them

Both the pattern and the interpreter see a string as a series of quotes, each behind a number of
backslashes. For the pattern an odd number escapes the quote and an even one leaves it. So it is for
the interpreter outside of quotes; inside, a single backslash is enough to escape the quote.
-/

namespace OsLabs.Quash

variable {lookupEnv : Env} {str bld text rest : List Char} {c next : Char} {s s' : Interpreter}
  {i k : ℕ}

/-- For each quote, the number of backslashes right before it; `k` backslashes come before the text. -/
def quoteRuns : ℕ → List Char → List ℕ
  | _, [] => []
  | k, c :: text =>
    if c = '\'' then k :: quoteRuns 0 text else quoteRuns (if c = '\\' then k + 1 else 0) text

@[simp] theorem quoteRuns_quote : quoteRuns k ('\'' :: text) = k :: quoteRuns 0 text := rfl

@[simp] theorem quoteRuns_backslash : quoteRuns k ('\\' :: text) = quoteRuns (k + 1) text := rfl

/-- Any other character ends a run of backslashes. -/
theorem quoteRuns_neutral (notQuote : c ≠ '\'') (notBackslash : c ≠ '\\') :
    quoteRuns k (c :: text) = quoteRuns 0 text := by
  rw [quoteRuns, if_neg notQuote, if_neg notBackslash]

/-- The pattern at a quote. -/
def patternQuote (inQuotes : Bool) (k : ℕ) : Bool := if Even k then !inQuotes else inQuotes

/-- The interpreter at a quote. -/
def interpreterQuote (inQuotes : Bool) (k : ℕ) : Bool :=
  if k = 0 then !inQuotes else if Even k then true else inQuotes

/-! ## The pattern -/

/-- Behind a backslash that is not escaped, any character leaves the pattern where it is. -/
theorem quoteRuns_escaped (even : Even k) (c : Char) (text : List Char) (inQuotes : Bool) : ∃ k', Even k' ∧
    (quoteRuns (k + 1) (c :: text)).foldl patternQuote inQuotes =
      (quoteRuns k' text).foldl patternQuote inQuotes := by
  rcases eq_or_ne c '\'' with rfl | notQuote
  · have odd : ¬ Even (k + 1) := Nat.not_even_iff_odd.mpr even.add_one
    refine ⟨0, Even.zero, ?_⟩
    rw [quoteRuns_quote, List.foldl_cons, patternQuote, if_neg odd]
  rcases eq_or_ne c '\\' with rfl | notBackslash
  · exact ⟨k + 2, even.add_one.add_one, rfl⟩
  · exact ⟨0, Even.zero, by rw [quoteRuns_neutral notQuote notBackslash]⟩

theorem quotedText_closes (content : QuotedText text) (even : Even k) :
    (quoteRuns k (text ++ '\'' :: rest)).foldl patternQuote true =
      (quoteRuns 0 rest).foldl patternQuote false := by
  induction content generalizing k with
  | nil =>
    rw [List.nil_append, quoteRuns_quote, List.foldl_cons, patternQuote, if_pos even]
    rfl
  | @escape c text _ _ ih =>
    obtain ⟨k', even', same⟩ := quoteRuns_escaped even c (text ++ '\'' :: rest) true
    rw [List.cons_append, List.cons_append, quoteRuns_backslash, same, ih even']
  | char _ notBackslash notQuote _ ih =>
    rw [List.cons_append, quoteRuns_neutral notQuote notBackslash, ih Even.zero]

/-- A part of a string ends outside of quotes. -/
theorem stringPart_closes {part : List Char} (isPart : StringPart part) (even : Even k) :
    ∃ k', Even k' ∧ (quoteRuns k (part ++ rest)).foldl patternQuote false =
      (quoteRuns k' rest).foldl patternQuote false := by
  cases isPart with
  | @char c isOrdinary =>
    refine ⟨0, Even.zero, ?_⟩
    have notQuote : c ≠ '\'' := by
      rintro rfl
      exact absurd isOrdinary (by decide)
    have notBackslash : c ≠ '\\' := by
      rintro rfl
      exact absurd isOrdinary (by decide)
    rw [List.cons_append, List.nil_append, quoteRuns_neutral notQuote notBackslash]
  | @escape c =>
    rw [List.cons_append, List.cons_append, List.nil_append, quoteRuns_backslash]
    exact quoteRuns_escaped even c rest false
  | @quoted text content =>
    refine ⟨0, Even.zero, ?_⟩
    rw [List.cons_append, List.append_assoc, quoteRuns_quote, List.foldl_cons, patternQuote, if_pos even]
    exact quotedText_closes content Even.zero

/-- A string token ends outside of quotes. -/
theorem stringToken_closes {token : List Char} (isToken : StringToken token) (even : Even k) :
    (quoteRuns k token).foldl patternQuote false = false := by
  induction isToken generalizing k with
  | @last part isPart =>
    obtain ⟨k', _, closes⟩ : ∃ k', Even k' ∧ (quoteRuns k (part ++ [])).foldl patternQuote false =
      (quoteRuns k' []).foldl patternQuote false := stringPart_closes isPart even
    rw [List.append_nil] at closes
    exact closes
  | more isPart _ ih =>
    obtain ⟨k', even', closes⟩ := stringPart_closes isPart even
    rw [closes, ih even']

/-! ## The interpreter -/

/-- A character of the string, read at an index, heads what is left of the string. -/
theorem drop_of_charAt (here : charAt str i = c) (real : c ≠ nul) :
    i < str.length ∧ str.drop i = c :: str.drop (i + 1) := by
  have inside : i < str.length := by
    by_contra outside
    rw [charAt, List.getD_eq_default _ _ (not_lt.mp outside)] at here
    exact real here.symm
  rw [charAt, List.getD_eq_getElem _ _ inside] at here
  exact ⟨inside, here ▸ List.drop_eq_getElem_cons inside⟩

/-- Identifiers hold no quotes and no backslashes. -/
theorem quoteRuns_identifier (text : List Char) :
    quoteRuns 0 text = quoteRuns 0 (text.drop (text.takeWhile isIdentifierChar).length) := by
  induction text with
  | nil => rfl
  | cons c text ih =>
    rw [List.takeWhile_cons]
    split
    · next isIdentifier =>
      rw [List.length_cons, List.drop_succ_cons, ← ih]
      refine quoteRuns_neutral ?_ ?_ <;> rintro rfl <;> exact absurd isIdentifier (by decide)
    · rfl

/-- What `k`, the number of backslashes the runs count before the index, satisfies. Outside of quotes
the interpreter takes backslashes in pairs. Inside, a backslash takes the quote behind it along. -/
structure Ready (str : List Char) (s : Interpreter) (k : ℕ) : Prop where
  outside : s.inQuotes = false → Even k
  inside : s.inQuotes = true → charAt str s.i = '\'' → k = 0

theorem ready_zero (str : List Char) (s : Interpreter) : Ready str s 0 := ⟨fun _ => Even.zero, fun _ _ => rfl⟩

/-- The iteration moves on and leaves the same to come. -/
structure Advances (str : List Char) (s : Interpreter) (k : ℕ) (s' : Interpreter) : Prop where
  moves : s.i < s'.i
  within : s'.i ≤ str.length + 1
  built : s'.i = str.length + 1 → s'.bld ≠ []
  quotes : ∃ k', Ready str s' k' ∧ (quoteRuns k (str.drop s.i)).foldl interpreterQuote s.inQuotes =
    (quoteRuns k' (str.drop s'.i)).foldl interpreterQuote s'.inQuotes

/-- Before another character the runs count no backslashes. -/
theorem quoteRuns_drop (notQuote : charAt str i ≠ '\'') (notBackslash : charAt str i ≠ '\\') :
    quoteRuns k (str.drop i) = quoteRuns 0 (str.drop (i + 1)) := by
  rcases lt_or_ge i str.length with inside | outside
  · rw [charAt, List.getD_eq_getElem _ _ inside] at notQuote notBackslash
    rw [List.drop_eq_getElem_cons inside, quoteRuns_neutral notQuote notBackslash]
  · rw [List.drop_eq_nil_of_le outside, List.drop_eq_nil_of_le (by omega)]
    rfl

/-- A character that is no quote and no backslash. -/
theorem advances_neutral (inside : s.i ≤ str.length) (notQuote : charAt str s.i ≠ '\'')
    (notBackslash : charAt str s.i ≠ '\\') :
    Advances str s k ⟨pushBack s.bld (charAt str s.i), s.i + 1, s.inQuotes⟩ where
  moves := Nat.lt_succ_self _
  within := Nat.succ_le_succ inside
  built _ := pushBack_ne_nil _ _
  quotes := ⟨0, ready_zero _ _, by rw [quoteRuns_drop notQuote notBackslash]⟩

/-- A backslash that stays in the string. -/
theorem advances_backslash (here : charAt str s.i = '\\') (notEscaped : charAt str (s.i + 1) ≠ '\'')
    (alone : s.inQuotes = false → charAt str (s.i + 1) ≠ '\\') :
    Advances str s k ⟨pushBack s.bld '\\', s.i + 1, s.inQuotes⟩ := by
  obtain ⟨inside, left⟩ := drop_of_charAt here (by decide)
  refine ⟨Nat.lt_succ_self _, Nat.succ_le_succ (Nat.le_of_lt inside), fun _ => pushBack_ne_nil _ _, ?_⟩
  rw [left, quoteRuns_backslash]
  cases inQuotes : s.inQuotes with
  | false =>
    refine ⟨0, ready_zero _ _, ?_⟩
    rw [quoteRuns_drop notEscaped (alone inQuotes), ← quoteRuns_drop notEscaped (alone inQuotes)]
  | true => exact ⟨k + 1, ⟨nofun, fun _ isQuote => (notEscaped isQuote).elim⟩, rfl⟩

/-- A backslash and the character that it escapes. -/
theorem advances_escape (ready : Ready str s k) (here : charAt str s.i = '\\')
    (behind : charAt str (s.i + 1) = next) (real : next ≠ nul) (inQuotes : s.inQuotes = true → next = '\'') :
    Advances str s k ⟨bld, s.i + 2, s.inQuotes⟩ := by
  obtain ⟨_, left⟩ := drop_of_charAt here (by decide)
  obtain ⟨inside, left'⟩ := drop_of_charAt behind real
  refine ⟨Nat.lt_add_of_pos_right (by decide), ?_, fun atEnd => ?_, ?_⟩
  · change s.i + 2 ≤ str.length + 1
    omega
  · change s.i + 2 = str.length + 1 at atEnd
    omega
  rw [left, left', quoteRuns_backslash]
  rcases eq_or_ne next '\'' with isQuote | notQuote
  · refine ⟨0, ready_zero _ _, ?_⟩
    have stays : interpreterQuote s.inQuotes (k + 1) = s.inQuotes := by
      rw [interpreterQuote, if_neg k.succ_ne_zero]
      cases inQuotes : s.inQuotes with
      | false => exact if_neg (Nat.not_even_iff_odd.mpr (ready.outside inQuotes).add_one)
      | true => exact ite_self true
    rw [isQuote, quoteRuns_quote, List.foldl_cons, stays]
  · have outside : s.inQuotes = false := by
      rw [← Bool.not_eq_true]
      exact fun inside => notQuote (inQuotes inside)
    rcases eq_or_ne next '\\' with isBackslash | notBackslash
    · refine ⟨k + 2, ⟨fun _ => (ready.outside outside).add_one.add_one, ?_⟩, ?_⟩
      · exact fun inside => (Bool.false_ne_true (outside.symm.trans inside)).elim
      · rw [isBackslash, quoteRuns_backslash]
    · exact ⟨0, ready_zero _ _, by rw [quoteRuns_neutral notQuote notBackslash]⟩

/-- A quote that is not escaped. -/
theorem advances_quote (ready : Ready str s k) (here : charAt str s.i = '\'') :
    Advances str s k ⟨bld, s.i + 1, !s.inQuotes⟩ := by
  obtain ⟨inside, left⟩ := drop_of_charAt here (by decide)
  refine ⟨Nat.lt_succ_self _, Nat.succ_le_succ (Nat.le_of_lt inside), fun atEnd => ?_, 0, ready_zero _ _, ?_⟩
  · exact (Nat.ne_of_lt inside (Nat.succ.inj atEnd)).elim
  · have flips : interpreterQuote s.inQuotes k = !s.inQuotes := by
      rw [interpreterQuote]
      split
      · rfl
      · next behind =>
        cases inQuotes : s.inQuotes with
        | false => exact if_pos (ready.outside inQuotes)
        | true => exact (behind (ready.inside inQuotes here)).elim
    rw [left, quoteRuns_quote, List.foldl_cons, flips]

/-- An expanded variable. -/
theorem advances_deref (here : charAt str s.i = '$') : Advances str s k
    ⟨bld, s.i + ((str.drop (s.i + 1)).takeWhile isIdentifierChar).length + 1, s.inQuotes⟩ := by
  obtain ⟨inside, left⟩ := drop_of_charAt here (by decide)
  have short := (List.takeWhile_prefix isIdentifierChar (l := str.drop (s.i + 1))).length_le
  rw [List.length_drop] at short
  refine ⟨?_, ?_, fun atEnd => ?_, 0, ready_zero _ _, ?_⟩
  · exact Nat.lt_succ_of_le (Nat.le_add_right ..)
  · change s.i + _ + 1 ≤ str.length + 1
    omega
  · change s.i + _ + 1 = str.length + 1 at atEnd
    omega
  · rw [left, quoteRuns_neutral (by decide) (by decide), quoteRuns_identifier, List.drop_drop]
    rw [Nat.add_right_comm]

/-! ## One iteration -/

theorem interpretChar_escape (here : charAt str s.i = '\\') (outside : s.inQuotes = false)
    (isEscapable : charAt str (s.i + 1) ∈ escapable) : interpretChar lookupEnv str s =
      some ⟨pushBack s.bld (charAt str (s.i + 1)), s.i + 2, s.inQuotes⟩ := by
  simp only [interpretChar, here, outside, isEscapable, updateBack_pushBack, ↓reduceIte, Bool.not_false]
  rfl

theorem interpretChar_newline (here : charAt str s.i = '\\') (outside : s.inQuotes = false)
    (isNewline : charAt str (s.i + 1) = '\n') : interpretChar lookupEnv str s =
      some ⟨s.bld, s.i + 2, s.inQuotes⟩ := by
  have notEscapable : '\n' ∉ escapable := by decide
  simp only [interpretChar, here, outside, isNewline, notEscapable, popBack_pushBack, ↓reduceIte,
    Bool.not_false]
  rfl

theorem interpretChar_backslash (here : charAt str s.i = '\\') (outside : s.inQuotes = false)
    (notEscapable : charAt str (s.i + 1) ∉ escapable) (notNewline : charAt str (s.i + 1) ≠ '\n') :
    interpretChar lookupEnv str s = some ⟨pushBack s.bld '\\', s.i + 1, s.inQuotes⟩ := by
  simp only [interpretChar, here, outside, notEscapable, notNewline, ↓reduceIte, Bool.not_false]

theorem interpretChar_quotedEscape (here : charAt str s.i = '\\') (inQuotes : s.inQuotes = true)
    (isQuote : charAt str (s.i + 1) = '\'') : interpretChar lookupEnv str s =
      some ⟨pushBack s.bld '\'', s.i + 2, s.inQuotes⟩ := by
  simp only [interpretChar, here, inQuotes, isQuote, updateBack_pushBack, ↓reduceIte, Bool.not_true,
    Bool.false_eq_true]
  rfl

theorem interpretChar_quotedBackslash (here : charAt str s.i = '\\') (inQuotes : s.inQuotes = true)
    (notQuote : charAt str (s.i + 1) ≠ '\'') : interpretChar lookupEnv str s =
      some ⟨pushBack s.bld '\\', s.i + 1, s.inQuotes⟩ := by
  simp only [interpretChar, here, inQuotes, notQuote, ↓reduceIte, Bool.not_true, Bool.false_eq_true]

theorem interpretChar_quote (here : charAt str s.i = '\'') : interpretChar lookupEnv str s =
    some ⟨s.bld, s.i + 1, !s.inQuotes⟩ := by
  have notBackslash : ¬ '\'' = '\\' := by decide
  simp only [interpretChar, here, notBackslash, popBack_pushBack, ↓reduceIte]
  rfl

theorem interpretChar_deref (here : charAt str s.i = '$') (outside : s.inQuotes = false)
    (isFirst : isFirstIdentifierChar (charAt str (s.i + 1)) = true) :
    let id := (str.drop (s.i + 1)).takeWhile isIdentifierChar
    interpretChar lookupEnv str s =
      some ⟨s.bld ++ (lookupEnv id).getD [], s.i + id.length + 1, s.inQuotes⟩ := by
  have notBackslash : ¬ '$' = '\\' := by decide
  have notQuote : ¬ '$' = '\'' := by decide
  have back : peekBack (pushBack s.bld '$') = some '$' := List.getLast?_concat
  simp only [interpretChar, here, outside, isFirst, notBackslash, notQuote, interpretDeref, back,
    popBack_pushBack, ↓reduceIte, and_self]
  rfl

theorem interpretChar_other (notBackslash : charAt str s.i ≠ '\\') (notQuote : charAt str s.i ≠ '\'')
    (notDeref : ¬ (charAt str s.i = '$' ∧ s.inQuotes = false ∧
      isFirstIdentifierChar (charAt str (s.i + 1)) = true)) :
    interpretChar lookupEnv str s = some ⟨pushBack s.bld (charAt str s.i), s.i + 1, s.inQuotes⟩ := by
  simp only [interpretChar, notBackslash, notQuote, notDeref, ↓reduceIte]

theorem interpretChar_spec (lookupEnv : Env) (inside : s.i ≤ str.length) (ready : Ready str s k) :
    ∃ s', interpretChar lookupEnv str s = some s' ∧ Advances str s k s' := by
  by_cases isBackslash : charAt str s.i = '\\'
  · cases inQuotes : s.inQuotes with
    | false =>
      have notInQuotes : s.inQuotes = true → charAt str (s.i + 1) = '\'' := fun isTrue =>
        (Bool.false_ne_true (inQuotes.symm.trans isTrue)).elim
      by_cases isEscapable : charAt str (s.i + 1) ∈ escapable
      · have real : charAt str (s.i + 1) ≠ nul := by
          intro isNul
          rw [isNul] at isEscapable
          exact absurd isEscapable (by decide)
        exact ⟨_, interpretChar_escape isBackslash inQuotes isEscapable,
          advances_escape ready isBackslash rfl real notInQuotes⟩
      · by_cases isNewline : charAt str (s.i + 1) = '\n'
        · have real : charAt str (s.i + 1) ≠ nul := by
            rw [isNewline]
            decide
          exact ⟨_, interpretChar_newline isBackslash inQuotes isNewline,
            advances_escape ready isBackslash rfl real notInQuotes⟩
        · refine ⟨_, interpretChar_backslash isBackslash inQuotes isEscapable isNewline,
            advances_backslash isBackslash ?_ fun _ => ?_⟩
          · exact fun isQuote => isEscapable (isQuote ▸ by decide)
          · exact fun isBackslash => isEscapable (isBackslash ▸ by decide)
    | true =>
      by_cases isQuote : charAt str (s.i + 1) = '\''
      · have real : charAt str (s.i + 1) ≠ nul := by
          rw [isQuote]
          decide
        exact ⟨_, interpretChar_quotedEscape isBackslash inQuotes isQuote,
          advances_escape ready isBackslash rfl real fun _ => isQuote⟩
      · refine ⟨_, interpretChar_quotedBackslash isBackslash inQuotes isQuote,
          advances_backslash isBackslash isQuote fun outside => ?_⟩
        exact (Bool.false_ne_true (outside.symm.trans inQuotes)).elim
  · by_cases isQuote : charAt str s.i = '\''
    · exact ⟨_, interpretChar_quote isQuote, advances_quote ready isQuote⟩
    · by_cases isDeref : charAt str s.i = '$' ∧ s.inQuotes = false ∧
          isFirstIdentifierChar (charAt str (s.i + 1)) = true
      · exact ⟨_, interpretChar_deref isDeref.1 isDeref.2.1 isDeref.2.2, advances_deref isDeref.1⟩
      · exact ⟨_, interpretChar_other isBackslash isQuote isDeref,
          advances_neutral inside isQuote isBackslash⟩

/-! ## The loop -/

theorem interpretLoop_spec (lookupEnv : Env) (fuel : ℕ) (enough : str.length + 1 < s.i + fuel)
    (within : s.i ≤ str.length + 1) (built : s.i = str.length + 1 → s.bld ≠ []) (ready : Ready str s k) :
    ∃ s', interpretLoop lookupEnv str fuel s = some s' ∧ s'.bld ≠ [] ∧
      s'.inQuotes = (quoteRuns k (str.drop s.i)).foldl interpreterQuote s.inQuotes := by
  induction fuel generalizing s k with
  | zero => omega
  | succ fuel ih =>
    rw [interpretLoop]
    split
    · next inside =>
      obtain ⟨s', interpreted, advances⟩ := interpretChar_spec lookupEnv inside ready
      obtain ⟨k', ready', quotes⟩ := advances.quotes
      rw [interpreted, Option.bind_some, quotes]
      refine ih ?_ advances.within advances.built ready'
      have moves := advances.moves
      omega
    · next outside =>
      refine ⟨s, rfl, built (by omega), ?_⟩
      rw [List.drop_eq_nil_of_le (by omega)]
      rfl

/-- The loop ends, with the quote state that the runs of backslashes give. -/
theorem afterLoop_spec (lookupEnv : Env) (str : List Char) : ∃ s, afterLoop lookupEnv str = some s ∧
    s.bld ≠ [] ∧ s.inQuotes = (quoteRuns 0 str).foldl interpreterQuote false :=
  interpretLoop_spec lookupEnv (str.length + 2) (by change _ < 0 + _; omega) (Nat.zero_le _) nofun
    (ready_zero _ _)

end OsLabs.Quash
