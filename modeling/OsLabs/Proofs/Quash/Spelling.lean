import OsLabs.Proofs.Quash.Quoting

/-! # Spelled text

A text is spelled in pieces: plain characters, escaped characters, continued lines, quoted text and
variables. Over the spelling of a piece that starts outside of quotes the interpreter appends the
piece's value to its builder and is outside of quotes again.
-/

namespace OsLabs.Quash

variable {lookupEnv : Env} {str bld text rest : List Char} {c : Char} {s s' s'' : Interpreter} {i : ℕ}

/-- `[A-Za-z_][A-Za-z0-9_]*`. -/
def IsName : List Char → Prop
  | [] => False
  | first :: others => isFirstIdentifierChar first = true ∧ ∀ c ∈ others, isIdentifierChar c = true

inductive Piece
  | plain (text : List Char) (isPlain : ∀ c ∈ text, c ∉ [nul, '\\', '\'', '$'])
  | escaped (c : Char) (isEscapable : c ∈ ['\\', '\'', '#', '$', '=', '&', '|', ';', ' ', '\t'])
  | continued
  | quoted (text : List Char) (isQuotable : ∀ c ∈ text, c ∉ [nul, '\\'])
  | deref (name : List Char) (isName : IsName name)

/-- A text can be checked character by character. -/
theorem forall_mem_of_all {p : Char → Prop} [DecidablePred p] {text : List Char}
    (all : text.all (fun c => decide (p c)) = true) : ∀ c ∈ text, p c := fun c member =>
  of_decide_eq_true (List.all_eq_true.mp all c member)

/-- A character in quotes. -/
def spellQuoted (c : Char) : List Char := if c = '\'' then ['\\', '\''] else [c]

def Piece.spell : Piece → List Char
  | .plain text _ => text
  | .escaped c _ => ['\\', c]
  | .continued => ['\\', '\n']
  | .quoted text _ => '\'' :: (text.flatMap spellQuoted ++ ['\''])
  | .deref name _ => '$' :: name

def Piece.value (lookupEnv : Env) : Piece → List Char
  | .plain text _ => text
  | .escaped c _ => [c]
  | .continued => []
  | .quoted text _ => text
  | .deref name _ => (lookupEnv name).getD []

/-- No character behind a variable could continue its name. -/
def Piece.EndsBefore (rest : List Char) : Piece → Prop
  | .deref _ _ => ∀ c ∈ rest.head?, isIdentifierChar c = false
  | _ => True

def spelling (pieces : List Piece) : List Char := pieces.flatMap Piece.spell

def meaning (lookupEnv : Env) (pieces : List Piece) : List Char := pieces.flatMap (Piece.value lookupEnv)

def Separated : List Piece → Prop
  | [] => True
  | piece :: rest => piece.EndsBefore (spelling rest) ∧ Separated rest

/-! ## Reading the string -/

theorem charAt_of_drop (left : str.drop i = c :: rest) : charAt str i = c := by
  have here : (str.drop i)[0]? = some c := by
    rw [left]
    rfl
  rw [List.getElem?_drop, Nat.add_zero] at here
  rw [charAt, List.getD_eq_getElem?_getD, here, Option.getD_some]

theorem drop_of_drop (left : str.drop i = text ++ rest) : str.drop (i + text.length) = rest := by
  rw [← List.drop_drop, left, List.drop_left]

theorem drop_of_cons (left : str.drop i = c :: rest) : str.drop (i + 1) = rest := by
  rw [← List.drop_drop, left]
  rfl

theorem le_length_of_drop (left : str.drop i = c :: rest) : i ≤ str.length := by
  by_contra outside
  rw [List.drop_eq_nil_of_le (by omega)] at left
  cases left

/-! ## Stretches of the loop -/

/-- With fuel for the rest of the string, the loop gets from one state to the other. -/
def Reaches (lookupEnv : Env) (str : List Char) (s s' : Interpreter) : Prop :=
  ∀ fuel, str.length + 1 < s.i + fuel → ∃ fuel', str.length + 1 < s'.i + fuel' ∧
    interpretLoop lookupEnv str fuel s = interpretLoop lookupEnv str fuel' s'

theorem Reaches.refl (s : Interpreter) : Reaches lookupEnv str s s := fun fuel enough => ⟨fuel, enough, rfl⟩

theorem Reaches.trans (first : Reaches lookupEnv str s s') (second : Reaches lookupEnv str s' s'') :
    Reaches lookupEnv str s s'' := by
  intro fuel enough
  obtain ⟨fuel', enough', same⟩ := first fuel enough
  obtain ⟨fuel'', enough'', same'⟩ := second fuel' enough'
  exact ⟨fuel'', enough'', same.trans same'⟩

/-- One iteration that moves on. -/
theorem Reaches.step (inside : s.i ≤ str.length) (interpreted : interpretChar lookupEnv str s = some s')
    (moves : s.i < s'.i) : Reaches lookupEnv str s s' := by
  intro fuel enough
  cases fuel with
  | zero => omega
  | succ fuel =>
    refine ⟨fuel, by omega, ?_⟩
    rw [interpretLoop, if_pos inside, interpreted, Option.bind_some]

/-- At the end of the string the NUL goes into the builder. -/
theorem reaches_nul {inQuotes : Bool} :
    Reaches lookupEnv str ⟨bld, str.length, inQuotes⟩ ⟨bld ++ [nul], str.length + 1, inQuotes⟩ := by
  have here : charAt str str.length = nul := List.getD_eq_default _ _ (Nat.le_refl _)
  apply Reaches.step (Nat.le_refl _) _ (Nat.lt_succ_self _)
  have interpreted : interpretChar lookupEnv str ⟨bld, str.length, inQuotes⟩ =
      some ⟨pushBack bld (charAt str str.length), str.length + 1, inQuotes⟩ := by
    apply interpretChar_other
    · exact here ▸ by decide
    · exact here ▸ by decide
    · exact fun isDeref => absurd (here.symm.trans isDeref.1) (by decide)
  rw [here] at interpreted
  exact interpreted

theorem Reaches.afterLoop (reaches : Reaches lookupEnv str ⟨[], 0, false⟩ s)
    (atEnd : s.i = str.length + 1) : afterLoop lookupEnv str = some s := by
  obtain ⟨fuel, enough, same⟩ := reaches (str.length + 2) (by change _ < 0 + _; omega)
  rw [OsLabs.Quash.afterLoop, same]
  cases fuel with
  | zero => omega
  | succ fuel => rw [interpretLoop, if_neg (by omega)]

/-- A character that stands for itself. -/
theorem reaches_other {inQuotes : Bool} (left : str.drop i = c :: rest) (notBackslash : c ≠ '\\')
    (notQuote : c ≠ '\'') (notDeref : inQuotes = false → c ≠ '$') :
    Reaches lookupEnv str ⟨bld, i, inQuotes⟩ ⟨bld ++ [c], i + 1, inQuotes⟩ := by
  have here := charAt_of_drop left
  apply Reaches.step (le_length_of_drop left) _ (Nat.lt_succ_self i)
  rw [← here] at notBackslash notQuote notDeref ⊢
  apply interpretChar_other notBackslash notQuote
  rintro ⟨isDollar, outside, _⟩
  exact notDeref outside isDollar

theorem reaches_quote {inQuotes : Bool} (left : str.drop i = '\'' :: rest) :
    Reaches lookupEnv str ⟨bld, i, inQuotes⟩ ⟨bld, i + 1, !inQuotes⟩ := by
  apply Reaches.step (le_length_of_drop left) _ (Nat.lt_succ_self i)
  exact interpretChar_quote (charAt_of_drop left)

/-! ## The pieces -/

theorem reaches_plain (isPlain : ∀ c ∈ text, c ∉ [nul, '\\', '\'', '$'])
    (left : str.drop i = text ++ rest) :
    Reaches lookupEnv str ⟨bld, i, false⟩ ⟨bld ++ text, i + text.length, false⟩ := by
  induction text generalizing bld i with
  | nil =>
    rw [List.append_nil]
    exact .refl _
  | cons c text ih =>
    obtain ⟨here, behind⟩ := List.forall_mem_cons.mp isPlain
    simp only [List.mem_cons, List.not_mem_nil, or_false, not_or] at here
    obtain ⟨_, notBackslash, notQuote, notDollar⟩ := here
    have first : Reaches lookupEnv str ⟨bld, i, false⟩ ⟨bld ++ [c], i + 1, false⟩ :=
      reaches_other left notBackslash notQuote fun _ => notDollar
    have others : Reaches lookupEnv str ⟨bld ++ [c], i + 1, false⟩ _ := ih behind (drop_of_cons left)
    rw [List.append_assoc, Nat.add_assoc, Nat.add_comm 1] at others
    exact first.trans others

theorem reaches_escaped (isEscapable : c ∈ escapable) (left : str.drop i = '\\' :: c :: rest) :
    Reaches lookupEnv str ⟨bld, i, false⟩ ⟨bld ++ [c], i + 2, false⟩ := by
  have behind : charAt str (i + 1) = c := charAt_of_drop (drop_of_cons left)
  apply Reaches.step (le_length_of_drop left) _ (Nat.lt_add_of_pos_right (by decide))
  rw [← behind] at isEscapable ⊢
  exact interpretChar_escape (charAt_of_drop left) rfl isEscapable

theorem reaches_continued (left : str.drop i = '\\' :: '\n' :: rest) :
    Reaches lookupEnv str ⟨bld, i, false⟩ ⟨bld, i + 2, false⟩ := by
  have behind : charAt str (i + 1) = '\n' := charAt_of_drop (drop_of_cons left)
  apply Reaches.step (le_length_of_drop left) _ (Nat.lt_add_of_pos_right (by decide))
  exact interpretChar_newline (charAt_of_drop left) rfl behind

/-- One character in quotes. -/
theorem reaches_spellQuoted (notBackslash : c ≠ '\\') (left : str.drop i = spellQuoted c ++ rest) :
    Reaches lookupEnv str ⟨bld, i, true⟩ ⟨bld ++ [c], i + (spellQuoted c).length, true⟩ := by
  rw [spellQuoted] at left ⊢
  split at left
  · next isQuote =>
    have behind : charAt str (i + 1) = '\'' := charAt_of_drop (drop_of_cons left)
    rw [if_pos isQuote, isQuote]
    apply Reaches.step (le_length_of_drop left) _ (Nat.lt_add_of_pos_right (by decide))
    exact interpretChar_quotedEscape (charAt_of_drop left) rfl behind
  · next notQuote =>
    rw [if_neg notQuote]
    apply reaches_other left notBackslash notQuote
    nofun

theorem reaches_quotedText (isQuotable : ∀ c ∈ text, c ∉ [nul, '\\'])
    (left : str.drop i = text.flatMap spellQuoted ++ rest) :
    Reaches lookupEnv str ⟨bld, i, true⟩ ⟨bld ++ text, i + (text.flatMap spellQuoted).length, true⟩ := by
  induction text generalizing bld i with
  | nil =>
    rw [List.append_nil]
    exact .refl _
  | cons c text ih =>
    obtain ⟨here, behind⟩ := List.forall_mem_cons.mp isQuotable
    simp only [List.mem_cons, List.not_mem_nil, or_false, not_or] at here
    rw [List.flatMap_cons, List.append_assoc] at left
    have first : Reaches lookupEnv str ⟨bld, i, true⟩ _ := reaches_spellQuoted here.2 left
    have others : Reaches lookupEnv str ⟨bld ++ [c], _, true⟩ _ := ih behind (drop_of_drop left)
    rw [List.append_assoc, Nat.add_assoc, ← List.length_append, ← List.flatMap_cons] at others
    exact first.trans others

theorem reaches_quoted (isQuotable : ∀ c ∈ text, c ∉ [nul, '\\'])
    (left : str.drop i = '\'' :: (text.flatMap spellQuoted ++ ['\'']) ++ rest) :
    Reaches lookupEnv str ⟨bld, i, false⟩
      ⟨bld ++ text, i + ('\'' :: (text.flatMap spellQuoted ++ ['\''])).length, false⟩ := by
  rw [List.cons_append, List.append_assoc] at left
  have opened : str.drop (i + 1) = text.flatMap spellQuoted ++ ('\'' :: rest) :=
    drop_of_cons left
  have closing := drop_of_drop opened
  have content : Reaches lookupEnv str ⟨bld, i + 1, true⟩ _ := reaches_quotedText isQuotable opened
  have length : i + ('\'' :: (text.flatMap spellQuoted ++ ['\''])).length =
      i + 1 + (text.flatMap spellQuoted).length + 1 := by
    rw [List.length_cons, List.length_append, List.length_singleton]
    omega
  rw [length]
  exact (reaches_quote left).trans (content.trans (reaches_quote closing))

/-- The identifier behind a dollar sign. -/
theorem takeWhile_name {name : List Char} (isName : IsName name)
    (ends : ∀ c ∈ rest.head?, isIdentifierChar c = false) :
    (name ++ rest).takeWhile isIdentifierChar = name := by
  have identifier : ∀ c ∈ name, isIdentifierChar c = true := by
    cases name with
    | nil => exact nofun
    | cons first others =>
      refine List.forall_mem_cons.mpr ⟨?_, isName.2⟩
      have isFirst := isName.1
      simp only [isFirstIdentifierChar, isIdentifierChar, Char.isAlphanum, Bool.or_eq_true] at isFirst ⊢
      exact isFirst.imp_left .inl
  rw [List.takeWhile_append_of_pos identifier]
  cases rest with
  | nil => exact List.append_nil name
  | cons c rest =>
    have notIdentifier : isIdentifierChar c = false := ends c rfl
    rw [List.takeWhile_cons_of_neg (by rw [notIdentifier]; decide), List.append_nil]

theorem reaches_deref {name : List Char} (isName : IsName name)
    (ends : ∀ c ∈ rest.head?, isIdentifierChar c = false) (left : str.drop i = '$' :: name ++ rest) :
    Reaches lookupEnv str ⟨bld, i, false⟩
      ⟨bld ++ (lookupEnv name).getD [], i + ('$' :: name).length, false⟩ := by
  have behind : str.drop (i + 1) = name ++ rest := drop_of_cons left
  have isFirst : isFirstIdentifierChar (charAt str (i + 1)) = true := by
    cases name with
    | nil => exact isName.elim
    | cons first others =>
      rw [charAt_of_drop behind]
      exact isName.1
  have interpreted : interpretChar lookupEnv str ⟨bld, i, false⟩ = some _ :=
    interpretChar_deref (charAt_of_drop left) rfl isFirst
  simp only [behind, takeWhile_name isName ends] at interpreted
  exact .step (le_length_of_drop left) interpreted (Nat.lt_add_of_pos_right (Nat.succ_pos _))

theorem reaches_piece (piece : Piece) (ends : piece.EndsBefore rest)
    (left : str.drop i = piece.spell ++ rest) : Reaches lookupEnv str ⟨bld, i, false⟩
      ⟨bld ++ piece.value lookupEnv, i + piece.spell.length, false⟩ := by
  cases piece with
  | plain text isPlain => exact reaches_plain isPlain left
  | escaped c isEscapable => exact reaches_escaped isEscapable left
  | continued =>
    rw [Piece.value, List.append_nil]
    exact reaches_continued left
  | quoted text isQuotable => exact reaches_quoted isQuotable left
  | deref name isName => exact reaches_deref isName ends left

/-- Over whole spellings, by induction on the pieces. -/
theorem reaches_spelling {pieces : List Piece} (separated : Separated pieces)
    (left : str.drop i = spelling pieces) : Reaches lookupEnv str ⟨bld, i, false⟩
      ⟨bld ++ meaning lookupEnv pieces, i + (spelling pieces).length, false⟩ := by
  induction pieces generalizing bld i with
  | nil =>
    rw [meaning, List.flatMap_nil, List.append_nil]
    exact .refl _
  | cons piece pieces ih =>
    rw [spelling, List.flatMap_cons] at left
    have first : Reaches lookupEnv str ⟨bld, i, false⟩ _ := reaches_piece piece separated.1 left
    have others : Reaches lookupEnv str ⟨bld ++ piece.value lookupEnv, _, false⟩ _ :=
      ih separated.2 (drop_of_drop left)
    rw [List.append_assoc, Nat.add_assoc, ← List.length_append, spelling, ← List.flatMap_cons] at others
    exact first.trans others

end OsLabs.Quash
