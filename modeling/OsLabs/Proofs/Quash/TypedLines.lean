import OsLabs.Proofs.Quash.Lexer
import OsLabs.Proofs.Quash.ParserCompleteness

/-! # Lines that are typed

A word is typed in quotes, with each backslash behind a backslash and outside of them. Tokens are typed
with a blank behind each.
-/

namespace OsLabs.Quash

open ShiftReduce

variable {names : Names} {lookupEnv : Env} {text word : List Char} {line tokens : List Token}

/-! ## Words -/

/-- A character of a quoted word. -/
def quoteChar (c : Char) : List Char := if c = '\\' then ['\'', '\\', '\\', '\''] else spellQuoted c

def quote (word : List Char) : List Char := '\'' :: (word.flatMap quoteChar ++ ['\''])

theorem quotedText_spell (quotable : ∀ c ∈ text, c ∉ [nul, '\\']) : QuotedText (text.flatMap spellQuoted) := by
  induction text with
  | nil => exact .nil
  | cons c text ih =>
    obtain ⟨here, behind⟩ := List.forall_mem_cons.mp quotable
    simp only [List.mem_cons, List.not_mem_nil, or_false, not_or] at here
    rw [List.flatMap_cons, spellQuoted]
    split
    · exact .escape (by decide) (ih behind)
    · next notQuote => exact .char here.1 here.2 notQuote (ih behind)

/-- A quoted word behind the text that is quoted already. -/
theorem quote_pieces (text : List Char) (real : ∀ c ∈ word, c ≠ nul) (quotable : ∀ c ∈ text, c ∉ [nul, '\\']) :
    ∃ pieces, Separated pieces ∧ spelling pieces = '\'' :: (text.flatMap spellQuoted ++ (word.flatMap quoteChar ++ ['\''])) ∧
      (∀ lookupEnv, meaning lookupEnv pieces = text ++ word) ∧ StringToken (spelling pieces) := by
  induction word generalizing text with
  | nil =>
    refine ⟨[.quoted text quotable], ⟨trivial, trivial⟩, ?_, fun _ => ?_, ?_⟩
    · rw [spelling, List.flatMap_singleton, Piece.spell, List.flatMap_nil, List.nil_append]
    · rw [meaning, List.flatMap_singleton, Piece.value, List.append_nil]
    · rw [spelling, List.flatMap_singleton]
      exact .last (.quoted (quotedText_spell quotable))
  | cons c word ih =>
    obtain ⟨here, behind⟩ := List.forall_mem_cons.mp real
    by_cases backslash : c = '\\'
    · subst backslash
      obtain ⟨pieces, separated, spelled, means, isToken⟩ := ih [] behind (List.forall_mem_nil _)
      refine ⟨.quoted text quotable :: .escaped '\\' (by decide) :: pieces, ⟨trivial, trivial, separated⟩, ?_, fun _ => ?_, ?_⟩
      · rw [spelling, List.flatMap_cons, List.flatMap_cons, ← spelling, spelled]
        simp [Piece.spell, quoteChar]
      · rw [meaning, List.flatMap_cons, List.flatMap_cons, ← meaning, means]
        rfl
      · rw [spelling, List.flatMap_cons, List.flatMap_cons]
        exact .more (.quoted (quotedText_spell quotable)) (.more (.escape (by decide)) isToken)
    · have longer : ∀ d ∈ text ++ [c], d ∉ [nul, '\\'] :=
        List.forall_mem_append.mpr ⟨quotable, List.forall_mem_singleton.mpr (by simp [here, backslash])⟩
      obtain ⟨pieces, separated, spelled, means, isToken⟩ := ih _ behind longer
      refine ⟨pieces, separated, ?_, fun lookupEnv => ?_, isToken⟩
      · rw [spelled]
        simp [quoteChar, backslash]
      · rw [means, List.append_assoc, List.singleton_append]

theorem quote_interpreted (lookupEnv : Env) (real : ∀ c ∈ word, c ≠ nul) :
    interpretComplexStringToken lookupEnv (quote word) = some (word ++ [nul]) := by
  obtain ⟨pieces, separated, spelled, means, -⟩ := quote_pieces [] real (List.forall_mem_nil _)
  have whole : spelling pieces = quote word := spelled
  have reaches : Reaches lookupEnv (quote word) ⟨[], 0, false⟩ ⟨[] ++ meaning lookupEnv pieces, 0 + (quote word).length, false⟩ :=
    whole ▸ reaches_spelling separated rfl
  rw [List.nil_append, Nat.zero_add, means, List.nil_append] at reaches
  have ended := (reaches.trans reaches_nul).afterLoop rfl
  have notEmpty : word ++ [nul] ≠ [] := pushBack_ne_nil _ nul
  simp only [interpretComplexStringToken, ended, updateBack, if_neg notEmpty, List.dropLast_concat,
    Option.bind_eq_bind, Option.bind_some, Bool.false_eq_true, ↓reduceIte]

theorem firstString_quote (names : Names) (real : ∀ c ∈ word, c ≠ nul) : firstString names (.str (quote word)) = some word := by
  rw [firstString, quote_interpreted _ real, Option.map_some,
    List.takeWhile_append_of_pos fun c member => decide_eq_true (real c member)]
  simp

/-- A quoted word is a string for the lexer. -/
theorem quote_lexical (real : ∀ c ∈ word, c ≠ nul) : (Token.str (quote word)).Lexical := by
  obtain ⟨pieces, -, spelled, -, isToken⟩ := quote_pieces [] real (List.forall_mem_nil _)
  have whole : spelling pieces = quote word := spelled
  exact ⟨whole ▸ isToken, fun simple => absurd (simple '\'' (List.mem_cons_self ..)) (by decide)⟩

/-! ## Tokens -/

/-- Tokens with a blank behind each. -/
def typed (tokens : List Token) : List Char := tokens.flatMap fun token => token.yytext ++ [' ']

theorem endsBefore_blank (token : Token) (text : List Char) : token.EndsBefore (' ' :: text) := by
  have delimits : Delimits (' ' :: text) := by
    rintro _ ⟨⟩
    decide
  cases token with
  | redirout =>
    rintro _ ⟨⟩
    decide
  | pipe | bckgrnd | equals | redirin | redirOutApp | eocTok | «end» => trivial
  | _ => exact delimits

theorem spells_typed (lexical : ∀ token ∈ tokens, token.Lexical) (behind : List Char) :
    Spells behind tokens (typed tokens ++ behind) := by
  induction tokens with
  | nil => exact .nil
  | cons token tokens ih =>
    obtain ⟨here, others⟩ := List.forall_mem_cons.mp lexical
    rw [typed, List.flatMap_cons, List.append_assoc, List.append_assoc, List.singleton_append]
    exact .token token here (endsBefore_blank token _) (.blank ' ' rfl (ih others))

/-! ## Lines -/

/-- No token of a derivation closes a line. -/
theorem makes_unclosed {k : ℕ} {v : Option YyStype} {w : List Token} (makes : Makes names k v w) (notEnd : k ≠ 10) (notEoc : k ≠ 17) :
    ∀ token ∈ w, token.closes = false := by
  refine makes.rec (motive_1 := fun k _ w _ => k ≠ 10 → k ≠ 17 → ∀ token ∈ w, token.closes = false)
    (motive_2 := fun ks _ w _ => 10 ∉ ks → 17 ∉ ks → ∀ token ∈ w, token.closes = false) ?_ ?_ ?_ ?_ notEnd notEoc
  · rintro k v w ⟨token, rfl, -, rfl⟩ notEnd notEoc
    refine List.forall_mem_singleton.mpr ?_
    cases token <;> first | rfl | exact absurd rfl notEnd | exact absurd rfl notEoc
  · intro r vs w v _ _ ih _ _
    have inside : ∀ r : Rule, 10 ∉ r.rhs ∧ 17 ∉ r.rhs := by decide +kernel
    exact ih (inside r).1 (inside r).2
  · exact fun _ _ => List.forall_mem_nil _
  · intro k ks v vs w u _ _ ih here notEnd notEoc
    rw [List.mem_cons, not_or] at notEnd notEoc
    exact List.forall_mem_append.mpr ⟨ih notEnd.2 notEoc.2, here (Ne.symm notEnd.1) (Ne.symm notEoc.1)⟩

/-- A line of the grammar that the stacks can hold. -/
theorem line_of_reads {tree : Cmds} {closing : Token} (closes : closing.closes = true) (short : line.length + 4 < yymaxdepth)
    (interpretable : Interpretable names line) (reads : tree.Reads line) (rest : List Token) :
    Line names line closing rest :=
  ⟨makes_unclosed (cmds_makes names tree reads) (by decide) (by decide), closes, short, asserts_of_interpretable interpretable⟩

/-- A text that spells a line of the grammar is parsed to the holders of its derivation. -/
theorem yyparse_spelled {tree : Cmds} {behind : List Char} (spells : Spells ('\n' :: behind) line text)
    (short : line.length + 4 < yymaxdepth) (interpretable : Interpretable names line) (reads : tree.Reads line) :
    ∃ n holders p, top names tree = some holders ∧
      yyparse names (lex text) n = .ok (.done (.accept (some holders) false) p) ∧ p.yychar = none ∧ p.input = lex behind := by
  have isLine : Line names line .eocTok (lex behind) := line_of_reads rfl short interpretable reads (lex behind)
  have tokens : lex text = line ++ .eocTok :: lex behind := by
    rw [lex_spells spells, lex_newline]
  obtain ⟨n, result, p, ran, read, input, -⟩ := yyparse_parsed isLine
  obtain ⟨n', holders, p', made, ran'⟩ := yyparse_accepts isLine tree reads
  obtain ⟨rfl, -⟩ := Round.done.inj (DeterministicRun.run_unique ran ran' rfl rfl)
  exact ⟨n, holders, p, made, by rw [tokens]; exact ran, read, input⟩

end OsLabs.Quash
