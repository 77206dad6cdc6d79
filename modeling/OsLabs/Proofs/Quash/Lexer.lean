import Mathlib.Data.List.TakeWhile
import OsLabs.Model.Quash.Lexer
import OsLabs.Proofs.Quash.Spelling

/-! # What the lexer makes of a text

The lengths of the matches in front of a text, and the lexeme that is taken. A word ends in front of a
character that no string goes on with.
-/

namespace OsLabs.Quash

open MaximalMunch

variable {text rest pattern : List Char} {c : Char} {p : Char → Bool} {n : ℕ} {token : Token} {tokens : List Token}

/-! ## Lengths -/

/-- No word goes on with the rest. -/
def Delimits (rest : List Char) : Prop := ∀ c ∈ rest.head?, isStringChar c = false ∧ c ≠ '\'' ∧ c ≠ '\\'

theorem classLength_append (stops : ∀ c ∈ rest.head?, p c = false) (text : List Char) :
    classLength p (text ++ rest) = classLength p text := by
  rw [classLength, classLength]
  induction text with
  | nil =>
    cases rest with
    | nil => rfl
    | cons c rest => rw [List.nil_append, List.takeWhile_cons, stops c rfl]; rfl
  | cons c text ih =>
    rw [List.cons_append, List.takeWhile_cons, List.takeWhile_cons]
    split
    · rw [List.length_cons, List.length_cons, ih]
    · rfl

theorem classLength_le (p : Char → Bool) (text : List Char) : classLength p text ≤ text.length :=
  (List.takeWhile_sublist p).length_le

theorem classLength_eq_iff : classLength p text = text.length ↔ ∀ c ∈ text, p c = true := by
  rw [classLength, ← List.takeWhile_eq_self_iff]
  exact ⟨(List.takeWhile_sublist p).eq_of_length, fun same => congrArg List.length same⟩

theorem literalLength_le (pattern text : List Char) : literalLength pattern text ≤ text.length := by
  rw [literalLength]
  split
  · next isPrefix => exact (List.isPrefixOf_iff_prefix.mp isPrefix).length_le
  · exact Nat.zero_le _

/-- A keyword is matched within a word. -/
theorem literalLength_append (clean : ∀ c ∈ pattern, isStringChar c = true) (delimits : Delimits rest)
    (text : List Char) : literalLength pattern (text ++ rest) = literalLength pattern text := by
  have same : pattern.isPrefixOf (text ++ rest) = pattern.isPrefixOf text := by
    induction pattern generalizing text with
    | nil => cases text ++ rest <;> cases text <;> rfl
    | cons c pattern ih =>
      obtain ⟨here, behind⟩ := List.forall_mem_cons.mp clean
      cases text with
      | nil =>
        cases rest with
        | nil => rfl
        | cons d rest =>
          have different : (c == d) = false := by
            rw [beq_eq_false_iff_ne]
            rintro rfl
            exact Bool.false_ne_true ((delimits c rfl).1.symm.trans here)
          rw [List.nil_append, List.isPrefixOf_cons_cons, different]
          rfl
      | cons d text => rw [List.cons_append, List.isPrefixOf_cons_cons, List.isPrefixOf_cons_cons, ih behind]
  rw [literalLength, literalLength, same]

theorem literalLength_lt (nonempty : text ≠ []) (different : pattern ≠ text) : literalLength pattern text < text.length := by
  rw [literalLength]
  split
  · next isPrefix =>
    have isPrefix := List.isPrefixOf_iff_prefix.mp isPrefix
    refine lt_of_le_of_ne isPrefix.length_le fun same => different (isPrefix.eq_of_length same)
  · exact List.length_pos_iff.mpr nonempty

/-! ## Strings -/

theorem stringLength_char (isChar : isStringChar c = true) (rest : List Char) :
    stringLength n false (c :: rest) = n + 1 + stringLength 0 false rest := by
  have notBackslash : c ≠ '\\' := by
    rintro rfl
    exact absurd isChar (by decide)
  rw [stringLength, if_pos isChar]
  exact fun _ _ same _ => notBackslash same

theorem stringLength_quotedText (content : QuotedText text) :
    stringLength n true (text ++ '\'' :: rest) = n + text.length + 1 + stringLength 0 false rest := by
  induction content generalizing n with
  | nil =>
    rw [List.nil_append, stringLength]
    · rfl
    · nofun
  | @escape c text real content ih =>
    rw [List.cons_append, List.cons_append, stringLength, ih, List.length_cons, List.length_cons]
    omega
  | @char c text real notBackslash notQuote content ih =>
    rw [List.cons_append, stringLength, if_neg notQuote, if_neg notBackslash, ih, List.length_cons]
    · omega
    · rintro _ _ rfl
      exact absurd rfl notBackslash

theorem stringLength_part {part : List Char} (isPart : StringPart part) (rest : List Char) :
    stringLength 0 false (part ++ rest) = part.length + stringLength 0 false rest := by
  cases isPart with
  | @char c isOrdinary =>
    have isChar : isStringChar c = true := by
      simp only [ordinary, isStringChar, decide_eq_true_eq, List.mem_cons, not_or] at isOrdinary ⊢
      exact isOrdinary.2
    rw [List.singleton_append, stringLength_char isChar, List.length_singleton, Nat.zero_add]
  | escape real => rw [List.cons_append, List.singleton_append, stringLength]; rfl
  | quoted content =>
    rw [List.cons_append, List.append_assoc, List.singleton_append, stringLength, if_neg (by decide), if_pos rfl,
      stringLength_quotedText content, List.length_cons, List.length_append, List.length_singleton]
    · omega
    · nofun

theorem stringLength_delimited (delimits : Delimits rest) : stringLength 0 false rest = 0 := by
  cases rest with
  | nil => rw [stringLength]
  | cons c rest =>
    obtain ⟨notChar, notQuote, notBackslash⟩ := delimits c rfl
    rw [stringLength, notChar, if_neg Bool.false_ne_true, if_neg notQuote]
    exact fun _ _ same _ => notBackslash same

theorem stringLength_token (isToken : StringToken text) (delimits : Delimits rest) :
    stringLength 0 false (text ++ rest) = text.length := by
  induction isToken with
  | last isPart => rw [stringLength_part isPart, stringLength_delimited delimits, Nat.add_zero]
  | more isPart token ih => rw [List.append_assoc, stringLength_part isPart, ih, List.length_append]

/-! ## The rule that is taken -/

theorem covers : Covers LexRule.length .other lexRules := by
  intro input nonempty
  obtain ⟨c, rest, rfl⟩ := List.exists_cons_of_ne_nil nonempty
  by_cases newline : c = '\n'
  · subst newline
    have member : LexRule.literal "\n".toList .eocTok ∈ lexRules := by decide
    have least : LexRule.length _ ('\n' :: rest) ≤ (longest LexRule.length .other ('\n' :: rest) lexRules).2 :=
      le_longest _ member
    have matched : (LexRule.literal "\n".toList .eocTok).length ('\n' :: rest) = 1 := rfl
    omega
  · have least : LexRule.other.length (c :: rest) ≤ (longest LexRule.length .other (c :: rest) lexRules).2 :=
      last_le_longest _ _
    have matched : LexRule.other.length (c :: rest) = 1 := by rw [LexRule.length, if_neg newline]
    omega

/-- The rule at a place of the list takes the text. -/
theorem taken_eq {input : List Char} (k : ℕ) {rule : LexRule} (isRule : lexRules[k]? = some rule)
    (matched : rule.length input = n) (shorter : (lexRules.take k).all (fun rule => rule.length input < n) = true)
    (others : (lexRules.drop (k + 1)).all (fun rule => rule.length input ≤ n) = true)
    (least : LexRule.other.length input ≤ n) : longest LexRule.length .other input lexRules = (rule, n) := by
  have isRules : lexRules = lexRules.take k ++ rule :: lexRules.drop (k + 1) := by
    obtain ⟨inside, rfl⟩ := List.getElem?_eq_some_iff.mp isRule
    rw [← List.drop_eq_getElem_cons, List.take_append_drop]
  refine longest_eq isRules matched ?_ ?_ least
  · exact fun rule member => of_decide_eq_true (List.all_eq_true.mp shorter rule member)
  · exact fun rule member => of_decide_eq_true (List.all_eq_true.mp others rule member)

theorem lex_cons {rule : LexRule} (nonempty : text ≠ []) (best : longest LexRule.length .other (text ++ rest) lexRules = (rule, text.length)) :
    lex (text ++ rest) = (rule.token text).toList ++ lex rest := by
  have someInput : text ++ rest ≠ [] := List.append_ne_nil_of_left_ne_nil nonempty rest
  rw [lex, lexemes, lexemes_cons covers someInput best, List.take_left, List.drop_left, List.filterMap_cons]
  cases rule.token text <;> rfl

/-- `END` is returned at the end of the input alone. -/
theorem end_not_mem_lex (text : List Char) : .end ∉ lex text := by
  intro member
  obtain ⟨⟨rule, yytext⟩, isLexeme, returned⟩ := List.mem_filterMap.mp member
  have others : (lexRules.all fun rule => rule.token [] ≠ some .end) = true := rfl
  cases rule with
  | literal pattern token =>
    obtain isLast | isRule := lexemesFor_mem isLexeme
    · cases isLast
    · have other := List.all_eq_true.mp others _ isRule
      exact of_decide_eq_true other returned
  | _ => cases returned

/-! ## Words -/

/-- The rule matches the whole word. -/
def LexRule.Matches (word : List Char) : LexRule → Prop
  | .literal pattern _ => pattern = word
  | .exitTok => "exit".toList = word ∨ "quit".toList = word
  | .number => ∀ c ∈ word, c.isDigit = true
  | .id => IsName word
  | .simStr => ∀ c ∈ word, isSimChar c = true
  | .string => True
  | .comment | .whitesp => False
  | .other => word.length = 1

theorem notStringChar (stops : isStringChar c = false) :
    c.isDigit = false ∧ isIdentifierChar c = false ∧ isSimChar c = false := by
  have member : c ∈ [' ', '\t', '\r', '\n', '\'', '#', '<', '>', '=', '&', '|', '\\'] := by
    simpa only [isStringChar, decide_eq_false_iff_not, not_not] using stops
  have all : [' ', '\t', '\r', '\n', '\'', '#', '<', '>', '=', '&', '|', '\\'].all fun c =>
      !c.isDigit && !isIdentifierChar c && !isSimChar c := rfl
  simpa only [Bool.and_eq_true, Bool.not_eq_true', and_assoc] using List.all_eq_true.mp all c member

/-- What a string begins with. -/
def beginsString (c : Char) : Bool := isStringChar c || c = '\'' || c = '\\'

theorem StringToken.exists_cons (isToken : StringToken text) : ∃ c rest, text = c :: rest ∧ beginsString c = true := by
  have part {part : List Char} (isPart : StringPart part) : ∃ c rest, part = c :: rest ∧ beginsString c = true := by
    cases isPart with
    | @char c isOrdinary =>
      refine ⟨c, [], rfl, ?_⟩
      simp only [ordinary, beginsString, isStringChar, decide_eq_true_eq, List.mem_cons, not_or] at isOrdinary ⊢
      simp only [isOrdinary]
      rfl
    | escape real => exact ⟨_, _, rfl, rfl⟩
    | quoted content => exact ⟨_, _, rfl, rfl⟩
  cases isToken with
  | last isPart => exact part isPart
  | more isPart token =>
    obtain ⟨c, front, rfl, begins⟩ := part isPart
    exact ⟨c, _, rfl, begins⟩

theorem isBlank_begins (blank : isBlank c = true) : beginsString c = false := by
  have all : [' ', '\t', '\r'].all fun c => !beginsString c := rfl
  simpa only [Bool.not_eq_true'] using List.all_eq_true.mp all c (of_decide_eq_true blank)

theorem comment_length (notHash : c ≠ '#') (rest : List Char) : LexRule.comment.length (c :: rest) = 0 := by
  unfold LexRule.length
  split <;> simp_all

theorem QuotedText.real (content : QuotedText text) : ∀ c ∈ text, c ≠ nul := by
  induction content with
  | nil => exact fun c member => absurd member List.not_mem_nil
  | escape real _ ih => exact List.forall_mem_cons.mpr ⟨by decide, List.forall_mem_cons.mpr ⟨real, ih⟩⟩
  | char real _ _ _ ih => exact List.forall_mem_cons.mpr ⟨real, ih⟩

theorem StringPart.real (isPart : StringPart text) : ∀ c ∈ text, c ≠ nul := by
  cases isPart with
  | @char c isOrdinary =>
    simp only [ordinary, decide_eq_true_eq, List.mem_cons, not_or] at isOrdinary
    exact List.forall_mem_singleton.mpr isOrdinary.1
  | escape real => exact List.forall_mem_cons.mpr ⟨by decide, List.forall_mem_singleton.mpr real⟩
  | quoted content =>
    exact List.forall_mem_cons.mpr ⟨by decide, List.forall_mem_append.mpr ⟨content.real, List.forall_mem_singleton.mpr (by decide)⟩⟩

theorem StringToken.real (isToken : StringToken text) : ∀ c ∈ text, c ≠ nul := by
  induction isToken with
  | last isPart => exact isPart.real
  | more isPart _ ih => exact List.forall_mem_append.mpr ⟨isPart.real, ih⟩

theorem literals_clean {token : Token} (isRule : .literal pattern token ∈ lexRules) :
    (∀ c ∈ pattern, isStringChar c = true) ∨ ∃ c rest, pattern = c :: rest ∧ beginsString c = false := by
  have all : lexRules.all (fun rule => match rule with
      | .literal pattern _ => pattern.all isStringChar || pattern.any fun c => pattern.head? = some c && !beginsString c
      | _ => true) = true := rfl
  have here := List.all_eq_true.mp all _ isRule
  simp only [Bool.or_eq_true, List.all_eq_true, List.any_eq_true, Bool.and_eq_true, decide_eq_true_eq,
    Bool.not_eq_true'] at here
  obtain clean | ⟨c, -, first, other⟩ := here
  · exact .inl clean
  · obtain ⟨rest, rfl⟩ := List.head?_eq_some_iff.mp first
    exact .inr ⟨c, rest, rfl, other⟩

/-- What a keyword matches of a word. -/
theorem literalLength_word (pattern : List Char) (clean : ∀ c ∈ pattern, isStringChar c = true) (nonempty : text ≠ []) (delimits : Delimits rest) :
    literalLength pattern (text ++ rest) ≤ text.length ∧
      (literalLength pattern (text ++ rest) = text.length ↔ pattern = text) := by
  rw [literalLength_append clean delimits]
  refine ⟨literalLength_le pattern text, ?_, ?_⟩
  · intro same
    by_contra different
    exact absurd same (literalLength_lt nonempty different).ne
  · rintro rfl
    rw [literalLength, if_pos (List.isPrefixOf_iff_prefix.mpr (List.prefix_refl _))]

/-- What the rules match of a word. -/
theorem word_length (isWord : StringToken text) (delimits : Delimits rest) (rule : LexRule)
    (isRule : rule ∈ lexRules ∨ rule = .other) :
    rule.length (text ++ rest) ≤ text.length ∧ (rule.length (text ++ rest) = text.length ↔ rule.Matches text) := by
  obtain ⟨c, tail, whole, begins⟩ := isWord.exists_cons
  have nonempty : text ≠ [] := whole ▸ List.cons_ne_nil c tail
  have positive := List.length_pos_iff.mpr nonempty
  have stops (p : Char → Bool) (no : ∀ c, isStringChar c = false → p c = false) : ∀ c ∈ rest.head?, p c = false :=
    fun c behind => no c (delimits c behind).1
  have unmatched {rule : LexRule} (zero : rule.length (text ++ rest) = 0) (no : ¬ rule.Matches text) :
      rule.length (text ++ rest) ≤ text.length ∧ (rule.length (text ++ rest) = text.length ↔ rule.Matches text) := by
    rw [zero]
    exact ⟨Nat.zero_le _, iff_of_false positive.ne no⟩
  cases rule with
  | literal pattern token =>
    obtain isRule | isRule := isRule
    · obtain clean | ⟨d, front, rfl, other⟩ := literals_clean isRule
      · exact literalLength_word pattern clean nonempty delimits
      · -- an operator, which no word begins with
        have different : d ≠ c := by
          rintro rfl
          exact Bool.false_ne_true (other.symm.trans begins)
        refine unmatched ?_ ?_
        · rw [LexRule.length, literalLength, whole, List.cons_append, List.isPrefixOf_cons_cons, beq_false_of_ne different]
          rfl
        · rintro rfl
          exact different (List.cons.inj whole).1
    · cases isRule
  | exitTok =>
    obtain ⟨less, same⟩ := literalLength_word "exit".toList (forall_mem_of_all rfl) nonempty delimits
    obtain ⟨less', same'⟩ := literalLength_word "quit".toList (forall_mem_of_all rfl) nonempty delimits
    rw [LexRule.length, LexRule.Matches, ← same, ← same']
    omega
  | number =>
    rw [LexRule.length, classLength_append (stops _ fun c no => (notStringChar no).1)]
    exact ⟨classLength_le _ _, classLength_eq_iff⟩
  | id =>
    rw [whole, List.cons_append, LexRule.length, LexRule.Matches, IsName, List.length_cons]
    split
    · next isFirst =>
      rw [classLength_append (stops _ fun c no => (notStringChar no).2.1), Nat.add_comm, Nat.succ_le_succ_iff,
        Nat.succ_inj, classLength_eq_iff]
      exact ⟨classLength_le _ _, (and_iff_right isFirst).symm⟩
    · next notFirst => exact ⟨Nat.zero_le _, iff_of_false (Nat.succ_ne_zero _).symm fun isName => notFirst isName.1⟩
  | simStr =>
    rw [LexRule.length, classLength_append (stops _ fun c no => (notStringChar no).2.2)]
    exact ⟨classLength_le _ _, classLength_eq_iff⟩
  | string =>
    rw [LexRule.length, stringLength_token isWord delimits]
    exact ⟨le_rfl, iff_of_true rfl trivial⟩
  | comment =>
    have notHash : c ≠ '#' := by
      rintro rfl
      exact absurd begins (by decide)
    refine unmatched ?_ id
    rw [whole, List.cons_append, comment_length notHash]
  | whitesp =>
    refine unmatched ?_ id
    have notBlank : isBlank c = false := by
      rw [← Bool.not_eq_true]
      exact fun blank => Bool.false_ne_true ((isBlank_begins blank).symm.trans begins)
    rw [LexRule.length, whole, List.cons_append, classLength, List.takeWhile_cons, notBlank]
    rfl
  | other =>
    have notNewline : c ≠ '\n' := by
      rintro rfl
      exact absurd begins (by decide)
    rw [whole, List.cons_append, LexRule.length, if_neg notNewline, LexRule.Matches]
    exact ⟨Nat.succ_le_succ (Nat.zero_le _), eq_comm⟩

/-- The rule that takes a word. -/
theorem word_taken (isWord : StringToken text) (delimits : Delimits rest) (k : ℕ) {rule : LexRule}
    (isRule : lexRules[k]? = some rule) (takes : rule.Matches text) (none : ∀ rule ∈ lexRules.take k, ¬ rule.Matches text) :
    longest LexRule.length .other (text ++ rest) lexRules = (rule, text.length) := by
  have bound (rule : LexRule) (member : rule ∈ lexRules) := word_length isWord delimits rule (.inl member)
  refine taken_eq k isRule ((bound rule (List.mem_of_getElem? isRule)).2.mpr takes) ?_ ?_
    (word_length isWord delimits .other (.inr rfl)).1
  · refine List.all_eq_true.mpr fun rule member => decide_eq_true ?_
    obtain ⟨less, same⟩ := bound rule (List.mem_of_mem_take member)
    exact lt_of_le_of_ne less fun isSame => none rule member (same.mp isSame)
  · exact List.all_eq_true.mpr fun rule member => decide_eq_true (bound rule (List.mem_of_mem_drop member)).1

/-! ## Tokens -/

/-- How a token is spelled. -/
def Token.yytext : Token → List Char
  | .pipe => "|".toList
  | .bckgrnd => "&".toList
  | .equals => "=".toList
  | .redirin => "<".toList
  | .redirout => ">".toList
  | .redirOutApp => ">>".toList
  | .end => []
  | .echoTok => "echo".toList
  | .exportTok => "export".toList
  | .cdTok => "cd".toList
  | .pwdTok => "pwd".toList
  | .jobsTok => "jobs".toList
  | .killTok => "kill".toList
  | .eocTok => "\n".toList
  | .str text | .simStr text | .id text | .num text | .exitTok text => text

def commandNames : List (List Char) := ["echo", "export", "cd", "pwd", "jobs", "kill", "exit", "quit"].map String.toList

def operators : List (List Char) := ["|", "&", "=", "<", ">", ">>", "\n"].map String.toList

/-- The lexer can return the token, with its text. -/
def Token.Lexical : Token → Prop
  | .end => False
  | .exitTok text => "exit".toList = text ∨ "quit".toList = text
  | .num text => text ≠ [] ∧ ∀ c ∈ text, c.isDigit = true
  | .id text => IsName text ∧ text ∉ commandNames
  | .simStr text => text ≠ [] ∧ (∀ c ∈ text, isSimChar c = true ∧ c ≠ nul) ∧ (¬ ∀ c ∈ text, c.isDigit = true) ∧ ¬ IsName text
  | .str text => StringToken text ∧ ¬ ∀ c ∈ text, isSimChar c = true
  | _ => True

/-- The token ends where the rest begins. -/
def Token.EndsBefore (rest : List Char) : Token → Prop
  | .pipe | .bckgrnd | .equals | .redirin | .redirOutApp | .eocTok | .end => True
  | .redirout => ∀ c ∈ rest.head?, c ≠ '>'
  | _ => Delimits rest

theorem stringToken_of_chars (nonempty : text ≠ []) (chars : ∀ c ∈ text, isStringChar c = true ∧ c ≠ nul) : StringToken text := by
  have part (c : Char) (isChar : isStringChar c = true ∧ c ≠ nul) : StringPart [c] := by
    refine .char ?_
    simp only [ordinary, isStringChar, decide_eq_true_eq, List.mem_cons, not_or] at isChar ⊢
    exact ⟨isChar.2, isChar.1⟩
  induction text with
  | nil => exact absurd rfl nonempty
  | cons c text ih =>
    obtain ⟨here, behind⟩ := List.forall_mem_cons.mp chars
    by_cases empty : text = []
    · subst empty
      exact .last (part c here)
    · exact .more (part c here) (ih empty behind)

theorem isIdentifierChar_chars (isChar : isIdentifierChar c = true) : isSimChar c = true ∧ c ≠ nul := by
  have isString : isStringChar c = true := by
    by_contra no
    exact Bool.false_ne_true ((notStringChar (Bool.not_eq_true _ ▸ no)).2.1.symm.trans isChar)
  refine ⟨?_, ?_⟩
  · rw [isSimChar, isString, Bool.true_and, decide_eq_true_eq]
    rintro rfl
    exact absurd isChar (by decide)
  · rintro rfl
    exact absurd isChar (by decide)

theorem isDigit_chars (isDigit : c.isDigit = true) : isIdentifierChar c = true := by
  rw [isIdentifierChar, Char.isAlphanum, isDigit, Bool.or_true, Bool.true_or]

theorem isName_chars (isName : IsName text) : text ≠ [] ∧ ∀ c ∈ text, isIdentifierChar c = true := by
  cases text with
  | nil => exact isName.elim
  | cons c text =>
    refine ⟨List.cons_ne_nil c text, List.forall_mem_cons.mpr ⟨?_, isName.2⟩⟩
    have first := isName.1
    simp only [isFirstIdentifierChar, isIdentifierChar, Char.isAlphanum, Bool.or_eq_true] at first ⊢
    exact first.imp_left .inl

/-- A name does not begin with a digit. -/
theorem isName_not_digits (isName : IsName text) : ¬ ∀ c ∈ text, c.isDigit = true := by
  cases text with
  | nil => exact isName.elim
  | cons c text =>
    intro digits
    have digit := digits c (List.mem_cons_self ..)
    have first : (decide (65 ≤ c.val ∧ c.val ≤ 90) || decide (97 ≤ c.val) && decide (c.val ≤ 122)
      || c == '_') = true := isName.1
    simp only [Char.isDigit, Bool.or_eq_true, Bool.and_eq_true, decide_eq_true_eq, beq_iff_eq, ge_iff_le,
      UInt32.le_iff_toNat_le] at first digit
    obtain ⟨⟨low, -⟩ | ⟨low, -⟩⟩ | rfl := first
    · have letter : 65 ≤ c.val.toNat := low
      have limit : c.val.toNat ≤ 57 := digit.2
      omega
    · have letter : 97 ≤ c.val.toNat := low
      have limit : c.val.toNat ≤ 57 := digit.2
      omega
    · exact absurd digit (by decide)

theorem strdup_eq (real : ∀ c ∈ text, c ≠ nul) : strdup text = text := by
  rw [strdup, List.takeWhile_eq_self_iff]
  exact fun c member => decide_eq_true (real c member)

/-- A word of simple characters. -/
theorem lex_word {rule : LexRule} (nonempty : text ≠ []) (chars : ∀ c ∈ text, isSimChar c = true ∧ c ≠ nul)
    (delimits : Delimits rest) (k : ℕ) (isRule : lexRules[k]? = some rule) (takes : rule.Matches text)
    (none : ∀ rule ∈ lexRules.take k, ¬ rule.Matches text) (returned : rule.token text = some token) :
    lex (text ++ rest) = token :: lex rest := by
  have isWord : StringToken text := stringToken_of_chars nonempty fun c member => by
    obtain ⟨isSim, real⟩ := chars c member
    rw [isSimChar, Bool.and_eq_true] at isSim
    exact ⟨isSim.1, real⟩
  rw [lex_cons nonempty (word_taken isWord delimits k isRule takes none), returned]
  rfl

/-- An operator, or the end of a line, whatever comes behind it. -/
theorem lex_operator (c : Char) (tail : List Char) (k : ℕ) (rule : LexRule) (isRule : lexRules[k]? = some rule)
    (matched : rule.length (c :: tail ++ rest) = (c :: tail).length)
    (shorter : (lexRules.take k).all (fun rule => rule.length (c :: tail ++ rest) < (c :: tail).length) = true)
    (others : (lexRules.drop (k + 1)).all (fun rule => rule.length (c :: tail ++ rest) ≤ (c :: tail).length) = true)
    (least : LexRule.other.length (c :: tail ++ rest) ≤ (c :: tail).length)
    (returned : rule.token (c :: tail) = some token) : lex (c :: tail ++ rest) = token :: lex rest := by
  rw [lex_cons (List.cons_ne_nil c tail) (taken_eq k isRule matched shorter others least), returned]
  rfl

theorem lex_newline (rest : List Char) : lex ('\n' :: rest) = .eocTok :: lex rest :=
  lex_operator '\n' [] 12 (.literal ['\n'] .eocTok) rfl rfl rfl rfl (Nat.zero_le _) rfl

theorem lex_redirout (ends : ∀ c ∈ rest.head?, c ≠ '>') : lex ('>' :: rest) = .redirout :: lex rest := by
  have single : literalLength ['>', '>'] ('>' :: rest) = 0 := by
    cases rest with
    | nil => rfl
    | cons c rest =>
      have different : ('>' == c) = false := beq_false_of_ne (ends c rfl).symm
      rw [literalLength, List.isPrefixOf_cons_cons, List.isPrefixOf_cons_cons, different]
      rfl
  have others : (lexRules.drop 5).all (fun rule => rule.length (['>'] ++ rest) ≤ 1) = true := by
    change (decide (literalLength ['>', '>'] ('>' :: rest) ≤ 1) && _) = true
    rw [single]
    rfl
  exact lex_operator '>' [] 4 (.literal ['>'] .redirout) rfl rfl rfl others le_rfl rfl

/-- A keyword. -/
theorem lex_keyword (delimits : Delimits rest) (k : ℕ) (text : List Char) (rule : LexRule)
    (isRule : lexRules[k]? = some rule) (nonempty : text ≠ []) (chars : text.all isIdentifierChar = true)
    (takes : rule.Matches text) (none : ∀ rule ∈ lexRules.take k, ¬ rule.Matches text)
    (returned : rule.token text = some token) : lex (text ++ rest) = token :: lex rest :=
  lex_word nonempty (fun c member => isIdentifierChar_chars (List.all_eq_true.mp chars c member)) delimits k isRule
    takes none returned

/-- The texts that are matched as they stand. -/
theorem fixed_matches {rule : LexRule} (isRule : rule ∈ lexRules.take 14) (takes : rule.Matches text) :
    text ∈ operators ∨ text ∈ commandNames := by
  simp only [lexRules, List.take, List.mem_cons, List.not_mem_nil, or_false] at isRule
  rcases isRule with rfl | rfl | rfl | rfl | rfl | rfl | rfl | rfl | rfl | rfl | rfl | rfl | rfl | rfl
  all_goals first | (obtain rfl := takes; decide) | (obtain rfl | rfl := takes <;> decide)

/-- A word of characters of which every fixed text lacks one. -/
theorem not_mem_of_chars {texts : List (List Char)} (chars : ∀ c ∈ text, p c = true)
    (others : (texts.all fun text => text.any fun c => !p c) = true) : text ∉ texts := by
  intro member
  obtain ⟨c, inside, other⟩ := List.any_eq_true.mp (List.all_eq_true.mp others text member)
  rw [chars c inside] at other
  exact absurd other (by decide)

theorem commandNames_names (member : text ∈ commandNames) : IsName text := by
  have all : (commandNames.all fun text => text.head?.any isFirstIdentifierChar && text.tail.all isIdentifierChar) = true := rfl
  have here := List.all_eq_true.mp all text member
  cases text with
  | nil => exact absurd here (by decide)
  | cons c text => simpa only [IsName, List.head?_cons, Option.any_some, List.tail_cons, Bool.and_eq_true, List.all_eq_true] using here

/-- No rule in front of these takes a word that has no fixed text and is no number. -/
theorem unfixed {rule : LexRule} (noOperator : text ∉ operators) (noCommand : text ∉ commandNames) (member : rule ∈ lexRules.take 14) :
    ¬ rule.Matches text := fun takes => (fixed_matches member takes).elim noOperator noCommand

theorem lex_token (lexical : token.Lexical) (ends : token.EndsBefore rest) : lex (token.yytext ++ rest) = token :: lex rest := by
  cases token with
  | pipe => exact lex_operator '|' [] 0 (.literal ['|'] .pipe) rfl rfl rfl rfl le_rfl rfl
  | bckgrnd => exact lex_operator '&' [] 1 (.literal ['&'] .bckgrnd) rfl rfl rfl rfl le_rfl rfl
  | equals => exact lex_operator '=' [] 2 (.literal ['='] .equals) rfl rfl rfl rfl le_rfl rfl
  | redirin => exact lex_operator '<' [] 3 (.literal ['<'] .redirin) rfl rfl rfl rfl le_rfl rfl
  | redirout => exact lex_redirout ends
  | redirOutApp =>
    exact lex_operator '>' ['>'] 5 (.literal ['>', '>'] .redirOutApp) rfl rfl rfl rfl (Nat.le_of_ble_eq_true rfl) rfl
  | eocTok => exact lex_newline rest
  | «end» => exact lexical.elim
  | echoTok =>
    exact lex_keyword ends 6 "echo".toList (.literal "echo".toList .echoTok) rfl (by decide) rfl rfl
      (by simp [lexRules, LexRule.Matches]) rfl
  | exportTok =>
    exact lex_keyword ends 7 "export".toList (.literal "export".toList .exportTok) rfl (by decide) rfl rfl
      (by simp [lexRules, LexRule.Matches]) rfl
  | cdTok =>
    exact lex_keyword ends 8 "cd".toList (.literal "cd".toList .cdTok) rfl (by decide) rfl rfl
      (by simp [lexRules, LexRule.Matches]) rfl
  | pwdTok =>
    exact lex_keyword ends 9 "pwd".toList (.literal "pwd".toList .pwdTok) rfl (by decide) rfl rfl
      (by simp [lexRules, LexRule.Matches]) rfl
  | jobsTok =>
    exact lex_keyword ends 10 "jobs".toList (.literal "jobs".toList .jobsTok) rfl (by decide) rfl rfl
      (by simp [lexRules, LexRule.Matches]) rfl
  | killTok =>
    exact lex_keyword ends 11 "kill".toList (.literal "kill".toList .killTok) rfl (by decide) rfl rfl
      (by simp [lexRules, LexRule.Matches]) rfl
  | exitTok text =>
    obtain rfl | rfl := lexical
    · exact lex_keyword ends 13 "exit".toList .exitTok rfl (by decide) rfl (.inl rfl) (by simp [lexRules, LexRule.Matches]) rfl
    · exact lex_keyword ends 13 "quit".toList .exitTok rfl (by decide) rfl (.inr rfl) (by simp [lexRules, LexRule.Matches]) rfl
  | num text =>
    obtain ⟨nonempty, digits⟩ := lexical
    have chars : ∀ c ∈ text, isSimChar c = true ∧ c ≠ nul := fun c member =>
      isIdentifierChar_chars (isDigit_chars (digits c member))
    exact lex_word nonempty chars ends 14 rfl digits
      (fun rule member => unfixed (not_mem_of_chars digits rfl) (not_mem_of_chars digits rfl) member)
      (congrArg (fun text => some (Token.num text)) (strdup_eq fun c member => (chars c member).2))
  | id text =>
    obtain ⟨isName, notCommand⟩ := lexical
    obtain ⟨nonempty, letters⟩ := isName_chars isName
    have chars : ∀ c ∈ text, isSimChar c = true ∧ c ≠ nul := fun c member => isIdentifierChar_chars (letters c member)
    have noNumber : ¬ LexRule.Matches text .number := isName_not_digits isName
    refine lex_word nonempty chars ends 15 rfl isName ?_
      (congrArg (fun text => some (Token.id text)) (strdup_eq fun c member => (chars c member).2))
    exact List.forall_mem_append.mpr
      ⟨fun rule member => unfixed (not_mem_of_chars letters rfl) notCommand member, List.forall_mem_singleton.mpr noNumber⟩
  | simStr text =>
    obtain ⟨nonempty, chars, noNumber, noName⟩ := lexical
    have isSim : ∀ c ∈ text, isSimChar c = true := fun c member => (chars c member).1
    have none : ∀ rule ∈ lexRules.take 14 ++ [.number, .id], ¬ rule.Matches text := List.forall_mem_append.mpr
      ⟨fun rule member => unfixed (not_mem_of_chars isSim rfl) (fun member => noName (commandNames_names member)) member,
        List.forall_mem_cons.mpr ⟨noNumber, List.forall_mem_singleton.mpr noName⟩⟩
    exact lex_word nonempty chars ends 16 rfl isSim none
      (congrArg (fun text => some (Token.simStr text)) (strdup_eq fun c member => (chars c member).2))
  | str text =>
    obtain ⟨isToken, special⟩ := lexical
    obtain ⟨c, tail, whole, begins⟩ := isToken.exists_cons
    have nonempty : text ≠ [] := whole ▸ List.cons_ne_nil c tail
    have noName : ¬ IsName text := fun isName =>
      special fun c member => (isIdentifierChar_chars ((isName_chars isName).2 c member)).1
    have noNumber : ¬ ∀ c ∈ text, c.isDigit = true := fun digits =>
      special fun c member => (isIdentifierChar_chars (isDigit_chars (digits c member))).1
    have noOperator : text ∉ operators := fun member => by
      have all : (operators.all fun text => text.head?.any fun c => !beginsString c) = true := rfl
      have here := List.all_eq_true.mp all text member
      rw [whole, List.head?_cons, Option.any_some, begins] at here
      exact absurd here (by decide)
    have none : ∀ rule ∈ lexRules.take 14 ++ [.number, .id, .simStr], ¬ rule.Matches text := List.forall_mem_append.mpr
      ⟨fun rule member => unfixed noOperator (fun member => noName (commandNames_names member)) member,
        List.forall_mem_cons.mpr ⟨noNumber, List.forall_mem_cons.mpr ⟨noName, List.forall_mem_singleton.mpr special⟩⟩⟩
    have taken := word_taken isToken ends 17 rfl trivial none
    have copied : strdup text = text := strdup_eq fun c member => isToken.real c member
    change lex (text ++ rest) = _
    rw [lex_cons nonempty taken, LexRule.token, copied]
    rfl

/-! ## Texts -/

theorem classLength_cons (isClass : p c = true) (text : List Char) : classLength p (c :: text) = classLength p text + 1 := by
  rw [classLength, List.takeWhile_cons, if_pos isClass, List.length_cons, classLength]

theorem drop_classLength (p : Char → Bool) (text : List Char) : text.drop (classLength p text) = text.dropWhile p := by
  have dropped : (text.takeWhile p ++ text.dropWhile p).drop (text.takeWhile p).length = text.dropWhile p := List.drop_left
  rw [List.takeWhile_append_dropWhile] at dropped
  exact dropped

theorem blank_taken (blank : isBlank c = true) (text : List Char) :
    longest LexRule.length .other (c :: text) lexRules = (.whitesp, classLength isBlank (c :: text)) := by
  have members : c ∈ [' ', '\t', '\r'] := of_decide_eq_true blank
  rw [classLength_cons blank]
  simp only [List.mem_cons, List.not_mem_nil, or_false] at members
  obtain rfl | rfl | rfl := members
  · exact taken_eq 19 rfl rfl rfl rfl (Nat.succ_le_succ (Nat.zero_le _))
  · exact taken_eq 19 rfl rfl rfl rfl (Nat.succ_le_succ (Nat.zero_le _))
  · exact taken_eq 19 rfl rfl rfl rfl (Nat.succ_le_succ (Nat.zero_le _))

/-- The blanks in front of a text are skipped. -/
theorem lex_dropWhile (text : List Char) : lex text = lex (text.dropWhile isBlank) := by
  cases text with
  | nil => rfl
  | cons c text =>
    cases blank : isBlank c with
    | false => rw [List.dropWhile_cons, blank, if_neg Bool.false_ne_true]
    | true =>
      rw [lex, lexemes, lexemes_cons covers (List.cons_ne_nil c text) (blank_taken blank text), drop_classLength]
      rfl

theorem lex_blank (blank : isBlank c = true) (text : List Char) : lex (c :: text) = lex text := by
  rw [lex_dropWhile (c :: text), List.dropWhile_cons, if_pos blank, ← lex_dropWhile]

/-- A comment goes to the end of the line. -/
theorem lex_comment (inside : '\n' ∉ text) (ends : ∀ c ∈ rest.head?, c = '\n') : lex ('#' :: text ++ rest) = lex rest := by
  have all : ∀ c ∈ text, decide (c ≠ '\n') = true := by
    intro c member
    rw [decide_eq_true_eq]
    rintro rfl
    exact inside member
  have length : classLength (· ≠ '\n') (text ++ rest) = text.length := by
    rw [classLength_append fun c behind => by rw [ends c behind]; rfl, classLength_eq_iff.mpr all]
  have taken : longest LexRule.length .other ('#' :: text ++ rest) lexRules = (.comment, ('#' :: text).length) :=
    taken_eq 18 rfl (by rw [List.cons_append, LexRule.length, length, List.length_cons, Nat.add_comm]) rfl rfl
      (Nat.succ_le_succ (Nat.zero_le _))
  rw [lex_cons (List.cons_ne_nil _ _) taken]
  rfl

/-- A text that spells tokens in front of `behind`, with blanks and comments. -/
inductive Spells (behind : List Char) : List Token → List Char → Prop
  | nil : Spells behind [] behind
  | blank {tokens : List Token} {text : List Char} (c : Char) (isBlank : isBlank c = true)
      (rest : Spells behind tokens text) : Spells behind tokens (c :: text)
  | comment {tokens : List Token} {text : List Char} (words : List Char) (inside : '\n' ∉ words)
      (ends : ∀ c ∈ text.head?, c = '\n') (rest : Spells behind tokens text) :
      Spells behind tokens ('#' :: words ++ text)
  | token {tokens : List Token} {text : List Char} (token : Token) (lexical : token.Lexical)
      (ends : token.EndsBefore text) (rest : Spells behind tokens text) :
      Spells behind (token :: tokens) (token.yytext ++ text)

theorem lex_spells {behind : List Char} (spells : Spells behind tokens text) : lex text = tokens ++ lex behind := by
  induction spells with
  | nil => rfl
  | blank c isBlank rest ih => rw [lex_blank isBlank, ih]
  | comment words inside ends rest ih => rw [lex_comment inside ends, ih]
  | token token lexical ends rest ih => rw [lex_token lexical ends, ih, List.cons_append]

end OsLabs.Quash
