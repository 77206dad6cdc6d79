import OsLabs.Proofs.Quash.Parse
import OsLabs.Proofs.Quash.TypedLines

/-! # A pipeline that is typed is what runs

Whatever words, files and directions a pipeline has, it can be typed: behind the lexer, the parser and
the interpreter of quoted strings stand holders with these words and files, and flags for their places.
-/

namespace OsLabs.Quash

/-- A command of a pipeline. The output file may be appended to. -/
structure Invocation where
  program : List Char
  args : List (List Char)
  input : Option (List Char)
  output : Option (Bool × List Char)
  background : Bool

namespace Invocation

variable {names : Names} {invocation : Invocation}

/-- No word has a NUL. -/
structure Real (invocation : Invocation) : Prop where
  program : ∀ c ∈ invocation.program, c ≠ nul
  args : ∀ arg ∈ invocation.args, ∀ c ∈ arg, c ≠ nul
  input : ∀ file ∈ invocation.input, ∀ c ∈ file, c ≠ nul
  output : ∀ file ∈ invocation.output, ∀ c ∈ file.2, c ≠ nul

def quoted (word : List Char) : StringTree := .first (.str (quote word))

def argsTree (arg : List Char) : List (List Char) → CmdArguments
  | [] => .last (quoted arg)
  | next :: args => .more (quoted arg) (argsTree next args)

def cmdTree (invocation : Invocation) : Cmd :=
  match invocation.args with
  | [] => .alone (.str (quote invocation.program))
  | arg :: args => .arguments (.str (quote invocation.program)) (argsTree arg args)

def outputMark (append : Bool) : RedirMark := if append then .redirOutApp else .redirOut

def redirTree (invocation : Invocation) : Option RedirInner :=
  match invocation.input, invocation.output with
  | none, none => none
  | some file, none => some (.last .redirIn (quoted file))
  | none, some (append, file) => some (.last (outputMark append) (quoted file))
  | some input, some (append, file) => some (.more .redirIn (quoted input) (.last (outputMark append) (quoted file)))

/-- `program args < input > output &`. -/
def tree (invocation : Invocation) : CmdTop := ⟨.cmd invocation.cmdTree, invocation.redirTree, invocation.background⟩

def tokens (invocation : Invocation) : List Token :=
  invocation.cmdTree.tokens ++ redirTokens invocation.redirTree ++ bgTokens invocation.background

/-- The arguments that `execvp` gets. -/
def argv (invocation : Invocation) : CmdStrs := (invocation.program :: invocation.args).map some ++ [none]

theorem string_quoted (names : Names) {word : List Char} (real : ∀ c ∈ word, c ≠ nul) :
    string names (quoted word) = some word :=
  firstString_quote names real

theorem cmdArguments_tree (names : Names) {arg : List Char} {args : List (List Char)} (real : ∀ word ∈ arg :: args, ∀ c ∈ word, c ≠ nul) :
    cmdArguments names (argsTree arg args) = some ((arg :: args).map some ++ [none]) := by
  induction args generalizing arg with
  | nil =>
    rw [argsTree, cmdArguments, string_quoted names (real arg (List.mem_cons_self ..))]
    rfl
  | cons next args ih =>
    obtain ⟨here, behind⟩ := List.forall_mem_cons.mp real
    rw [argsTree, cmdArguments, string_quoted names here, ih behind]
    rfl

theorem cmd_tree (names : Names) (real : invocation.Real) : cmd names invocation.cmdTree = some invocation.argv := by
  rw [cmdTree, argv]
  cases whole : invocation.args with
  | nil =>
    simp only [cmd, firstString_quote names real.program]
    rfl
  | cons arg args =>
    have words := real.args
    rw [whole] at words
    simp only [cmd, firstString_quote names real.program, cmdArguments_tree names words]
    rfl

theorem redir_tree (names : Names) (real : invocation.Real) :
    redir names invocation.redirTree = some
      ⟨invocation.input, invocation.output.map (·.2), (invocation.output.map (·.1)).getD false⟩ := by
  obtain ⟨program, args, input, output, background⟩ := invocation
  have inputs := real.input
  have outputs := real.output
  cases input with
  | none =>
    cases output with
    | none => rfl
    | some file =>
      obtain ⟨append, file⟩ := file
      simp only [redirTree, redir, redirInner, string_quoted names (outputs _ rfl)]
      cases append <;> rfl
  | some input =>
    cases output with
    | none =>
      simp only [redirTree, redir, redirInner, string_quoted names (inputs _ rfl)]
      rfl
    | some file =>
      obtain ⟨append, file⟩ := file
      simp only [redirTree, redir, redirInner, string_quoted names (outputs _ rfl), string_quoted names (inputs _ rfl)]
      cases append <;> rfl

/-- What `cmd_top` makes of a command. -/
theorem cmdTop_tree (names : Names) (real : invocation.Real) :
    ∃ holder, cmdTop names invocation.tree = some holder ∧ holder.cmd = .generic invocation.argv ∧
      holder.redirectIn = invocation.input ∧ holder.redirectOut = invocation.output.map (·.2) ∧
      decodeFlags holder.flags = ⟨invocation.input.isSome, invocation.output.isSome,
        (invocation.output.map (·.1)).getD false, false, false, invocation.background⟩ := by
  have content : cmdContent names (.cmd invocation.cmdTree) = some (.generic invocation.argv) := by
    rw [cmdContent, cmd_tree names real]
    rfl
  have decoded := decodeFlags_cmdTop ((invocation.output.map (·.1)).getD false) invocation.output.isSome
    invocation.input.isSome invocation.background
  have made : ∃ flags, cmdTop names invocation.tree =
      some (mkCommandHolder invocation.input (invocation.output.map (·.2)) flags (.generic invocation.argv)) ∧
      decodeFlags flags = ⟨invocation.input.isSome, invocation.output.isSome,
        (invocation.output.map (·.1)).getD false, false, false, invocation.background⟩ := by
    simp only [cmdTop, tree, content, redir_tree names real]
    refine ⟨_, rfl, Eq.trans ?_ decoded⟩
    cases invocation.input <;> cases invocation.output <;> rfl
  obtain ⟨flags, made, decodes⟩ := made
  exact ⟨_, made, rfl, rfl, rfl, decodes⟩

/-- An operator or a quoted word. -/
def IsTyped (token : Token) : Prop :=
  token ∈ [Token.pipe, .bckgrnd, .redirin, .redirout, .redirOutApp] ∨ ∃ word, token = .str (quote word) ∧ ∀ c ∈ word, c ≠ nul

theorem isTyped_word {word : List Char} (real : ∀ c ∈ word, c ≠ nul) : IsTyped (.str (quote word)) :=
  .inr ⟨word, rfl, real⟩

theorem isTyped_args {arg : List Char} {args : List (List Char)} (real : ∀ word ∈ arg :: args, ∀ c ∈ word, c ≠ nul) :
    ∀ token ∈ (argsTree arg args).tokens, IsTyped token := by
  induction args generalizing arg with
  | nil => exact List.forall_mem_singleton.mpr (isTyped_word (real arg (List.mem_cons_self ..)))
  | cons next args ih =>
    obtain ⟨here, behind⟩ := List.forall_mem_cons.mp real
    exact List.forall_mem_cons.mpr ⟨isTyped_word here, ih behind⟩

theorem isTyped_tokens (real : invocation.Real) : ∀ token ∈ invocation.tokens, IsTyped token := by
  obtain ⟨program, args, input, output, background⟩ := invocation
  refine List.forall_mem_append.mpr ⟨List.forall_mem_append.mpr ⟨?_, ?_⟩, ?_⟩
  · cases args with
    | nil => exact List.forall_mem_singleton.mpr (isTyped_word real.program)
    | cons arg args => exact List.forall_mem_cons.mpr ⟨isTyped_word real.program, isTyped_args real.args⟩
  · have clause (mark : RedirMark) {file : List Char} (real : ∀ c ∈ file, c ≠ nul) :
        ∀ token ∈ [mark.token, .str (quote file)], IsTyped token :=
      List.forall_mem_cons.mpr ⟨.inl (by cases mark <;> decide), List.forall_mem_singleton.mpr (isTyped_word real)⟩
    cases input with
    | none =>
      cases output with
      | none => exact List.forall_mem_nil _
      | some file => exact clause _ (real.output file rfl)
    | some input =>
      cases output with
      | none => exact clause _ (real.input input rfl)
      | some file =>
        exact List.forall_mem_append.mpr ⟨clause .redirIn (real.input input rfl), clause _ (real.output file rfl)⟩
  · cases background with
    | false => exact List.forall_mem_nil _
    | true => exact List.forall_mem_singleton.mpr (.inl (by decide))

end Invocation

/-! ## Pipelines -/

def pipelineTree (first : Invocation) : List Invocation → Cmds
  | [] => .last first.tree
  | next :: rest => .pipe first.tree (pipelineTree next rest)

def pipelineTokens (first : Invocation) : List Invocation → List Token
  | [] => first.tokens
  | next :: rest => first.tokens ++ .pipe :: pipelineTokens next rest

variable {names : Names} {first : Invocation} {rest : List Invocation}

theorem reads_pipeline (first : Invocation) (rest : List Invocation) :
    (pipelineTree first rest).Reads (pipelineTokens first rest) := by
  induction rest generalizing first with
  | nil => exact ⟨_, rfl, rfl⟩
  | cons next rest ih => exact ⟨_, _, ⟨_, rfl, rfl⟩, ih next, rfl⟩

theorem tops_pipeline (first : Invocation) (rest : List Invocation) :
    (pipelineTree first rest).tops = (first :: rest).map Invocation.tree := by
  induction rest generalizing first with
  | nil => rfl
  | cons next rest ih =>
    rw [pipelineTree, Cmds.tops, ih]
    rfl

theorem isTyped_pipeline (real : ∀ invocation ∈ first :: rest, invocation.Real) :
    ∀ token ∈ pipelineTokens first rest, Invocation.IsTyped token := by
  induction rest generalizing first with
  | nil => exact Invocation.isTyped_tokens (real first (List.mem_cons_self ..))
  | cons next rest ih =>
    obtain ⟨here, behind⟩ := List.forall_mem_cons.mp real
    exact List.forall_mem_append.mpr
      ⟨Invocation.isTyped_tokens here, List.forall_mem_cons.mpr ⟨.inl (by decide), ih behind⟩⟩

/-- The lexer returns what is typed, and the assertions in the actions hold. -/
theorem typed_lexical {tokens : List Token} (isTyped : ∀ token ∈ tokens, Invocation.IsTyped token) (names : Names) :
    (∀ token ∈ tokens, token.Lexical) ∧ Interpretable names tokens := by
  refine ⟨?_, ?_, ?_⟩
  · intro token member
    obtain operator | ⟨word, rfl, real⟩ := isTyped token member
    · simp only [List.mem_cons, List.not_mem_nil, or_false] at operator
      obtain rfl | rfl | rfl | rfl | rfl := operator <;> trivial
    · exact quote_lexical real
  · intro member
    obtain operator | ⟨word, same, -⟩ := isTyped _ member
    · exact absurd operator (by decide)
    · cases same
  · intro text member
    obtain operator | ⟨word, same, real⟩ := isTyped _ member
    · simp at operator
    · obtain rfl := Token.str.inj same
      rw [quote_interpreted _ real]
      rfl

/-- The holder of a command of a pipeline of `length` commands, of which `behind` and it are the last. -/
structure HolderFor (invocation : Invocation) (i length : ℕ) (behind : List Invocation) (holder : ParsedHolder) : Prop where
  cmd : holder.cmd = .generic invocation.argv
  input : holder.redirectIn = invocation.input
  output : holder.redirectOut = invocation.output.map (·.2)
  flags : decodeFlags holder.flags = {
    redirectIn := invocation.input.isSome && i = 0
    redirectOut := invocation.output.isSome && i + 1 = length
    redirectAppend := (invocation.output.map (·.1)).getD false && i + 1 = length
    pipeIn := 0 < i
    pipeOut := i + 1 < length
    background := (invocation :: behind).any Invocation.background }

/-- Every pipeline can be typed. -/
theorem typed_pipeline (names : Names) (first : Invocation) (rest : List Invocation)
    (real : ∀ invocation ∈ first :: rest, invocation.Real) (short : (pipelineTokens first rest).length + 4 < yymaxdepth)
    (behind : List Char) :
    ∃ n holders p, yyparse names (lex (typed (pipelineTokens first rest) ++ '\n' :: behind)) n =
        .ok (.done (.accept (some (holders ++ [mkCommandHolder none none 0 .eoc])) false) p) ∧
      p.yychar = none ∧ p.input = lex behind ∧ holders.length = rest.length + 1 ∧
      ∀ i invocation holder, (first :: rest)[i]? = some invocation → holders[i]? = some holder →
        HolderFor invocation i (rest.length + 1) ((first :: rest).drop (i + 1)) holder := by
  obtain ⟨lexical, interpretable⟩ := typed_lexical (isTyped_pipeline real) names
  obtain ⟨n, returned, p, made, ran, read, input⟩ :=
    yyparse_spelled (spells_typed lexical ('\n' :: behind)) short interpretable (reads_pipeline first rest)
  have accepted : ∀ c ∈ (pipelineTree first rest).tops, (cmdTop names c).isSome := by
    intro c member
    rw [tops_pipeline] at member
    obtain ⟨invocation, isMember, rfl⟩ := List.mem_map.mp member
    obtain ⟨holder, made, -⟩ := Invocation.cmdTop_tree names (real invocation isMember)
    exact Option.isSome_iff_exists.mpr ⟨holder, made⟩
  obtain ⟨holders, built, piped⟩ := cmds_spec names _ accepted
  have same : returned = holders ++ [mkCommandHolder none none 0 .eoc] := by
    rw [top, built] at made
    exact (Option.some.inj made).symm
  subst same
  refine ⟨n, holders, p, ran, read, input, ?_, ?_⟩
  · rw [piped.length_eq, tops_pipeline, List.length_map, List.length_cons]
  · intro i invocation holder command here
    have isTop : (pipelineTree first rest).tops[i]? = some invocation.tree := by
      rw [tops_pipeline, List.getElem?_map, command]
      rfl
    obtain ⟨raw, made, cmd, input, output, flags⟩ := piped.placed isTop here
    obtain ⟨raw', made', cmd', input', output', flags'⟩ :=
      Invocation.cmdTop_tree names (real invocation (List.mem_of_getElem? command))
    obtain rfl : raw = raw' := Option.some.inj (made.symm.trans made')
    refine ⟨cmd.trans cmd', input.trans input', output.trans output', ?_⟩
    have inside : i < rest.length + 1 := (List.getElem?_eq_some_iff.mp command).1
    have last : (((first :: rest).map Invocation.tree).drop (i + 1)).isEmpty = decide (i + 1 = rest.length + 1) := by
      rw [Bool.eq_iff_iff, List.isEmpty_iff, List.drop_eq_nil_iff, List.length_map, List.length_cons, decide_eq_true_eq]
      omega
    have middle : (!decide (i + 1 = rest.length + 1)) = decide (i + 1 < rest.length + 1) := by
      rw [← decide_not, decide_eq_decide]
      omega
    rw [flags, flags', tops_pipeline, last, middle, ← List.map_drop, List.any_cons, List.any_map]
    simp only [Bool.false_or, ← decide_not, Nat.pos_iff_ne_zero, not_not]
    rfl

/-- `'a b' '\''\\'' | 'wc' < 'in' >> 'out' &`, where the argument is a quote and a backslash. -/
theorem typed_pipeline_two :
    let first : Invocation := ⟨['a', ' ', 'b'], [['\'', '\\']], none, none, false⟩
    let second : Invocation := ⟨['w', 'c'], [], some ['i', 'n'], some (true, ['o', 'u', 't']), true⟩
    ∃ n holders p, yyparse ⟨fun _ => none, some⟩ (lex (typed (pipelineTokens first [second]) ++ '\n' :: "pwd".toList)) n =
        .ok (.done (.accept (some (holders ++ [mkCommandHolder none none 0 .eoc])) false) p) ∧
      p.yychar = none ∧ p.input = lex "pwd".toList ∧ holders.length = 2 ∧
      ∀ i invocation holder, [first, second][i]? = some invocation → holders[i]? = some holder →
        HolderFor invocation i 2 ([first, second].drop (i + 1)) holder := by
  intro first second
  have real : ∀ invocation ∈ [first, second], invocation.Real := by
    refine List.forall_mem_cons.mpr ⟨⟨forall_mem_of_all rfl, ?_, nofun, nofun⟩, List.forall_mem_singleton.mpr
      ⟨forall_mem_of_all rfl, List.forall_mem_nil _, ?_, ?_⟩⟩
    · exact List.forall_mem_singleton.mpr (forall_mem_of_all rfl)
    · rintro _ ⟨⟩
      exact forall_mem_of_all rfl
    · rintro _ ⟨⟩
      exact forall_mem_of_all rfl
  exact typed_pipeline ⟨fun _ => none, some⟩ first [second] real (by decide) "pwd".toList

end OsLabs.Quash
