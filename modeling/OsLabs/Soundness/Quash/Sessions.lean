import OsLabs.Model.Quash.MainLoop
import OsLabs.Proofs.Quash.CommandString
import OsLabs.Proofs.Quash.Lexer
import OsLabs.Proofs.Quash.ParserCompleteness
import OsLabs.Proofs.Quash.Scripts
import OsLabs.Soundness.Quash.Parsing

/-! # Sessions

Each iteration of the main loop takes one line. A line of the grammar is run as one script, any other is
passed over, and the loop ends at `exit` or at the end of the input.
-/

namespace OsLabs.Quash

/-! ## One line

Whatever stands on a line, `yyparse` ends with the token that closes it read and nothing behind that,
unless the stacks overflow or an assertion fails in an action that runs. It accepts exactly the lines of
the grammar, with the value of the derivation, and the empty line.
-/

/-- `yyparse` accepts what the grammar derives, and gives up the rest of any other line and no more. -/
theorem yyparse_line (names : Names) (line : List Token) (closing : Token) (rest : List Token)
    (unclosed : ∀ token ∈ line, token.closes = false) (closes : closing.closes = true)
    (short : line.length + 4 < yymaxdepth) (hold : AssertionsHold names (line ++ closing :: rest)) :
    ∃ n result p, yyparse names (line ++ closing :: rest) n = .ok (.done result p) ∧
      p.yychar = none ∧ p.input = rest ∧
      (∀ tree : Cmds, tree.Reads line →
        ∃ holders, top names tree = some holders ∧ result = .accept (some holders) (closing = .end)) ∧
      ((∀ tree : Cmds, ¬ tree.Reads line) →
        result = if line = [] ∧ closing = .eocTok then .accept none false else .abort (closing = .end)) := by
  have isLine : Line names line closing rest := ⟨unclosed, closes, short, asserts_of_hold hold⟩
  obtain ⟨n, result, p, ran, read, input, -⟩ := yyparse_parsed isLine
  refine ⟨n, result, p, ran, read, input, ?_, fun underivable => yyparse_gives_up isLine underivable ran⟩
  intro tree reads
  obtain ⟨n', holders, p', made, ran'⟩ := yyparse_accepts isLine tree reads
  exact ⟨holders, made, yyparse_unique ran ran'⟩

theorem yyparse_longer {names : Names} {input : List Token} {n m : ℕ} {result : YyResult} {p : Parser} (enough : n ≤ m)
    (ran : yyparse names input n = .ok (.done result p)) : yyparse names input m = .ok (.done result p) := by
  obtain ⟨k, rfl⟩ := Nat.exists_eq_add_of_le enough
  have fixed : Round.step names (.done result p) = .ok (.done result p) := rfl
  rw [yyparse, DeterministicRun.run_add, ← yyparse, ran]
  exact DeterministicRun.run_fixed fixed k

/-- Without `HOME`, `cd /` is accepted, since only a bare `cd` reads it. -/
theorem yyparse_line_cd : ∃ n result p, yyparse ⟨fun _ => none, some⟩ [.cdTok, .simStr ['/'], .eocTok, .pwdTok] n =
      .ok (.done result p) ∧
    p.yychar = none ∧ p.input = [.pwdTok] ∧
    (∀ tree : Cmds, tree.Reads [.cdTok, .simStr ['/']] →
      ∃ holders, top ⟨fun _ => none, some⟩ tree = some holders ∧ result = .accept (some holders) false) ∧
    ((∀ tree : Cmds, ¬ tree.Reads [.cdTok, .simStr ['/']]) → result = .abort false) := by
  refine yyparse_line ⟨fun _ => none, some⟩ [.cdTok, .simStr ['/']] .eocTok [.pwdTok] (by simp [Token.closes]) rfl
    (by decide) ?_
  intro n p ran
  have rules : ∀ n < 11, (yyparse ⟨fun _ => none, some⟩ [.cdTok, .simStr ['/'], .eocTok, .pwdTok] n).toOption.bind
      Round.rule ∉ [some 14, some 42] := by
    decide +kernel
  have ended : (yyparse ⟨fun _ => none, some⟩ [.cdTok, .simStr ['/'], .eocTok, .pwdTok] 11).toOption.map Round.left =
      some 0 := by
    decide +kernel
  have early : n < 11 := by
    by_contra late
    cases reached : yyparse ⟨fun _ => none, some⟩ [.cdTok, .simStr ['/'], .eocTok, .pwdTok] 11 with
    | error fault =>
      rw [reached] at ended
      cases ended
    | ok round =>
      rw [reached] at ended
      cases round with
      | next q => exact absurd (Option.some.inj ended) (Nat.succ_ne_zero _)
      | done result q => cases ran.symm.trans (yyparse_longer (Nat.not_lt.mp late) reached)
  have others : (Round.next p).rule ∉ [some 14, some 42] := by
    have here := rules n early
    rwa [show yyparse _ [.cdTok, .simStr ['/'], .eocTok, .pwdTok] n = _ from ran] at here
  simp only [List.mem_cons, List.not_mem_nil, or_false, not_or] at others
  exact ⟨fun isCd => absurd isCd others.1, fun isStr => absurd isStr others.2⟩

/-! ## The main loop -/

variable {kernel : Kernel} {names : Names} {line rest : List Token} {closing : Token} {s s' : Shell}

/-- What a line does to the executor, and whether it is `exit`. -/
inductive LineRuns (kernel : Kernel) (names : Names) (line : List Token) (s : Shell) : Shell → Bool → Prop
  | passed (underivable : ∀ tree : Cmds, ¬ tree.Reads line) : LineRuns kernel names line s s false
  | ran {s' : Shell} (tree : Cmds) (reads : tree.Reads line) {holders : List ParsedHolder} {script : List CommandHolder}
      {bytes : Bytes} (made : top names tree = some (holders ++ [mkCommandHolder none none 0 .eoc]))
      (commands : holders.mapM ParsedHolder.toHolder = some script)
      (string : parsedStr (holders ++ [mkCommandHolder none none 0 .eoc]) = some bytes)
      (runs : runScript kernel (strdup (bytes.map (·.getD nul))) (some script) s = some s') : LineRuns kernel names line s s' (isExit script)

/-- The lines of a session, of which the last is closed by the end of the input. -/
inductive SessionRuns (kernel : Kernel) : (ℕ → Names) → List (List Token) → Shell → Shell → Prop
  | last {names : ℕ → Names} {line : List Token} {s s' : Shell} {exits : Bool}
      (here : LineRuns kernel (names 0) line s s' exits) : SessionRuns kernel names [line] s s'
  | exit {names : ℕ → Names} {line : List Token} {lines : List (List Token)} {s s' : Shell}
      (here : LineRuns kernel (names 0) line s s' true) : SessionRuns kernel names (line :: lines) s s'
  | more {names : ℕ → Names} {line : List Token} {lines : List (List Token)} {s s' s'' : Shell}
      (here : LineRuns kernel (names 0) line s s' false)
      (rest : SessionRuns kernel (fun i => names (i + 1)) lines s' s'') : SessionRuns kernel names (line :: lines) s s''

/-- The tokens of a session. -/
def sessionTokens : List (List Token) → List Token
  | [] => []
  | [line] => line ++ [.end]
  | line :: lines => line ++ .eocTok :: sessionTokens lines

/-- The parser gets through every line. -/
def Lines : (ℕ → Names) → List (List Token) → Prop
  | _, [] => False
  | names, [line] => Line (names 0) line .end []
  | names, line :: lines => Line (names 0) line .eocTok (sessionTokens lines) ∧ Lines (fun i => names (i + 1)) lines

/-- The executor between two scripts. -/
def Idle (s : Shell) : Prop := JobTable s.bgJobs ∧ s.currentJob = []

/-- A line of the grammar has a string and commands. -/
theorem line_script {tree : Cmds} {returned : List ParsedHolder} (made : top names tree = some returned) :
    ∃ holders script bytes, returned = holders ++ [mkCommandHolder none none 0 .eoc] ∧
      returned.takeWhile (·.cmd ≠ .eoc) = holders ∧ holders.mapM ParsedHolder.toHolder = some script ∧
      parsedStr returned = some bytes := by
  obtain ⟨holders', built, -⟩ := Option.bind_eq_some_iff.mp made
  obtain ⟨holders, script, made', commands, -⟩ := parsed_pipeline (accepted_of_cmds built)
  obtain rfl := Option.some.inj (made.symm.trans made')
  obtain ⟨nonempty, piped⟩ := piped_of_top made
  refine ⟨holders, script, _, rfl, ?_, commands, parsedStr_spec piped.spellable nonempty none none 0⟩
  have notEoc : ∀ holder ∈ holders, decide (holder.cmd ≠ .eoc) = true := by
    intro holder member
    have terminated := (piped.spellable holder member).cmd
    rw [decide_eq_true_eq]
    intro eoc
    rw [eoc] at terminated
    exact terminated.elim
  rw [List.takeWhile_append_of_pos notEoc]
  simp [mkCommandHolder]

/-- One iteration takes one line. -/
theorem iterate_line (kernel : Kernel) (isLine : Line names line closing rest) (state : QuashState)
    (running : state.running = true) (input : state.input = line ++ closing :: rest) (idle : Idle state.shell) :
    ∃ least state' exits, (∀ rounds ≥ least, iterate kernel names rounds state = some state') ∧
      LineRuns kernel names line state.shell state'.shell exits ∧ Idle state'.shell ∧ state'.input = rest ∧
      state'.running = (!decide (closing = .end) && !exits) := by
  obtain ⟨n, result, p, ran, -, left, -⟩ := yyparse_parsed isLine
  rw [← input] at ran
  by_cases derivable : ∃ tree : Cmds, tree.Reads line
  · obtain ⟨tree, reads⟩ := derivable
    obtain ⟨n', returned, p', made, ran'⟩ := yyparse_accepts isLine tree reads
    rw [← input] at ran'
    obtain rfl := yyparse_unique ran ran'
    obtain ⟨holders, script, bytes, whole, taken, commands, string⟩ := line_script made
    obtain ⟨s', runs, table, idle', -⟩ :=
      runScript_spec kernel (strdup (bytes.map (·.getD nul))) (some script) idle.1 idle.2
    refine ⟨n, ⟨!decide (closing = .end) && !isExit script, some bytes, rest, s'⟩, isExit script, ?_,
      .ran tree reads (whole ▸ made) commands (whole ▸ string) runs, ⟨table, idle'⟩, rfl, rfl⟩
    intro rounds enough
    rw [iterate, yyparse_longer enough ran]
    simp only [runHolders, getCommandString, taken, commands, string, runs, left, running, Option.map_some,
      Option.bind_eq_bind, Option.bind_some, Bool.true_and]
    rfl
  · have underivable : ∀ tree : Cmds, ¬ tree.Reads line := fun tree reads => derivable ⟨tree, reads⟩
    have result_eq := yyparse_gives_up isLine underivable (input ▸ ran)
    refine ⟨n, ⟨!decide (closing = .end), state.parsedStr, rest, state.shell⟩, false, ?_, .passed underivable, idle, rfl,
      (Bool.and_true _).symm⟩
    intro rounds enough
    rw [iterate, yyparse_longer enough ran, result_eq]
    by_cases blank : line = [] ∧ closing = .eocTok
    · rw [if_pos blank]
      simp only [left, running, blank.2]
      rfl
    · rw [if_neg blank]
      simp only [left, running, Bool.true_and]

theorem mainLoop_stopped {rounds : ℕ} {state : QuashState} (stopped : state.running = false) (fuel : ℕ) (names : ℕ → Names) :
    mainLoop kernel rounds fuel names state = some state := by
  cases fuel with
  | zero => rfl
  | succ fuel => rw [mainLoop, stopped, if_neg Bool.false_ne_true]

/-- The iterations over the lines of a session. -/
theorem mainLoop_lines (kernel : Kernel) (lines : List (List Token)) (names : ℕ → Names) (isLines : Lines names lines)
    (state : QuashState) (running : state.running = true) (input : state.input = sessionTokens lines)
    (idle : Idle state.shell) :
    ∃ least state', (∀ rounds ≥ least, mainLoop kernel rounds lines.length names state = some state') ∧
      SessionRuns kernel names lines state.shell state'.shell ∧ Idle state'.shell ∧ state'.running = false := by
  induction lines generalizing names state with
  | nil => exact isLines.elim
  | cons line lines ih =>
    cases lines with
    | nil =>
      obtain ⟨least, state', exits, iterates, runs, idle', -, running'⟩ :=
        iterate_line kernel (show Line (names 0) line .end [] from isLines) state running input idle
      refine ⟨least, state', ?_, .last runs, idle', running'⟩
      intro rounds enough
      simp only [mainLoop, List.length_cons, List.length_nil, running, iterates rounds enough]
      rfl
    | cons next lines =>
      obtain ⟨isLine, others⟩ := isLines
      obtain ⟨least, state', exits, iterates, runs, idle', input', running'⟩ :=
        iterate_line kernel isLine state running input idle
      cases exits with
      | true =>
        refine ⟨least, state', ?_, .exit runs, idle', running'⟩
        intro rounds enough
        rw [List.length_cons, mainLoop, if_pos running, iterates rounds enough]
        exact mainLoop_stopped running' _ _
      | false =>
        obtain ⟨least', state'', iterates', runs', idle'', stopped⟩ := ih _ others state' running' input' idle'
        refine ⟨max least least', state'', ?_, .more runs runs', idle'', stopped⟩
        intro rounds enough
        rw [List.length_cons, mainLoop, if_pos running, iterates rounds (le_of_max_le_left enough)]
        exact iterates' rounds (le_of_max_le_right enough)

/-! ## Texts -/

theorem line_unclosed (noEnd : .end ∉ line) (noEoc : .eocTok ∉ line) : ∀ token ∈ line, token.closes = false := by
  intro token member
  rw [← Bool.not_eq_true]
  intro closes
  obtain rfl | rfl := closing_symbol closes
  · exact noEnd member
  · exact noEoc member

/-- The tokens of a text between its newlines. -/
theorem lines_splitOn (tokens : List Token) (names : ℕ → Names) (noEnd : .end ∉ tokens)
    (short : ∀ line ∈ tokens.splitOn .eocTok, line.length + 4 < yymaxdepth)
    (interpretable : ∀ i line, (tokens.splitOn .eocTok)[i]? = some line → Interpretable (names i) line) :
    Lines names (tokens.splitOn .eocTok) ∧ tokens ++ [.end] = sessionTokens (tokens.splitOn .eocTok) := by
  induction size : tokens.length using Nat.strongRecOn generalizing tokens names with
  | _ size ih =>
    subst size
    by_cases eoc : .eocTok ∈ tokens
    · obtain ⟨line, behind, rfl, noEoc⟩ := List.eq_append_cons_of_mem eoc
      rw [List.splitOn_append_cons_self_of_not_mem noEoc] at short interpretable ⊢
      rw [List.mem_append, List.mem_cons, not_or, not_or] at noEnd
      obtain ⟨isShort, others⟩ := List.forall_mem_cons.mp short
      obtain ⟨isLines, rest⟩ := ih behind.length (by simp; omega) behind (fun i => names (i + 1)) noEnd.2.2 others
        (fun i line here => interpretable (i + 1) line here) rfl
      have isLine (rest : List Token) : Line (names 0) line .eocTok rest :=
        ⟨line_unclosed noEnd.1 noEoc, rfl, isShort, asserts_of_interpretable (interpretable 0 line rfl)⟩
      obtain ⟨next, lines, whole⟩ := List.exists_cons_of_ne_nil (List.splitOn_ne_nil .eocTok behind)
      rw [whole] at isLines rest ⊢
      exact ⟨⟨isLine _, isLines⟩, by rw [List.append_assoc, List.cons_append, rest]; rfl⟩
    · rw [List.splitOn_eq_singleton eoc] at short interpretable ⊢
      exact ⟨⟨line_unclosed noEnd eoc, rfl, short tokens (List.mem_singleton_self _),
        asserts_of_interpretable (interpretable 0 tokens rfl)⟩, rfl⟩

/-- Quash started on a text. -/
def QuashState.initial (text : List Char) (fds : Descriptors) : QuashState := ⟨true, none, lex text ++ [.end], .initial fds⟩

/-- The tokens of the lines of a text. -/
def textLines (text : List Char) : List (List Token) := (lex text).splitOn .eocTok

/-- Quash takes the lines of a text in their order, one in each iteration, and stops. -/
theorem session_runs (kernel : Kernel) (names : ℕ → Names) (text : List Char) (fds : Descriptors)
    (short : ∀ line ∈ textLines text, line.length + 4 < yymaxdepth)
    (interpretable : ∀ i line, (textLines text)[i]? = some line → Interpretable (names i) line) :
    ∃ least state, (∀ rounds ≥ least, mainLoop kernel rounds (textLines text).length names (.initial text fds) = some state) ∧
      SessionRuns kernel names (textLines text) (.initial fds) state.shell ∧ JobTable state.shell.bgJobs ∧
      state.running = false := by
  obtain ⟨isLines, isText⟩ := lines_splitOn (lex text) names (end_not_mem_lex text) short interpretable
  obtain ⟨least, state, iterates, runs, idle, stopped⟩ :=
    mainLoop_lines kernel (textLines text) names isLines (.initial text fds) rfl isText ⟨.nil, rfl⟩
  exact ⟨least, state, iterates, runs, idle.1, stopped⟩

/-- `pwd |`, a blank line and `exit` in front of a line that is not read. -/
theorem session_runs_exit :
    ∃ least state, (∀ rounds ≥ least, mainLoop ⟨fun _ => 1, fun _ _ => 0, fun _ _ _ => true⟩ rounds 4
        (fun _ => ⟨fun _ => none, some⟩) (.initial "pwd |\n\nexit\npwd".toList []) = some state) ∧
      SessionRuns ⟨fun _ => 1, fun _ _ => 0, fun _ _ _ => true⟩ (fun _ => ⟨fun _ => none, some⟩)
        [[.pwdTok, .pipe], [], [.exitTok "exit".toList], [.pwdTok]] (.initial []) state.shell ∧
      JobTable state.shell.bgJobs ∧ state.running = false := by
  have lines : textLines "pwd |\n\nexit\npwd".toList = [[.pwdTok, .pipe], [], [.exitTok "exit".toList], [.pwdTok]] := by
    decide +kernel
  have runs := session_runs ⟨fun _ => 1, fun _ _ => 0, fun _ _ _ => true⟩ (fun _ => ⟨fun _ => none, some⟩)
    "pwd |\n\nexit\npwd".toList []
  rw [lines] at runs
  refine runs (by simp [yymaxdepth]) ?_
  intro i line here
  have member := List.mem_of_getElem? here
  refine ⟨?_, ?_⟩
  · intro cd
    simp only [List.mem_cons, List.not_mem_nil, or_false] at member
    rcases member with rfl | rfl | rfl | rfl <;> simp at cd
  · intro text string
    simp only [List.mem_cons, List.not_mem_nil, or_false] at member
    rcases member with rfl | rfl | rfl | rfl <;> simp at string

end OsLabs.Quash
