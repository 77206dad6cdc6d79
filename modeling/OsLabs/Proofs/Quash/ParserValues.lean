import Mathlib.Tactic.IntervalCases
import OsLabs.Model.Quash.Derivations
import OsLabs.Proofs.Quash.ParserTables

/-! # The values on the stack of the parser

The value of a symbol is that of a derivation of the tokens read for it. Every action makes such a value
of the values of its right side, unless an assertion in it fails; two of them have one.
-/

namespace OsLabs.Quash

open ShiftReduce

/-- The assertions in the actions hold wherever these tokens stand. -/
structure Interpretable (names : Names) (w : List Token) : Prop where
  home : .cdTok ∈ w → (names.lookupEnv "HOME".toList).isSome = true
  strings : ∀ text, .str text ∈ w → (interpretComplexStringToken names.lookupEnv text).isSome = true

theorem Interpretable.mono {names : Names} {w u : List Token} (interpretable : Interpretable names w)
    (sub : u ⊆ w) : Interpretable names u :=
  ⟨fun member => interpretable.home (sub member), fun text member => interpretable.strings text (sub member)⟩

/-- The nonterminals of `parse.y`, `top` apart. -/
inductive Nonterminal where
  | cmds
  | cmdTop
  | cmdContent
  | redir
  | redirInner
  | redirMark
  | cmdBg
  | cmd
  | cmdArguments
  | string
  | specialString
  | firstString

def Nonterminal.number : Nonterminal → ℕ
  | .cmds => 25
  | .cmdTop => 26
  | .cmdContent => 27
  | .redir => 28
  | .redirInner => 29
  | .redirMark => 30
  | .cmdBg => 31
  | .cmd => 32
  | .cmdArguments => 33
  | .string => 34
  | .specialString => 35
  | .firstString => 36

/-- The value of a derivation of `w`. -/
def Derived (names : Names) (v : YyStype) (w : List Token) : Nonterminal → Prop
  | .cmds => ∃ tree holders, Cmds.Reads tree w ∧ cmds names tree = some holders ∧ v = .cmdList holders
  | .cmdTop => ∃ tree holder, CmdTop.Reads tree w ∧ cmdTop names tree = some holder ∧ v = .holder holder
  | .cmdContent => ∃ tree command, CmdContent.Reads tree w ∧ cmdContent names tree = some command ∧ v = .cmd command
  | .redir => ∃ tree r, w = redirTokens tree ∧ redir names tree = some r ∧ v = .redirect r
  | .redirInner => ∃ tree r, w = RedirInner.tokens tree ∧ redirInner names tree = some r ∧ v = .redirect r
  | .redirMark => ∃ mark, w = [RedirMark.token mark] ∧ v = .integer (redirMark mark)
  | .cmdBg => ∃ bg, w = bgTokens bg ∧ v = .integer (if bg then 1 else 0)
  | .cmd => ∃ tree args, w = Cmd.tokens tree ∧ cmd names tree = some args ∧ v = .cmdStrs args
  | .cmdArguments => ∃ tree args, w = CmdArguments.tokens tree ∧ cmdArguments names tree = some args ∧ v = .cmdStrs args
  | .string => ∃ tree text, w = [StringTree.token tree] ∧ string names tree = some text ∧ v = .str text
  | .specialString => ∃ tree, w = [SpecialString.token tree] ∧ v = .str (specialString tree)
  | .firstString => ∃ tree text, w = [FirstString.token tree] ∧ firstString names tree = some text ∧ v = .str text

/-- The number of a token among the symbols. -/
def Token.symbol : Token → ℕ
  | .pipe => 3
  | .bckgrnd => 4
  | .equals => 6
  | .redirin => 7
  | .redirout => 8
  | .redirOutApp => 9
  | .end => 10
  | .echoTok => 11
  | .exportTok => 12
  | .cdTok => 13
  | .pwdTok => 14
  | .jobsTok => 15
  | .killTok => 16
  | .eocTok => 17
  | .str _ => 18
  | .simStr _ => 19
  | .id _ => 20
  | .num _ => 21
  | .exitTok _ => 22

/-- A value of a symbol that was read from `w`. -/
inductive Fits (names : Names) (k : ℕ) (v : YyStype) (w : List Token) : Prop
  | nonterminal (n : Nonterminal) (isNumber : n.number = k) (derived : Derived names v w n)
  | terminal (token : Token) (isNumber : token.symbol = k) (word : w = [token])
      (value : v = token.value)

/-- The token of a terminal, with its text if it has one. -/
def tokenOf (k : ℕ) (text : List Char) : Token :=
  [.pipe, .bckgrnd, .pipe, .equals, .redirin, .redirout, .redirOutApp, .end, .echoTok, .exportTok, .cdTok, .pwdTok,
    .jobsTok, .killTok, .eocTok, .str text, .simStr text, .id text, .num text, .exitTok text].getD (k - 3) .pipe

variable {names : Names} {k : ℕ} {v : YyStype} {vs : List YyStype} {w : List Token}

theorem yytranslate_eq (token : Token) : yytranslate token.yytokentype = token.symbol := by
  cases token <;> simp [yytranslate, Token.yytokentype, Token.symbol]

theorem symbol_bound (token : Token) : 3 ≤ token.symbol ∧ token.symbol < 23 := by
  cases token <;> simp only [Token.symbol] <;> omega

theorem tokenOf_symbol (token : Token) : ∃ text, tokenOf token.symbol text = token := by
  cases token with
  | str text | simStr text | id text | num text | exitTok text => exact ⟨text, rfl⟩
  | _ => exact ⟨[], rfl⟩

theorem number_bound (n : Nonterminal) : 25 ≤ n.number := by cases n <;> decide

theorem number_inj {n n' : Nonterminal} (same : n.number = n'.number) : n = n' := by
  cases n <;> cases n' <;> first | rfl | exact absurd same (by decide)

theorem fits_nonterminal (n : Nonterminal) : Fits names n.number v w ↔ Derived names v w n := by
  constructor
  · rintro (⟨n', isNumber, derived⟩ | ⟨token, isNumber, -, -⟩)
    · exact number_inj isNumber ▸ derived
    · have terminal := (symbol_bound token).2
      have nonterminal := number_bound n
      omega
  · exact .nonterminal n rfl

theorem fits_terminal (small : k < 23) (fits : Fits names k v w) :
    ∃ text, w = [tokenOf k text] ∧ v = (tokenOf k text).value := by
  obtain ⟨n, isNumber, -⟩ | ⟨token, rfl, rfl, rfl⟩ := fits
  · have nonterminal := number_bound n
    omega
  · obtain ⟨text, same⟩ := tokenOf_symbol token
    exact ⟨text, by rw [same], by rw [same]⟩

/-! ## The rules -/

theorem action_cmds (yields : Yields (Fits names) [26] vs w) :
    ∃ v, action names 7 vs.reverse = some v ∧ Derived names v w .cmds := by
  obtain ⟨_, rfl, top⟩ := yields_one.mp yields
  obtain ⟨tree, holder, reads, made, rfl⟩ := (fits_nonterminal .cmdTop).mp top
  exact ⟨_, rfl, .last tree, pushFront newDeque holder, reads, by rw [cmds, made]; rfl, rfl⟩

theorem cmds_ne_nil {tree : Cmds} {holders : List ParsedHolder} (made : cmds names tree = some holders) :
    holders ≠ [] := by
  cases tree with
  | last tree =>
    rw [cmds] at made
    cases top : cmdTop names tree with
    | none =>
      rw [top] at made
      cases made
    | some holder =>
      rw [top] at made
      cases made
      exact List.cons_ne_nil _ _
  | pipe tree rest =>
    rw [cmds] at made
    simp only [Option.bind_eq_bind, Option.bind_eq_some_iff, Option.pure_def, Option.some.injEq] at made
    obtain ⟨_, _, _, _, _, _, rfl⟩ := made
    exact List.cons_ne_nil _ _

theorem action_pipe (yields : Yields (Fits names) [25, 3, 26] vs w) :
    ∃ v, action names 8 vs.reverse = some v ∧ Derived names v w .cmds := by
  obtain ⟨_, _, _, u, _, v, rfl, rfl, top, pipe, rest⟩ := yields_three.mp yields
  obtain ⟨tree, holder, reads, made, rfl⟩ := (fits_nonterminal .cmdTop).mp top
  obtain ⟨_, rfl, -⟩ := fits_terminal (by decide) pipe
  obtain ⟨tree', holders, reads', made', rfl⟩ := (fits_nonterminal .cmds).mp rest
  obtain ⟨prev, cs, rfl⟩ := List.exists_cons_of_ne_nil (cmds_ne_nil made')
  exact ⟨_, rfl, .pipe tree tree', _, ⟨u, v, reads, reads', List.append_assoc ..⟩, by rw [cmds, made, made']; rfl, rfl⟩

theorem action_cmdTop (yields : Yields (Fits names) [31, 28, 27] vs w) :
    ∃ v, action names 9 vs.reverse = some v ∧ Derived names v w .cmdTop := by
  obtain ⟨_, _, _, u, _, _, rfl, rfl, command, clauses, mark⟩ := yields_three.mp yields
  obtain ⟨content, command, reads, made, rfl⟩ := (fits_nonterminal .cmdContent).mp command
  obtain ⟨tree, r, rfl, made', rfl⟩ := (fits_nonterminal .redir).mp clauses
  obtain ⟨bg, rfl, rfl⟩ := (fits_nonterminal .cmdBg).mp mark
  refine ⟨_, rfl, ⟨content, tree, bg⟩, _, ⟨u, reads, rfl⟩, by rw [cmdTop, made, made']; rfl, ?_⟩
  cases bg <;> rfl

theorem action_generic (yields : Yields (Fits names) [32] vs w) :
    ∃ v, action names 10 vs.reverse = some v ∧ Derived names v w .cmdContent := by
  obtain ⟨_, rfl, value⟩ := yields_one.mp yields
  obtain ⟨tree, args, rfl, made, rfl⟩ := (fits_nonterminal .cmd).mp value
  exact ⟨_, rfl, .cmd tree, .generic args, rfl, by rw [cmdContent, made]; rfl, rfl⟩

/-- The commands of one token. -/
theorem action_plain {r : ℕ} (content : CmdContent) {command : ParsedCommand} (small : k < 23)
    (acts : ∀ v, action names r [v] = some (.cmd command)) (reads : ∀ text, content.Reads [tokenOf k text])
    (made : cmdContent names content = some command) (yields : Yields (Fits names) [k] vs w) :
    ∃ v, action names r vs.reverse = some v ∧ Derived names v w .cmdContent := by
  obtain ⟨_, rfl, value⟩ := yields_one.mp yields
  obtain ⟨text, rfl, -⟩ := fits_terminal small value
  exact ⟨_, acts _, content, command, reads text, made, rfl⟩

theorem action_echoArguments (yields : Yields (Fits names) [33, 11] vs w) :
    ∃ v, action names 12 vs.reverse = some v ∧ Derived names v w .cmdContent := by
  obtain ⟨_, _, _, _, rfl, rfl, echo, value⟩ := yields_two.mp yields
  obtain ⟨_, rfl, -⟩ := fits_terminal (by decide) echo
  obtain ⟨tree, args, rfl, made, rfl⟩ := (fits_nonterminal .cmdArguments).mp value
  exact ⟨_, rfl, .echoArguments tree, .echo args, rfl, by rw [cmdContent, made]; rfl, rfl⟩

theorem action_export (yields : Yields (Fits names) [34, 6, 20, 12] vs w) :
    ∃ v, action names 13 vs.reverse = some v ∧ Derived names v w .cmdContent := by
  obtain ⟨_, vs, _, _, rfl, rfl, value, rest⟩ := yields_cons.mp yields
  obtain ⟨_, _, _, _, _, _, rfl, rfl, start, id, equals⟩ := yields_three.mp rest
  obtain ⟨_, rfl, -⟩ := fits_terminal (by decide) start
  obtain ⟨name, rfl, rfl⟩ := fits_terminal (by decide) id
  obtain ⟨_, rfl, -⟩ := fits_terminal (by decide) equals
  obtain ⟨tree, text, rfl, made, rfl⟩ := (fits_nonterminal .string).mp value
  exact ⟨_, rfl, .export name tree, .export name text, rfl, by rw [cmdContent, made]; rfl, rfl⟩

/-- A bare `cd` asserts that `HOME` is set. -/
theorem action_cd_isSome (yields : Yields (Fits names) [13] vs w) :
    (action names 14 vs.reverse).isSome = (names.lookupEnv "HOME".toList).isSome := by
  obtain ⟨_, rfl, value⟩ := yields_one.mp yields
  change (names.lookupEnv "HOME".toList >>= _).isSome = _
  cases names.lookupEnv "HOME".toList <;> rfl

theorem action_cd (asserted : (action names 14 vs.reverse).isSome = true) (yields : Yields (Fits names) [13] vs w) :
    ∃ v, action names 14 vs.reverse = some v ∧ Derived names v w .cmdContent := by
  rw [action_cd_isSome yields] at asserted
  obtain ⟨_, rfl, value⟩ := yields_one.mp yields
  obtain ⟨_, rfl, -⟩ := fits_terminal (by decide) value
  obtain ⟨home, found⟩ := Option.isSome_iff_exists.mp asserted
  refine ⟨.cmd (.cd (some home)), ?_, .cd, .cd (some home), rfl, by rw [cmdContent, found]; rfl, rfl⟩
  change (names.lookupEnv "HOME".toList >>= _) = _
  rw [found]
  rfl

theorem action_cdTo (yields : Yields (Fits names) [34, 13] vs w) :
    ∃ v, action names 15 vs.reverse = some v ∧ Derived names v w .cmdContent := by
  obtain ⟨_, _, _, _, rfl, rfl, cd, value⟩ := yields_two.mp yields
  obtain ⟨_, rfl, -⟩ := fits_terminal (by decide) cd
  obtain ⟨tree, text, rfl, made, rfl⟩ := (fits_nonterminal .string).mp value
  exact ⟨_, rfl, .cdTo tree, .cd (names.realpath text), rfl, by rw [cmdContent, made]; rfl, rfl⟩

theorem action_kill (yields : Yields (Fits names) [21, 21, 16] vs w) :
    ∃ v, action names 19 vs.reverse = some v ∧ Derived names v w .cmdContent := by
  obtain ⟨_, _, _, _, _, _, rfl, rfl, start, first, second⟩ := yields_three.mp yields
  obtain ⟨_, rfl, -⟩ := fits_terminal (by decide) start
  obtain ⟨sig, rfl, rfl⟩ := fits_terminal (by decide) first
  obtain ⟨job, rfl, rfl⟩ := fits_terminal (by decide) second
  exact ⟨_, rfl, .kill sig job, mkKillCommand sig job, rfl, rfl, rfl⟩

theorem action_redir (yields : Yields (Fits names) [29] vs w) :
    ∃ v, action names 20 vs.reverse = some v ∧ Derived names v w .redir := by
  obtain ⟨_, rfl, value⟩ := yields_one.mp yields
  obtain ⟨tree, r, rfl, made, rfl⟩ := (fits_nonterminal .redirInner).mp value
  exact ⟨_, rfl, some tree, r, rfl, made, rfl⟩

theorem action_noRedir (yields : Yields (Fits names) [] vs w) :
    ∃ v, action names 21 vs.reverse = some v ∧ Derived names v w .redir := by
  obtain ⟨rfl, rfl⟩ := yields_nil.mp yields
  exact ⟨_, rfl, none, _, rfl, rfl, rfl⟩

theorem action_redirInner (yields : Yields (Fits names) [29, 34, 30] vs w) :
    ∃ v, action names 22 vs.reverse = some v ∧ Derived names v w .redirInner := by
  obtain ⟨_, _, _, _, _, _, rfl, rfl, first, value, rest⟩ := yields_three.mp yields
  obtain ⟨mark, rfl, rfl⟩ := (fits_nonterminal .redirMark).mp first
  obtain ⟨file, text, rfl, made, rfl⟩ := (fits_nonterminal .string).mp value
  obtain ⟨tree, r, rfl, made', rfl⟩ := (fits_nonterminal .redirInner).mp rest
  exact ⟨_, rfl, .more mark file tree, _, rfl, by rw [redirInner, made, made']; rfl, rfl⟩

theorem action_redirLast (yields : Yields (Fits names) [34, 30] vs w) :
    ∃ v, action names 23 vs.reverse = some v ∧ Derived names v w .redirInner := by
  obtain ⟨_, _, _, _, rfl, rfl, first, value⟩ := yields_two.mp yields
  obtain ⟨mark, rfl, rfl⟩ := (fits_nonterminal .redirMark).mp first
  obtain ⟨file, text, rfl, made, rfl⟩ := (fits_nonterminal .string).mp value
  exact ⟨_, rfl, .last mark file, _, rfl, by rw [redirInner, made]; rfl, rfl⟩

theorem action_mark {r : ℕ} (mark : RedirMark) (small : k < 23)
    (acts : ∀ v, action names r [v] = some (.integer (redirMark mark))) (reads : ∀ text, tokenOf k text = mark.token)
    (yields : Yields (Fits names) [k] vs w) :
    ∃ v, action names r vs.reverse = some v ∧ Derived names v w .redirMark := by
  obtain ⟨_, rfl, value⟩ := yields_one.mp yields
  obtain ⟨text, rfl, -⟩ := fits_terminal small value
  exact ⟨_, acts _, mark, by rw [reads], rfl⟩

theorem action_noBg (yields : Yields (Fits names) [] vs w) :
    ∃ v, action names 27 vs.reverse = some v ∧ Derived names v w .cmdBg := by
  obtain ⟨rfl, rfl⟩ := yields_nil.mp yields
  exact ⟨_, rfl, false, rfl, rfl⟩

theorem action_bg (yields : Yields (Fits names) [4] vs w) :
    ∃ v, action names 28 vs.reverse = some v ∧ Derived names v w .cmdBg := by
  obtain ⟨_, rfl, value⟩ := yields_one.mp yields
  obtain ⟨_, rfl, -⟩ := fits_terminal (by decide) value
  exact ⟨_, rfl, true, rfl, rfl⟩

theorem action_arguments (yields : Yields (Fits names) [33, 36] vs w) :
    ∃ v, action names 29 vs.reverse = some v ∧ Derived names v w .cmd := by
  obtain ⟨_, _, _, _, rfl, rfl, value, rest⟩ := yields_two.mp yields
  obtain ⟨first, text, rfl, made, rfl⟩ := (fits_nonterminal .firstString).mp value
  obtain ⟨tree, args, rfl, made', rfl⟩ := (fits_nonterminal .cmdArguments).mp rest
  exact ⟨_, rfl, .arguments first tree, _, rfl, by rw [cmd, made, made']; rfl, rfl⟩

theorem action_alone (yields : Yields (Fits names) [36] vs w) :
    ∃ v, action names 30 vs.reverse = some v ∧ Derived names v w .cmd := by
  obtain ⟨_, rfl, value⟩ := yields_one.mp yields
  obtain ⟨first, text, rfl, made, rfl⟩ := (fits_nonterminal .firstString).mp value
  exact ⟨_, rfl, .alone first, _, rfl, by rw [cmd, made]; rfl, rfl⟩

theorem action_lastArgument (yields : Yields (Fits names) [34] vs w) :
    ∃ v, action names 31 vs.reverse = some v ∧ Derived names v w .cmdArguments := by
  obtain ⟨_, rfl, value⟩ := yields_one.mp yields
  obtain ⟨argument, text, rfl, made, rfl⟩ := (fits_nonterminal .string).mp value
  exact ⟨_, rfl, .last argument, _, rfl, by rw [cmdArguments, made]; rfl, rfl⟩

theorem action_moreArguments (yields : Yields (Fits names) [33, 34] vs w) :
    ∃ v, action names 32 vs.reverse = some v ∧ Derived names v w .cmdArguments := by
  obtain ⟨_, _, _, _, rfl, rfl, value, rest⟩ := yields_two.mp yields
  obtain ⟨argument, text, rfl, made, rfl⟩ := (fits_nonterminal .string).mp value
  obtain ⟨tree, args, rfl, made', rfl⟩ := (fits_nonterminal .cmdArguments).mp rest
  exact ⟨_, rfl, .more argument tree, _, rfl, by rw [cmdArguments, made, made']; rfl, rfl⟩

theorem action_first (yields : Yields (Fits names) [36] vs w) :
    ∃ v, action names 33 vs.reverse = some v ∧ Derived names v w .string := by
  obtain ⟨_, rfl, value⟩ := yields_one.mp yields
  obtain ⟨first, text, rfl, made, rfl⟩ := (fits_nonterminal .firstString).mp value
  exact ⟨_, rfl, .first first, text, rfl, made, rfl⟩

theorem action_special (yields : Yields (Fits names) [35] vs w) :
    ∃ v, action names 34 vs.reverse = some v ∧ Derived names v w .string := by
  obtain ⟨_, rfl, value⟩ := yields_one.mp yields
  obtain ⟨special, rfl, rfl⟩ := (fits_nonterminal .specialString).mp value
  exact ⟨_, rfl, .special special, _, rfl, rfl, rfl⟩

/-- The keywords as strings. -/
theorem action_keyword {r : ℕ} (tree : List Char → SpecialString) (small : k < 23)
    (acts : ∀ text, action names r [(tokenOf k text).value] = some (.str (specialString (tree text))))
    (reads : ∀ text, tokenOf k text = (tree text).token) (yields : Yields (Fits names) [k] vs w) :
    ∃ v, action names r vs.reverse = some v ∧ Derived names v w .specialString := by
  obtain ⟨_, rfl, value⟩ := yields_one.mp yields
  obtain ⟨text, rfl, rfl⟩ := fits_terminal small value
  exact ⟨_, acts text, tree text, by rw [reads], rfl⟩

/-- A string asserts that the interpreter gets through it. -/
theorem action_str_isSome (yields : Yields (Fits names) [18] vs w) : ∃ text, w = [.str text] ∧
    (action names 42 vs.reverse).isSome = (interpretComplexStringToken names.lookupEnv text).isSome := by
  obtain ⟨_, rfl, value⟩ := yields_one.mp yields
  obtain ⟨text, rfl, rfl⟩ := fits_terminal (by decide) value
  refine ⟨text, rfl, ?_⟩
  change (interpretComplexStringToken names.lookupEnv text >>= _).isSome = _
  cases interpretComplexStringToken names.lookupEnv text <;> rfl

theorem action_str (asserted : (action names 42 vs.reverse).isSome = true) (yields : Yields (Fits names) [18] vs w) :
    ∃ v, action names 42 vs.reverse = some v ∧ Derived names v w .firstString := by
  obtain ⟨text, rfl, same⟩ := action_str_isSome yields
  obtain ⟨_, rfl, value⟩ := yields_one.mp yields
  obtain ⟨text', whole, rfl⟩ := fits_terminal (by decide) value
  obtain rfl : text = text' := Token.str.inj (List.singleton_inj.mp whole)
  rw [same] at asserted
  obtain ⟨read, made⟩ := Option.isSome_iff_exists.mp asserted
  refine ⟨.str (read.takeWhile (· ≠ nul)), ?_, .str text, _, rfl, by rw [firstString, made]; rfl, rfl⟩
  change (interpretComplexStringToken names.lookupEnv text >>= _) = _
  rw [made]
  rfl

/-- The strings that are taken as they are. -/
theorem action_text {r : ℕ} (tree : List Char → FirstString) (small : k < 23)
    (acts : ∀ text, action names r [(tokenOf k text).value] = some (.str text))
    (made : ∀ text, firstString names (tree text) = some text) (reads : ∀ text, tokenOf k text = (tree text).token)
    (yields : Yields (Fits names) [k] vs w) :
    ∃ v, action names r vs.reverse = some v ∧ Derived names v w .firstString := by
  obtain ⟨_, rfl, value⟩ := yields_one.mp yields
  obtain ⟨text, rfl, rfl⟩ := fits_terminal small value
  exact ⟨_, acts text, tree text, text, by rw [reads], made text, rfl⟩

/-- The rules whose actions have an assertion. -/
def hasAssertion (r : ℕ) : Prop := r = 14 ∨ r = 42

theorem Interpretable.asserted {r : ℕ} (interpretable : Interpretable names w) (has : hasAssertion r)
    (yields : Yields (Fits names) (rhs.getD r []) vs w) : (action names r vs.reverse).isSome = true := by
  obtain rfl | rfl := has
  · rw [action_cd_isSome yields]
    obtain ⟨_, -, value⟩ := yields_one.mp yields
    obtain ⟨_, rfl, -⟩ := fits_terminal (by decide) value
    exact interpretable.home (List.mem_cons_self ..)
  · obtain ⟨text, rfl, same⟩ := action_str_isSome yields
    rw [same]
    exact interpretable.strings text (List.mem_cons_self ..)

/-- The values of a right side give a value of the left side. -/
theorem action_fits {r : ℕ} (asserted : hasAssertion r → (action names r vs.reverse).isSome = true) (low : 7 ≤ r)
    (high : r < 46) (yields : Yields (Fits names) (rhs.getD r []) vs w) :
    ∃ v, action names r vs.reverse = some v ∧ Fits names (yyr1.getD r 0) v w := by
  have derive (n : Nonterminal) (acts : ∃ v, action names r vs.reverse = some v ∧ Derived names v w n) :
      ∃ v, action names r vs.reverse = some v ∧ Fits names n.number v w := by
    obtain ⟨v, acted, derived⟩ := acts
    exact ⟨v, acted, .nonterminal n rfl derived⟩
  interval_cases r
  · exact derive .cmds (action_cmds yields)
  · exact derive .cmds (action_pipe yields)
  · exact derive .cmdTop (action_cmdTop yields)
  · exact derive .cmdContent (action_generic yields)
  · exact derive .cmdContent (action_plain (k := 11) .echo (by decide) (fun _ => rfl) (fun _ => rfl) rfl yields)
  · exact derive .cmdContent (action_echoArguments yields)
  · exact derive .cmdContent (action_export yields)
  · exact derive .cmdContent (action_cd (asserted (.inl rfl)) yields)
  · exact derive .cmdContent (action_cdTo yields)
  · exact derive .cmdContent (action_plain (k := 14) .pwd (by decide) (fun _ => rfl) (fun _ => rfl) rfl yields)
  · exact derive .cmdContent (action_plain (k := 15) .jobs (by decide) (fun _ => rfl) (fun _ => rfl) rfl yields)
  · exact derive .cmdContent (action_plain (k := 22) .exit (by decide) (fun _ => rfl) (fun text => ⟨text, rfl⟩) rfl yields)
  · exact derive .cmdContent (action_kill yields)
  · exact derive .redir (action_redir yields)
  · exact derive .redir (action_noRedir yields)
  · exact derive .redirInner (action_redirInner yields)
  · exact derive .redirInner (action_redirLast yields)
  · exact derive .redirMark (action_mark .redirIn (by decide) (fun _ => rfl) (fun _ => rfl) yields)
  · exact derive .redirMark (action_mark .redirOut (by decide) (fun _ => rfl) (fun _ => rfl) yields)
  · exact derive .redirMark (action_mark .redirOutApp (by decide) (fun _ => rfl) (fun _ => rfl) yields)
  · exact derive .cmdBg (action_noBg yields)
  · exact derive .cmdBg (action_bg yields)
  · exact derive .cmd (action_arguments yields)
  · exact derive .cmd (action_alone yields)
  · exact derive .cmdArguments (action_lastArgument yields)
  · exact derive .cmdArguments (action_moreArguments yields)
  · exact derive .string (action_first yields)
  · exact derive .string (action_special yields)
  · exact derive .specialString (action_keyword (fun _ => .echoTok) (by decide) (fun _ => rfl) (fun _ => rfl) yields)
  · exact derive .specialString (action_keyword (fun _ => .exportTok) (by decide) (fun _ => rfl) (fun _ => rfl) yields)
  · exact derive .specialString (action_keyword (fun _ => .cdTok) (by decide) (fun _ => rfl) (fun _ => rfl) yields)
  · exact derive .specialString (action_keyword (fun _ => .killTok) (by decide) (fun _ => rfl) (fun _ => rfl) yields)
  · exact derive .specialString (action_keyword (fun _ => .pwdTok) (by decide) (fun _ => rfl) (fun _ => rfl) yields)
  · exact derive .specialString (action_keyword (fun _ => .jobsTok) (by decide) (fun _ => rfl) (fun _ => rfl) yields)
  · exact derive .specialString (action_keyword .exitTok (by decide) (fun _ => rfl) (fun _ => rfl) yields)
  · exact derive .firstString (action_str (asserted (.inr rfl)) yields)
  · exact derive .firstString (action_text .simStr (by decide) (fun _ => rfl) (fun _ => rfl) (fun _ => rfl) yields)
  · exact derive .firstString (action_text .num (by decide) (fun _ => rfl) (fun _ => rfl) (fun _ => rfl) yields)
  · exact derive .firstString (action_text .id (by decide) (fun _ => rfl) (fun _ => rfl) (fun _ => rfl) yields)

end OsLabs.Quash
