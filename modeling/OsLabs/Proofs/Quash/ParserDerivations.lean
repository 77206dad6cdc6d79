import OsLabs.Proofs.Quash.ParserValues
import OsLabs.ToMathlib.ShiftReduceRuns

/-! # The derivations of the grammar

What the rules, as the tables number them, derive with their actions. The derivations of `parse.y` are
such derivations, with the values that the actions are said to give them.
-/

namespace OsLabs.Quash

open ShiftReduce

/-- The rules other than those of `top`, from the seventh on. -/
abbrev Rule := Fin 39

def Rule.number (r : Rule) : ℕ := r + 7

def Rule.lhs (r : Rule) : ℕ := yyr1.getD r.number 0

def Rule.rhs (r : Rule) : List ℕ := Quash.rhs.getD r.number []

/-- What an action makes of its values, `none` where an assertion fails. -/
def Rule.act (names : Names) (r : Rule) (values : List (Option YyStype)) : Option (Option YyStype) :=
  some (values.mapM id >>= action names r.number)

/-- The value of a token. -/
def isToken (k : ℕ) (v : Option YyStype) (w : List Token) : Prop :=
  ∃ token : Token, token.symbol = k ∧ v = some token.value ∧ w = [token]

/-- The values that the rules derive. -/
def Makes (names : Names) : ℕ → Option YyStype → List Token → Prop := Derives isToken Rule.lhs Rule.rhs (Rule.act names)

variable {names : Names} {k : ℕ} {v : Option YyStype} {vs : List (Option YyStype)} {w u : List Token} {xs : List ℕ}

theorem makes_token (token : Token) : Makes names token.symbol (some token.value) [token] :=
  .terminal ⟨token, rfl, rfl, rfl⟩

theorem makes_rule (r : Rule) (values : Yields (Makes names) r.rhs vs w) (acted : r.act names vs.reverse = some v) :
    Makes names r.lhs v w :=
  .rule r values acted

/-- A rule with one token on its right side. -/
theorem makes_unit {r : Rule} (token : Token) (isRhs : r.rhs = [token.symbol]) (isLhs : r.lhs = k)
    (acted : r.act names [some token.value] = some v) : Makes names k v [token] := by
  rw [← isLhs]
  have values : Yields (Makes names) r.rhs [some token.value] [token] := isRhs ▸ yields_one.mpr ⟨_, rfl, makes_token token⟩
  exact makes_rule r values acted

/-! ## Strings -/

theorem firstString_makes (names : Names) (tree : FirstString) :
    Makes names 36 ((firstString names tree).map .str) [tree.token] := by
  cases tree with
  | str text =>
    refine makes_unit (r := 35) (.str text) rfl rfl ?_
    have acted : (35 : Rule).act names [some (Token.str text).value] =
        some ((interpretComplexStringToken names.lookupEnv text).bind fun read => some (.str (read.takeWhile (· ≠ nul)))) := rfl
    rw [acted, firstString]
    cases interpretComplexStringToken names.lookupEnv text <;> rfl
  | simStr text => exact makes_unit (r := 36) (.simStr text) rfl rfl rfl
  | num text => exact makes_unit (r := 37) (.num text) rfl rfl rfl
  | id text => exact makes_unit (r := 38) (.id text) rfl rfl rfl

theorem specialString_makes (names : Names) (tree : SpecialString) :
    Makes names 35 (some (.str (specialString tree))) [tree.token] := by
  cases tree with
  | echoTok => exact makes_unit (r := 28) .echoTok rfl rfl rfl
  | exportTok => exact makes_unit (r := 29) .exportTok rfl rfl rfl
  | cdTok => exact makes_unit (r := 30) .cdTok rfl rfl rfl
  | killTok => exact makes_unit (r := 31) .killTok rfl rfl rfl
  | pwdTok => exact makes_unit (r := 32) .pwdTok rfl rfl rfl
  | jobsTok => exact makes_unit (r := 33) .jobsTok rfl rfl rfl
  | exitTok text => exact makes_unit (r := 34) (.exitTok text) rfl rfl rfl

theorem string_makes (names : Names) (tree : StringTree) : Makes names 34 ((string names tree).map .str) [tree.token] := by
  cases tree with
  | first tree =>
    refine makes_rule 26 (yields_one.mpr ⟨_, rfl, firstString_makes names tree⟩) ?_
    rw [string]
    cases firstString names tree <;> rfl
  | special tree => exact makes_rule 27 (yields_one.mpr ⟨_, rfl, specialString_makes names tree⟩) rfl

/-! ## Commands -/

theorem cmdArguments_makes (names : Names) (tree : CmdArguments) :
    Makes names 33 ((cmdArguments names tree).map .cmdStrs) tree.tokens := by
  induction tree with
  | last argument =>
    refine makes_rule 24 (yields_one.mpr ⟨_, rfl, string_makes names argument⟩) ?_
    rw [cmdArguments]
    cases string names argument <;> rfl
  | more argument rest ih =>
    refine makes_rule 25 (yields_two.mpr ⟨_, _, _, _, rfl, rfl, string_makes names argument, ih⟩) ?_
    rw [cmdArguments]
    cases string names argument <;> cases cmdArguments names rest <;> rfl

theorem cmd_makes (names : Names) (tree : Cmd) : Makes names 32 ((cmd names tree).map .cmdStrs) tree.tokens := by
  cases tree with
  | arguments first rest =>
    refine makes_rule 22 (yields_two.mpr
      ⟨_, _, _, _, rfl, rfl, firstString_makes names first, cmdArguments_makes names rest⟩) ?_
    rw [cmd]
    cases firstString names first <;> cases cmdArguments names rest <;> rfl
  | alone first =>
    refine makes_rule 23 (yields_one.mpr ⟨_, rfl, firstString_makes names first⟩) ?_
    rw [cmd]
    cases firstString names first <;> rfl

theorem cmdContent_makes (names : Names) (tree : CmdContent) (reads : tree.Reads w) :
    Makes names 27 ((cmdContent names tree).map .cmd) w := by
  cases tree with
  | cmd tree =>
    subst reads
    refine makes_rule 3 (yields_one.mpr ⟨_, rfl, cmd_makes names tree⟩) ?_
    rw [cmdContent]
    cases cmd names tree <;> rfl
  | echo =>
    subst reads
    exact makes_unit (r := 4) .echoTok rfl rfl rfl
  | echoArguments rest =>
    subst reads
    refine makes_rule 5 (yields_two.mpr
      ⟨_, _, _, _, rfl, rfl, makes_token .echoTok, cmdArguments_makes names rest⟩) ?_
    rw [cmdContent]
    cases cmdArguments names rest <;> rfl
  | «export» id value =>
    subst reads
    refine makes_rule 6 (yields_cons.mpr ⟨_, _, _, _, rfl, rfl, string_makes names value, yields_three.mpr
      ⟨_, _, _, _, _, _, rfl, rfl, makes_token .exportTok, makes_token (.id id), makes_token .equals⟩⟩) ?_
    rw [cmdContent]
    cases string names value <;> rfl
  | cd =>
    subst reads
    refine makes_unit (r := 7) .cdTok rfl rfl ?_
    have acted : (7 : Rule).act names [some Token.cdTok.value] =
        some ((names.lookupEnv "HOME".toList).bind fun home => some (.cmd (.cd (some home)))) := rfl
    rw [acted, cmdContent]
    cases names.lookupEnv "HOME".toList <;> rfl
  | cdTo dir =>
    subst reads
    refine makes_rule 8 (yields_two.mpr ⟨_, _, _, _, rfl, rfl, makes_token .cdTok, string_makes names dir⟩) ?_
    rw [cmdContent]
    cases string names dir <;> rfl
  | pwd =>
    subst reads
    exact makes_unit (r := 9) .pwdTok rfl rfl rfl
  | jobs =>
    subst reads
    exact makes_unit (r := 10) .jobsTok rfl rfl rfl
  | exit =>
    obtain ⟨text, rfl⟩ := reads
    exact makes_unit (r := 11) (.exitTok text) rfl rfl rfl
  | kill sig job =>
    subst reads
    exact makes_rule 12 (yields_three.mpr
      ⟨_, _, _, _, _, _, rfl, rfl, makes_token .killTok, makes_token (.num sig), makes_token (.num job)⟩) rfl

/-! ## Redirections -/

theorem redirMark_makes (names : Names) (mark : RedirMark) :
    Makes names 30 (some (.integer (redirMark mark))) [mark.token] := by
  cases mark with
  | redirIn => exact makes_unit (r := 17) .redirin rfl rfl rfl
  | redirOut => exact makes_unit (r := 18) .redirout rfl rfl rfl
  | redirOutApp => exact makes_unit (r := 19) .redirOutApp rfl rfl rfl

theorem redirInner_makes (names : Names) (tree : RedirInner) :
    Makes names 29 ((redirInner names tree).map .redirect) tree.tokens := by
  induction tree with
  | more mark file rest ih =>
    refine makes_rule 15 (yields_three.mpr
      ⟨_, _, _, _, _, _, rfl, rfl, redirMark_makes names mark, string_makes names file, ih⟩) ?_
    rw [redirInner]
    cases string names file <;> cases redirInner names rest <;> rfl
  | last mark file =>
    refine makes_rule 16 (yields_two.mpr ⟨_, _, _, _, rfl, rfl, redirMark_makes names mark, string_makes names file⟩) ?_
    rw [redirInner]
    cases string names file <;> rfl

theorem redir_makes (names : Names) (tree : Option RedirInner) :
    Makes names 28 ((redir names tree).map .redirect) (redirTokens tree) := by
  cases tree with
  | none => exact makes_rule 14 .nil rfl
  | some tree =>
    refine makes_rule 13 (yields_one.mpr ⟨_, rfl, redirInner_makes names tree⟩) ?_
    rw [redir]
    cases redirInner names tree <;> rfl

theorem cmdBg_makes (names : Names) (bg : Bool) : Makes names 31 (some (.integer (if bg then 1 else 0))) (bgTokens bg) := by
  cases bg with
  | false => exact makes_rule 20 .nil rfl
  | true => exact makes_unit (r := 21) .bckgrnd rfl rfl rfl

/-! ## Pipelines -/

theorem cmdTop_makes (names : Names) (tree : CmdTop) (reads : tree.Reads w) :
    Makes names 26 ((cmdTop names tree).map .holder) w := by
  obtain ⟨u, reads, rfl⟩ := reads
  refine makes_rule 2 (yields_three.mpr ⟨_, _, _, _, _, _, rfl, rfl, cmdContent_makes names tree.content reads,
    redir_makes names tree.redir, cmdBg_makes names tree.bg⟩) ?_
  rw [cmdTop]
  cases cmdContent names tree.content <;> cases redir names tree.redir <;> cases tree.bg <;> rfl

/-- The rules derive a line of the grammar, with the value that it has if no assertion fails. -/
theorem cmds_makes (names : Names) (tree : Cmds) (reads : tree.Reads w) :
    Makes names 25 ((cmds names tree).map .cmdList) w := by
  induction tree generalizing w with
  | last tree =>
    refine makes_rule 0 (yields_one.mpr ⟨_, rfl, cmdTop_makes names tree reads⟩) ?_
    rw [cmds]
    cases cmdTop names tree <;> rfl
  | pipe tree rest ih =>
    obtain ⟨u, v, reads, reads', rfl⟩ := reads
    refine makes_rule 1 (yields_three.mpr
      ⟨_, _, _, _, _, _, rfl, List.append_cons .., cmdTop_makes names tree reads, makes_token .pipe, ih reads'⟩) ?_
    rw [cmds]
    cases cmdTop names tree with
    | none => cases cmds names rest <;> rfl
    | some holder =>
      cases made : cmds names rest with
      | none => rfl
      | some holders =>
        obtain ⟨prev, cs, rfl⟩ := List.exists_cons_of_ne_nil (cmds_ne_nil made)
        rfl

end OsLabs.Quash
