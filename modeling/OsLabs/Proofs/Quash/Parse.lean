import Mathlib.Data.List.Basic
import OsLabs.Model.Quash.Parse

/-! # What the actions build

One redirection is in effect in each direction, the leftmost: the clauses are folded from the right and
each overwrites what its direction had. A holder gets its flags in `cmd_top`; the rule for a pipe edits
them when the command comes in front of others, and once more when another one comes in front of it.
-/

namespace OsLabs.Quash

variable {names : Names}

/-! ## Flags -/

theorem flag_added (flags added flag : BitVec 8) :
    decide ((flags ||| added) &&& flag ≠ 0) = (decide (flags &&& flag ≠ 0) || decide (added &&& flag ≠ 0)) := by
  rw [BitVec.and_or_distrib_right, ← Bool.decide_or, decide_eq_decide]
  exact (not_congr BitVec.or_eq_zero_iff).trans Decidable.not_and_iff_or_not

/-- A flag of a byte in which the flags `cleared` are dropped and `added` are set. -/
theorem flag_edited (flags cleared added flag : BitVec 8) :
    decide (((flags &&& ~~~cleared) ||| added) &&& flag ≠ 0) =
      (decide (flags &&& (~~~cleared &&& flag) ≠ 0) || decide (added &&& flag ≠ 0)) := by
  rw [flag_added, BitVec.and_assoc]

theorem decodeFlags_left (flags : BitVec 8) :
    decodeFlags ((flags &&& ~~~(redirectAppendFlag ||| redirectOutFlag)) ||| pipeOutFlag) =
      { decodeFlags flags with redirectAppend := false, redirectOut := false, pipeOut := true } := by
  simp only [decodeFlags, flag_edited]
  simp [redirectInFlag, redirectOutFlag, redirectAppendFlag, pipeInFlag, pipeOutFlag, backgroundFlag, -ne_eq]
  exact ⟨rfl, rfl, rfl⟩

theorem decodeFlags_right (flags : BitVec 8) :
    decodeFlags ((flags &&& ~~~redirectInFlag) ||| pipeInFlag) =
      { decodeFlags flags with redirectIn := false, pipeIn := true } := by
  simp only [decodeFlags, flag_edited]
  simp [redirectInFlag, redirectOutFlag, redirectAppendFlag, pipeInFlag, pipeOutFlag, backgroundFlag, -ne_eq]
  exact ⟨rfl, rfl, rfl, rfl⟩

theorem decodeFlags_background (flags : BitVec 8) :
    decodeFlags (flags ||| backgroundFlag) = { decodeFlags flags with background := true } := by
  simp only [decodeFlags, flag_added]
  simp [redirectInFlag, redirectOutFlag, redirectAppendFlag, pipeInFlag, pipeOutFlag, backgroundFlag, -ne_eq]

theorem decodeFlags_cmdTop : ∀ append out input bg : Bool,
    decodeFlags ((if append then redirectAppendFlag else 0) ||| (if out then redirectOutFlag else 0) |||
      (if input then redirectInFlag else 0) ||| (if bg then backgroundFlag else 0)) =
      ⟨input, out, append, false, false, bg⟩ := by
  decide

/-! ## Redirections -/

def RedirInner.clauses : RedirInner → List (RedirMark × StringTree)
  | .more mark file rest => (mark, file) :: rest.clauses
  | .last mark file => [(mark, file)]

/-- The clauses of a command with the names of the files. -/
def clauseFiles (names : Names) (clauses : List (RedirMark × StringTree)) : Option (List (RedirMark × List Char)) :=
  clauses.mapM fun clause => (string names clause.2).map fun file => (clause.1, file)

/-- The clause in effect for the input. -/
def inputClause (files : List (RedirMark × List Char)) : Option (RedirMark × List Char) :=
  files.find? (·.1 = .redirIn)

/-- The clause in effect for the output. -/
def outputClause (files : List (RedirMark × List Char)) : Option (RedirMark × List Char) :=
  files.find? (·.1 ≠ .redirIn)

def inEffect (files : List (RedirMark × List Char)) : Redirect where
  input := (inputClause files).map (·.2)
  out := (outputClause files).map (·.2)
  append := (outputClause files).map (·.1) = some .redirOutApp

theorem inEffect_cons (mark : RedirMark) (file : List Char) (files : List (RedirMark × List Char)) :
    inEffect ((mark, file) :: files) = match mark with
      | .redirIn => { inEffect files with input := some file }
      | .redirOut => { inEffect files with out := some file, append := false }
      | .redirOutApp => { inEffect files with out := some file, append := true } := by
  cases mark <;> rfl

theorem clauseFiles_cons (mark : RedirMark) (file : StringTree) (clauses : List (RedirMark × StringTree)) :
    clauseFiles names ((mark, file) :: clauses) = (string names file).bind fun name =>
      (clauseFiles names clauses).map fun files => (mark, name) :: files := by
  rw [clauseFiles, List.mapM_cons]
  cases string names file with
  | none => rfl
  | some name => cases rest : clauseFiles names clauses <;> rw [clauseFiles] at rest <;> simp [rest]

theorem redirInner_eq (names : Names) (tree : RedirInner) :
    redirInner names tree = (clauseFiles names tree.clauses).map inEffect := by
  induction tree with
  | last mark file =>
    rw [RedirInner.clauses, clauseFiles_cons, redirInner]
    cases string names file with
    | none => rfl
    | some name => cases mark <;> rfl
  | more mark file rest ih =>
    rw [RedirInner.clauses, clauseFiles_cons, redirInner, ih]
    cases string names file with
    | none => rfl
    | some name =>
      cases clauseFiles names rest.clauses with
      | none => rfl
      | some files =>
        simp only [Option.bind_eq_bind, Option.bind_some, Option.map_some, inEffect_cons]
        cases mark <;> rfl

/-! ## Commands -/

/-- What the actions of the grammar see to: arguments end with NULL, and a program has a name. -/
def ParsedCommand.Terminated : ParsedCommand → Prop
  | .generic args => ∃ first words, args = (first :: words).map some ++ [none]
  | .echo args => ∃ words, args = List.map some words ++ [none]
  | .eoc => False
  | _ => True

theorem cmdArguments_spec {arguments : CmdArguments} {args : CmdStrs}
    (made : cmdArguments names arguments = some args) : ∃ words, args = List.map some words ++ [none] := by
  induction arguments generalizing args with
  | last argument =>
    obtain ⟨word, -, returned⟩ := Option.bind_eq_some_iff.mp made
    cases returned
    exact ⟨[word], rfl⟩
  | more argument arguments ih =>
    obtain ⟨word, -, made⟩ := Option.bind_eq_some_iff.mp made
    obtain ⟨others, made', returned⟩ := Option.bind_eq_some_iff.mp made
    obtain ⟨words, rfl⟩ := ih made'
    cases returned
    exact ⟨word :: words, rfl⟩

theorem cmdContent_terminated {content : CmdContent} {command : ParsedCommand}
    (made : cmdContent names content = some command) : command.Terminated := by
  cases content with
  | cmd tree =>
    obtain ⟨args, array, returned⟩ := Option.bind_eq_some_iff.mp made
    cases returned
    cases tree with
    | arguments first arguments =>
      obtain ⟨name, -, pushed⟩ := Option.bind_eq_some_iff.mp array
      obtain ⟨others, rest, returned⟩ := Option.bind_eq_some_iff.mp pushed
      obtain ⟨words, rfl⟩ := cmdArguments_spec rest
      cases returned
      exact ⟨name, words, rfl⟩
    | alone first =>
      obtain ⟨name, -, returned⟩ := Option.bind_eq_some_iff.mp array
      cases returned
      exact ⟨name, [], rfl⟩
  | echo =>
    cases made
    exact ⟨[], rfl⟩
  | echoArguments arguments =>
    obtain ⟨args, array, returned⟩ := Option.bind_eq_some_iff.mp made
    cases returned
    exact cmdArguments_spec array
  | «export» id value =>
    obtain ⟨val, -, returned⟩ := Option.bind_eq_some_iff.mp made
    cases returned
    trivial
  | cd =>
    obtain ⟨home, -, returned⟩ := Option.bind_eq_some_iff.mp made
    cases returned
    trivial
  | cdTo dir =>
    obtain ⟨path, -, returned⟩ := Option.bind_eq_some_iff.mp made
    cases returned
    trivial
  | pwd =>
    cases made
    trivial
  | jobs =>
    cases made
    trivial
  | exit =>
    cases made
    trivial
  | kill sig job =>
    cases made
    trivial

theorem ParsedCommand.Terminated.toCommand_isSome {command : ParsedCommand} (terminated : command.Terminated) :
    command.toCommand.isSome = true := by
  cases command with
  | eoc => exact terminated.elim
  | _ => rfl

def CmdTop.clauses (tree : CmdTop) : List (RedirMark × StringTree) := (tree.redir.map RedirInner.clauses).getD []

theorem redir_eq (names : Names) (tree : CmdTop) :
    redir names tree.redir = (clauseFiles names tree.clauses).map inEffect := by
  rw [CmdTop.clauses]
  cases tree.redir with
  | none => rfl
  | some inner => exact redirInner_eq names inner

/-- The holder that `cmd_top` makes. -/
theorem cmdTop_spec {tree : CmdTop} {holder : ParsedHolder} (made : cmdTop names tree = some holder) :
    ∃ files, clauseFiles names tree.clauses = some files ∧ cmdContent names tree.content = some holder.cmd ∧
      holder.redirectIn = (inputClause files).map (·.2) ∧ holder.redirectOut = (outputClause files).map (·.2) ∧
      decodeFlags holder.flags = ⟨(inputClause files).isSome, (outputClause files).isSome,
        (outputClause files).map (·.1) = some .redirOutApp, false, false, tree.bg⟩ := by
  rw [cmdTop, redir_eq] at made
  cases content : cmdContent names tree.content with
  | none =>
    rw [content] at made
    cases made
  | some command =>
    cases clauses : clauseFiles names tree.clauses with
    | none =>
      rw [content, clauses] at made
      cases made
    | some files =>
      rw [content, clauses] at made
      obtain rfl := Option.some.inj made
      refine ⟨files, rfl, rfl, rfl, rfl, ?_⟩
      have decoded := decodeFlags_cmdTop (inEffect files).append (inEffect files).out.isSome
        (inEffect files).input.isSome tree.bg
      simp only [Option.isSome_iff_ne_none] at decoded
      refine decoded.trans ?_
      simp [inEffect]

/-! ## Pipelines -/

/-- The commands of a line, in the order of the source. -/
def Cmds.tops : Cmds → List CmdTop
  | .last tree => [tree]
  | .pipe tree rest => tree :: rest.tops

/-- The holder of a command: what `cmd_top` makes of it, with flags for its place. -/
def Placed (names : Names) (left : Bool) (tree : CmdTop) (rest : List CmdTop) (holder : ParsedHolder) : Prop :=
  ∃ raw, cmdTop names tree = some raw ∧ holder.cmd = raw.cmd ∧ holder.redirectIn = raw.redirectIn ∧
    holder.redirectOut = raw.redirectOut ∧ decodeFlags holder.flags = {
      redirectIn := (decodeFlags raw.flags).redirectIn && !left
      redirectOut := (decodeFlags raw.flags).redirectOut && rest.isEmpty
      redirectAppend := (decodeFlags raw.flags).redirectAppend && rest.isEmpty
      pipeIn := left
      pipeOut := !rest.isEmpty
      background := (tree :: rest).any CmdTop.bg }

theorem placed_last {tree : CmdTop} {raw : ParsedHolder} (made : cmdTop names tree = some raw) :
    Placed names false tree [] raw := by
  obtain ⟨files, -, -, -, -, flags⟩ := cmdTop_spec made
  refine ⟨raw, made, rfl, rfl, rfl, ?_⟩
  rw [flags]
  simp

/-- The command becomes the right-hand neighbour of another one. -/
theorem Placed.right {tree : CmdTop} {rest : List CmdTop} {prev : ParsedHolder}
    (placed : Placed names false tree rest prev) :
    Placed names true tree rest { prev with flags := (prev.flags &&& ~~~redirectInFlag) ||| pipeInFlag } := by
  obtain ⟨raw, made, cmd, input, output, flags⟩ := placed
  refine ⟨raw, made, cmd, input, output, ?_⟩
  simp only [decodeFlags_right, flags]
  simp

/-- The command comes in front of others, with `prev` for the next one. -/
theorem placed_left {tree next : CmdTop} {rest : List CmdTop} {raw prev : ParsedHolder} {left : Bool}
    (made : cmdTop names tree = some raw) (right : Placed names left next rest prev) :
    Placed names false tree (next :: rest) (
      let holder := { raw with
        flags := (raw.flags &&& ~~~(redirectAppendFlag ||| redirectOutFlag)) ||| pipeOutFlag }
      if prev.flags &&& backgroundFlag ≠ 0 then { holder with flags := holder.flags ||| backgroundFlag }
      else holder) := by
  obtain ⟨files, -, -, -, -, flags⟩ := cmdTop_spec made
  obtain ⟨_, -, -, -, -, flags'⟩ := right
  have test := congrArg Flags.background flags'
  simp only [decodeFlags] at test
  split
  case isTrue some =>
    refine ⟨raw, made, rfl, rfl, rfl, ?_⟩
    rw [decide_eq_true some] at test
    simp only [decodeFlags_background, decodeFlags_left, flags, List.any_cons] at test ⊢
    simp [← test]
  case isFalse none =>
    refine ⟨raw, made, rfl, rfl, rfl, ?_⟩
    rw [decide_eq_false none] at test
    simp only [decodeFlags_left, flags, List.any_cons] at test ⊢
    simp [← test]

/-- A pipeline, possibly with a command on its left. -/
inductive Piped (names : Names) : Bool → List CmdTop → List ParsedHolder → Prop
  | nil {left : Bool} : Piped names left [] []
  | cons {left : Bool} {tree : CmdTop} {trees : List CmdTop} {holder : ParsedHolder} {holders : List ParsedHolder}
      (placed : Placed names left tree trees holder) (rest : Piped names true trees holders) :
      Piped names left (tree :: trees) (holder :: holders)

theorem cmds_spec (names : Names) (tree : Cmds) (accepted : ∀ c ∈ tree.tops, (cmdTop names c).isSome) :
    ∃ holders, cmds names tree = some holders ∧ Piped names false tree.tops holders := by
  induction tree with
  | last tree =>
    obtain ⟨raw, made⟩ := Option.isSome_iff_exists.mp (accepted tree (List.mem_singleton_self tree))
    exact ⟨[raw], by rw [cmds, made]; rfl, .cons (placed_last made) .nil⟩
  | pipe tree rest ih =>
    obtain ⟨here, behind⟩ := List.forall_mem_cons.mp accepted
    obtain ⟨raw, made⟩ := Option.isSome_iff_exists.mp here
    obtain ⟨holders, built, piped⟩ := ih behind
    obtain ⟨next, trees, tops⟩ : ∃ next trees, rest.tops = next :: trees := by
      cases rest with
      | last next => exact ⟨next, [], rfl⟩
      | pipe next rest => exact ⟨next, rest.tops, rfl⟩
    rw [tops] at piped
    cases piped with
    | @cons _ _ _ prev holders placed others =>
      simp only [cmds, made, built, popFront, Option.bind_eq_bind, Option.bind_some, Cmds.tops, tops]
      exact ⟨_, rfl, .cons (placed_left made placed.right) (.cons placed.right others)⟩

theorem Piped.length_eq {left : Bool} {tops : List CmdTop} {holders : List ParsedHolder}
    (piped : Piped names left tops holders) : holders.length = tops.length := by
  induction piped with
  | nil => rfl
  | cons _ _ ih => rw [List.length_cons, List.length_cons, ih]

theorem Piped.placed {left : Bool} {tops : List CmdTop} {holders : List ParsedHolder}
    (piped : Piped names left tops holders) {i : ℕ} {tree : CmdTop} {holder : ParsedHolder}
    (command : tops[i]? = some tree) (here : holders[i]? = some holder) :
    Placed names (left || 0 < i) tree (tops.drop (i + 1)) holder := by
  induction piped generalizing i with
  | nil => cases command
  | @cons left _ _ _ _ placed _ ih =>
    cases i with
    | zero =>
      cases command
      cases here
      rw [show decide (0 < 0) = false from rfl, Bool.or_false]
      exact placed
    | succ i =>
      have later := ih command here
      rw [Bool.true_or] at later
      rw [show decide (0 < i + 1) = true from decide_eq_true (Nat.succ_pos i), Bool.or_true]
      exact later

end OsLabs.Quash
