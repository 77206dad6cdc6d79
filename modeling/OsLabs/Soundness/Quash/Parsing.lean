import OsLabs.Proofs.Quash.Parse
import OsLabs.Soundness.Quash.Pipeline

/-! # What the parser returns for a pipeline

One holder for each command, in the order of the source, with the flags that the executor relies on.
-/

namespace OsLabs.Quash

variable {names : Names} {tree : Cmds}

/-- The holder of command `i` of a line, whose redirections name `files`. -/
structure HolderOf (names : Names) (tops : List CmdTop) (i : ℕ) (c : CmdTop) (files : List (RedirMark × List Char))
    (holder : ParsedHolder) : Prop where
  clauses : clauseFiles names c.clauses = some files
  cmd : cmdContent names c.content = some holder.cmd
  pipeIn : (decodeFlags holder.flags).pipeIn = true ↔ 0 < i
  pipeOut : (decodeFlags holder.flags).pipeOut = true ↔ i + 1 < tops.length
  redirectIn : (decodeFlags holder.flags).redirectIn = true ↔ i = 0 ∧ ∃ file, inputClause files = some (.redirIn, file)
  redirectOut : (decodeFlags holder.flags).redirectOut = true ↔
    i + 1 = tops.length ∧ ∃ mark file, outputClause files = some (mark, file)
  redirectAppend : (decodeFlags holder.flags).redirectAppend = true ↔
    i + 1 = tops.length ∧ ∃ file, outputClause files = some (.redirOutApp, file)
  appends : (decodeFlags holder.flags).redirectAppend = true →
    (decodeFlags holder.flags).redirectOut = true ∧ holder.redirectOut ≠ none
  inputFile : holder.redirectIn = (inputClause files).map (·.2)
  outputFile : holder.redirectOut = (outputClause files).map (·.2)
  background : (decodeFlags holder.flags).background = true ↔ ∃ c' ∈ tops.drop i, c'.bg = true

theorem inputClause_mark {files : List (RedirMark × List Char)} {clause : RedirMark × List Char}
    (found : inputClause files = some clause) : clause.1 = .redirIn := by
  rw [inputClause] at found
  simpa using List.find?_some found

theorem holderOf_placed {tops : List CmdTop} {i : ℕ} {c : CmdTop} {holder : ParsedHolder}
    (command : tops[i]? = some c) (placed : Placed names (0 < i) c (tops.drop (i + 1)) holder) :
    ∃ files, HolderOf names tops i c files holder := by
  obtain ⟨raw, made, cmd, input, output, flags⟩ := placed
  obtain ⟨files, clauses, content, input', output', flags'⟩ := cmdTop_spec made
  rw [flags'] at flags
  have inside := (List.getElem?_eq_some_iff.mp command).1
  have last : (tops.drop (i + 1)).isEmpty = true ↔ i + 1 = tops.length := by
    rw [List.isEmpty_iff, List.drop_eq_nil_iff]
    omega
  have rest : tops.drop i = c :: tops.drop (i + 1) := by
    rw [List.drop_eq_getElem_cons inside, (List.getElem?_eq_some_iff.mp command).2]
  refine ⟨files, clauses, cmd ▸ content, ?_, ?_, ?_, ?_, ?_, ?_, input.trans input', output.trans output', ?_⟩
  · rw [flags, decide_eq_true_eq]
  · rw [flags]
    simp only [Bool.not_eq_true', ← Bool.not_eq_true, last]
    omega
  · rw [flags]
    simp only [Bool.and_eq_true, Bool.not_eq_true', decide_eq_false_iff_not, Nat.not_lt, Nat.le_zero]
    rw [and_comm, Option.isSome_iff_exists]
    apply and_congr_right
    intro _
    constructor
    · rintro ⟨⟨mark, file⟩, found⟩
      obtain rfl : mark = .redirIn := inputClause_mark found
      exact ⟨file, found⟩
    · rintro ⟨file, found⟩
      exact ⟨_, found⟩
  · rw [flags]
    simp only [Bool.and_eq_true, last]
    rw [and_comm, Option.isSome_iff_exists, Prod.exists]
  · rw [flags]
    simp only [Bool.and_eq_true, last, decide_eq_true_eq]
    rw [and_comm, Option.map_eq_some_iff, Prod.exists]
    simp
  · rw [flags, output, output']
    simp only [Bool.and_eq_true, decide_eq_true_eq, Option.map_eq_some_iff]
    rintro ⟨⟨clause, found, -⟩, alone⟩
    rw [found]
    exact ⟨⟨rfl, alone⟩, nofun⟩
  · rw [flags, rest]
    exact List.any_eq_true

/-- The holders of every accepted line. -/
theorem pipeline_parsed (accepted : ∀ c ∈ tree.tops, (cmdTop names c).isSome) :
    ∃ holders, top names tree = some (holders ++ [mkCommandHolder none none 0 .eoc]) ∧
      holders.length = tree.tops.length ∧ ∀ i c holder, tree.tops[i]? = some c → holders[i]? = some holder →
        ∃ files, HolderOf names tree.tops i c files holder := by
  obtain ⟨holders, built, piped⟩ := cmds_spec names tree accepted
  refine ⟨holders, by rw [top, built]; rfl, piped.length_eq, ?_⟩
  intro i c holder command here
  have placed := piped.placed command here
  rw [Bool.false_or] at placed
  exact holderOf_placed command placed

/-- `cat < a < b | sort & | wc >> c > d`. -/
theorem pipeline_parsed_three :
    let names : Names := ⟨fun _ => none, some⟩
    let word (c : Char) : StringTree := .first (.id [c])
    let cat : CmdTop := ⟨.cmd (.alone (.id ['c'])),
      some (.more .redirIn (word 'a') (.last .redirIn (word 'b'))), false⟩
    let sort : CmdTop := ⟨.cmd (.alone (.id ['s'])), none, true⟩
    let wc : CmdTop := ⟨.cmd (.alone (.id ['w'])),
      some (.more .redirOutApp (word 'c') (.last .redirOut (word 'd'))), false⟩
    (∃ holders, top names (.pipe cat (.pipe sort (.last wc))) = some (holders ++ [mkCommandHolder none none 0 .eoc]) ∧
      holders.length = 3) ∧
    top names (.pipe cat (.pipe sort (.last wc))) = some [
      ⟨some ['a'], none, 0x61, .generic [some ['c'], none]⟩,
      ⟨none, none, 0x70, .generic [some ['s'], none]⟩,
      ⟨none, some ['c'], 0x1c, .generic [some ['w'], none]⟩,
      ⟨none, none, 0, .eoc⟩] := by
  intro names word cat sort wc
  have accepted : ∀ c ∈ (Cmds.pipe cat (.pipe sort (.last wc))).tops, (cmdTop names c).isSome := by
    intro c mem
    simp only [Cmds.tops, List.mem_cons, List.not_mem_nil, or_false] at mem
    obtain rfl | rfl | rfl := mem <;> rfl
  obtain ⟨holders, built, length, -⟩ := pipeline_parsed accepted
  exact ⟨⟨holders, built, length⟩, by decide⟩

/-! ## What the executor gets -/

theorem mapM_toHolder {holders : List ParsedHolder} (commands : ∀ holder ∈ holders, holder.cmd.toCommand.isSome = true) :
    ∃ run : List CommandHolder, holders.mapM ParsedHolder.toHolder = some run ∧ run.length = holders.length ∧
      ∀ (i : ℕ) (holder : CommandHolder), run[i]? = some holder →
        ∃ parsed : ParsedHolder, holders[i]? = some parsed ∧ holder.flags = decodeFlags parsed.flags := by
  induction holders with
  | nil =>
    refine ⟨[], rfl, rfl, ?_⟩
    intro i holder here
    rw [List.getElem?_nil] at here
    cases here
  | cons parsed holders ih =>
    obtain ⟨here, behind⟩ := List.forall_mem_cons.mp commands
    obtain ⟨command, isCommand⟩ := Option.isSome_iff_exists.mp here
    obtain ⟨run, mapped, length, each⟩ := ih behind
    have first : parsed.toHolder =
        some ⟨parsed.redirectIn, parsed.redirectOut, decodeFlags parsed.flags, command⟩ := by
      rw [ParsedHolder.toHolder, isCommand, Option.map_some]
    refine ⟨_ :: run, by rw [List.mapM_cons, first, mapped]; rfl, congrArg (· + 1) length, ?_⟩
    intro i holder here
    cases i with
    | zero =>
      cases here
      exact ⟨parsed, rfl, rfl⟩
    | succ i => exact each i holder here

/-- A parsed line is a pipeline that the executor connects. -/
theorem parsed_pipeline (accepted : ∀ c ∈ tree.tops, (cmdTop names c).isSome) :
    ∃ holders run, top names tree = some (holders ++ [mkCommandHolder none none 0 .eoc]) ∧
      holders.mapM ParsedHolder.toHolder = some run ∧ Pipeline run := by
  obtain ⟨holders, built, piped⟩ := cmds_spec names tree accepted
  have length := piped.length_eq
  have command (i : ℕ) (inside : i < holders.length) : ∃ c, tree.tops[i]? = some c :=
    ⟨_, List.getElem?_eq_getElem (length ▸ inside)⟩
  have commands : ∀ holder ∈ holders, holder.cmd.toCommand.isSome = true := by
    intro holder mem
    obtain ⟨i, here⟩ := List.mem_iff_getElem?.mp mem
    obtain ⟨c, command⟩ := command i (List.getElem?_eq_some_iff.mp here).1
    obtain ⟨raw, made, cmd, -⟩ := piped.placed command here
    obtain ⟨files, -, content, -⟩ := cmdTop_spec made
    rw [cmd]
    exact (cmdContent_terminated content).toCommand_isSome
  obtain ⟨run, mapped, run_length, each⟩ := mapM_toHolder commands
  have placed (i : ℕ) (holder : CommandHolder) (here : run[i]? = some holder) :
      (holder.flags.pipeIn = true ↔ 0 < i) ∧ (holder.flags.pipeOut = true ↔ i + 1 < run.length) := by
    obtain ⟨parsed, isParsed, flags⟩ := each i holder here
    obtain ⟨c, command⟩ := command i (List.getElem?_eq_some_iff.mp isParsed).1
    have inPlace := piped.placed command isParsed
    rw [Bool.false_or] at inPlace
    obtain ⟨files, holderOf⟩ := holderOf_placed command inPlace
    rw [flags, run_length, length]
    exact ⟨holderOf.pipeIn, holderOf.pipeOut⟩
  refine ⟨holders, run, by rw [top, built]; rfl, mapped, ?_, fun i holder here => (placed i holder here).1,
    fun i holder here => (placed i holder here).2⟩
  intro empty
  have none : tree.tops.length = 0 := by rw [← length, ← run_length, empty, List.length_nil]
  cases tree with
  | last c => cases none
  | pipe c rest => cases none

end OsLabs.Quash
