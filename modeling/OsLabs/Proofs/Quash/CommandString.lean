import Mathlib.Data.List.ReduceOption
import Mathlib.Tactic.SplitIfs
import OsLabs.Model.Quash.CommandString
import OsLabs.Proofs.Quash.Parse

/-! # Words and their string

What a holder pushes are its words and, for a `cd` without a directory, a NULL. The condenser stops at the
first NULL; up to there it writes every word and a space, and in the end the NUL, into as many bytes as it
has allocated.
-/

namespace OsLabs.Quash

variable {names : Names}

/-! ## The condenser -/

/-- The words, each with a space behind it. -/
def spaced (words : List (List Char)) : List Char := words.flatMap (· ++ [' '])

theorem spaced_cons (word : List Char) (words : List (List Char)) :
    spaced (word :: words) = word ++ [' '] ++ spaced words := List.flatMap_cons

theorem spaced_append (words words' : List (List Char)) : spaced (words ++ words') = spaced words ++ spaced words' :=
  List.flatMap_append

theorem spaced_eq_nil {words : List (List Char)} : spaced words = [] ↔ words = [] := by
  cases words with
  | nil => exact ⟨fun _ => rfl, fun _ => rfl⟩
  | cons word words => simp [spaced_cons]

theorem write_append (before after : Bytes) (old : Option Char) (c : Char) :
    write (before ++ old :: after) before.length c = some (before ++ some c :: after) := by
  rw [write, if_pos (by simp), List.set_append_right before.length (some c) (Nat.le_refl _), Nat.sub_self]
  rfl

/-- The next byte after some that are written. -/
theorem write_next (text : List Char) (old : Option Char) (c : Char) (after : Bytes) :
    write (text.map some ++ old :: after) text.length c = some ((text ++ [c]).map some ++ after) := by
  have written := write_append (text.map some) after old c
  rw [List.length_map] at written
  rw [written, List.map_append, List.append_assoc]
  rfl

/-- A string, its NUL and the space instead. -/
theorem strcpy_spec (str text : List Char) (after : Bytes) :
    strcpy (text.map some ++ (List.replicate (str.length + 1) none ++ after)) text.length str =
      some ((text ++ str ++ [nul]).map some ++ after) := by
  induction str generalizing text with
  | nil =>
    rw [strcpy, List.append_nil]
    exact write_next text none nul after
  | cons c str ih =>
    rw [strcpy, List.length_cons, List.replicate_succ, List.cons_append, write_next]
    have rest := ih (text ++ [c])
    rw [List.length_append] at rest
    simp only [Option.bind_eq_bind, Option.bind_some]
    rw [List.append_assoc text [c] str] at rest
    exact rest

theorem sizeLoop_spec (words : List (List Char)) (rest : CmdStrs) (ss : List ℕ) (len : ℕ) :
    sizeLoop (words.map some ++ none :: rest) ss len =
      some (ss ++ words.map fun word => word.length + 1, len + (spaced words).length) := by
  induction words generalizing ss len with
  | nil => simp [sizeLoop, spaced]
  | cons word words ih =>
    have size : (spaced (word :: words)).length = word.length + 1 + (spaced words).length := by
      rw [spaced_cons, List.length_append, List.length_append, List.length_singleton]
    rw [List.map_cons, List.cons_append, sizeLoop, ih, size, pushBack, List.map_cons, List.append_assoc,
      List.singleton_append, Nat.add_assoc]

theorem copyLoop_spec (words : List (List Char)) (rest : CmdStrs) (text : List Char) (after : Bytes) :
    copyLoop (words.map some ++ none :: rest) (words.map fun word => word.length + 1)
        (text.map some ++ (List.replicate (spaced words).length none ++ after)) text.length =
      some ((text ++ spaced words).map some ++ after, (text ++ spaced words).length) := by
  induction words generalizing text with
  | nil => simp [copyLoop, spaced]
  | cons word words ih =>
    have room : List.replicate (spaced (word :: words)).length (none : Option Char) ++ after =
        List.replicate (word.length + 1) none ++ (List.replicate (spaced words).length none ++ after) := by
      rw [spaced_cons, List.length_append, List.length_append, List.length_singleton, List.replicate_add,
        List.append_assoc]
    rw [List.map_cons, List.cons_append, List.map_cons, copyLoop, room, strcpy_spec]
    simp only [Option.bind_eq_bind, Option.bind_some, popFront]
    have overwritten := write_append ((text ++ word).map some) (List.replicate (spaced words).length none ++ after)
      (some nul) ' '
    have split : (text ++ word ++ [nul]).map some ++ (List.replicate (spaced words).length none ++ after) =
        (text ++ word).map some ++ some nul :: (List.replicate (spaced words).length none ++ after) := by
      rw [List.map_append, List.append_assoc]
      rfl
    have last : text.length + (word.length + 1) - 1 = ((text ++ word).map some).length := by
      rw [List.length_map, List.length_append]
      omega
    rw [split, last, overwritten, Option.bind_some]
    have next := ih (text ++ word ++ [' '])
    rw [List.map_append, List.append_assoc] at next
    have length : text.length + (word.length + 1) = (text ++ word ++ [' ']).length := by
      simp only [List.length_append, List.length_singleton]
      omega
    rw [length, spaced_cons, ← List.append_assoc, ← List.append_assoc]
    exact next

/-- The words up to the first NULL, in exactly the bytes allocated. -/
theorem condenseStringArray_spec (words : List (List Char)) (rest : CmdStrs) :
    condenseStringArray (words.map some ++ none :: rest) = some ((spaced words ++ [nul]).map some) := by
  have sizes := sizeLoop_spec words rest newDeque 0
  have copied := copyLoop_spec words rest [] [none]
  rw [newDeque, List.nil_append, Nat.zero_add] at sizes
  rw [List.map_nil, List.nil_append, List.nil_append, ← List.replicate_succ', List.length_nil] at copied
  rw [condenseStringArray, newDeque, sizes]
  simp only [Option.bind_eq_bind, Option.bind_some]
  rw [copied, Option.bind_some]
  exact (write_next (spaced words) none nul []).trans (by rw [List.append_nil])

/-! ## Up to the first NULL -/

/-- The words in front of the first NULL. -/
def kept : CmdStrs → List (List Char)
  | [] => []
  | none :: _ => []
  | some word :: strs => word :: kept strs

/-- The words behind the first NULL. -/
def lost : CmdStrs → List (List Char)
  | [] => []
  | none :: strs => strs.reduceOption
  | some _ :: strs => lost strs

theorem kept_append_lost (strs : CmdStrs) : kept strs ++ lost strs = strs.reduceOption := by
  induction strs with
  | nil => rfl
  | cons str strs ih =>
    cases str with
    | none => rw [kept, lost, List.reduceOption_cons_of_none, List.nil_append]
    | some word => rw [kept, lost, List.reduceOption_cons_of_some, ← ih, List.cons_append]

theorem kept_spec (strs : CmdStrs) : ∃ rest, strs ++ [none] = (kept strs).map some ++ none :: rest := by
  induction strs with
  | nil => exact ⟨[], rfl⟩
  | cons str strs ih =>
    cases str with
    | none => exact ⟨strs ++ [none], rfl⟩
    | some word =>
      obtain ⟨rest, split⟩ := ih
      exact ⟨rest, by rw [kept, List.cons_append, split]; rfl⟩

theorem lost_append (words : List (List Char)) (strs : CmdStrs) : lost (words.map some ++ strs) = lost strs := by
  induction words with
  | nil => rfl
  | cons word words ih => exact ih

@[simp] theorem reduceOption_words (words : List (List Char)) : (words.map some).reduceOption = words := by
  rw [List.reduceOption, List.filterMap_map]
  exact List.filterMap_some

/-! ## Words of a holder -/

/-- The words of a command that are present. -/
def ParsedCommand.words : ParsedCommand → List (List Char)
  | .generic args => args.reduceOption
  | .echo args => "echo".toList :: args.reduceOption
  | .export envVar val => ["export".toList, envVar, val]
  | .cd dir => "cd".toList :: dir.toList
  | .kill _ _ sigStr jobStr => ["kill".toList, sigStr, jobStr]
  | .pwd => ["PWD".toList]
  | .jobs => ["JOBS".toList]
  | .exit => ["EXIT".toList]
  | .eoc => []

/-- The redirections in effect and the pipe symbol. -/
def ParsedHolder.trailing (holder : ParsedHolder) : List (List Char) :=
  let flags := decodeFlags holder.flags
  (if flags.redirectIn then ['<'] :: holder.redirectIn.toList else []) ++
    (if flags.redirectAppend then [['>', '>']] else if flags.redirectOut then [['>']] else []) ++
    (if flags.redirectOut then holder.redirectOut.toList else []) ++
    (if flags.pipeOut then [['|']] else [])

def ParsedHolder.words (holder : ParsedHolder) : List (List Char) := holder.cmd.words ++ holder.trailing

/-- The sign of a script that runs in the background. -/
def ampersand (holders : List ParsedHolder) : List (List Char) :=
  if holders.head?.any fun first => (decodeFlags first.flags).background then [['&']] else []

/-- The words of a script. -/
def jobWords (holders : List ParsedHolder) : List (List Char) := holders.flatMap ParsedHolder.words ++ ampersand holders

/-- What a command pushes. -/
def ParsedCommand.pushed : ParsedCommand → CmdStrs
  | .cd dir => [some "cd".toList, dir]
  | command => command.words.map some

def ParsedHolder.pushed (holder : ParsedHolder) : CmdStrs := holder.cmd.pushed ++ holder.trailing.map some

/-- A holder whose redirections in effect have files. -/
structure Spellable (holder : ParsedHolder) : Prop where
  cmd : holder.cmd.Terminated
  input : (decodeFlags holder.flags).redirectIn = true → ∃ file, holder.redirectIn = some file
  output : (decodeFlags holder.flags).redirectOut = true → ∃ file, holder.redirectOut = some file

theorem pushArgs_spec (words : List (List Char)) (strs : CmdStrs) :
    pushArgs (words.map some ++ [none]) strs = some (strs ++ words.map some) := by
  induction words generalizing strs with
  | nil => exact congrArg some (List.append_nil strs).symm
  | cons word words ih =>
    rw [List.map_cons, List.cons_append, pushArgs, ih, pushBack, List.append_assoc]
    rfl

theorem stringifyCommand_spec {cmd : ParsedCommand} (terminated : cmd.Terminated) (strs : CmdStrs) :
    stringifyCommand cmd strs = some (strs ++ cmd.pushed) := by
  cases cmd with
  | generic args =>
    obtain ⟨first, words, rfl⟩ := terminated
    rw [stringifyCommand, stringifyGenericCmd, pushArgs_spec, ParsedCommand.pushed, ParsedCommand.words]
    · simp [List.reduceOption_append]
    · simp
  | echo args =>
    obtain ⟨words, rfl⟩ := terminated
    rw [stringifyCommand, stringifyEchoCmd, pushArgs_spec, ParsedCommand.pushed, ParsedCommand.words]
    · simp [List.reduceOption_append, pushBack]
    · simp
  | «export» envVar val => simp [stringifyCommand, stringifyExportCmd, ParsedCommand.pushed, ParsedCommand.words, pushBack]
  | cd dir => simp [stringifyCommand, stringifyCdCmd, ParsedCommand.pushed, pushBack]
  | kill sig job sigStr jobStr =>
    simp [stringifyCommand, stringifyKillCmd, ParsedCommand.pushed, ParsedCommand.words, pushBack]
  | pwd => rfl
  | jobs => rfl
  | exit => rfl
  | eoc => exact terminated.elim

theorem stringifyHolder_spec {holder : ParsedHolder} (spellable : Spellable holder) (strs : CmdStrs) :
    stringifyHolder holder strs = some (strs ++ holder.pushed) := by
  obtain ⟨cmd, input, output⟩ := spellable
  rw [stringifyHolder, stringifyCommand_spec cmd, ParsedHolder.pushed, ParsedHolder.trailing]
  simp only [decodeFlags, decide_eq_true_eq] at input output ⊢
  simp only [Option.bind_eq_bind, Option.bind_some, pushBack]
  by_cases reads : holder.flags &&& redirectInFlag ≠ 0
  · obtain ⟨inFile, isFile⟩ := input reads
    by_cases writes : holder.flags &&& redirectOutFlag ≠ 0
    · obtain ⟨outFile, isFile'⟩ := output writes
      rw [isFile, isFile']
      split_ifs <;> simp
    · rw [isFile]
      split_ifs <;> simp
  · by_cases writes : holder.flags &&& redirectOutFlag ≠ 0
    · obtain ⟨outFile, isFile'⟩ := output writes
      rw [isFile']
      split_ifs <;> simp
    · split_ifs <;> simp

theorem stringifyHolders_spec {holders : List ParsedHolder} (spellable : ∀ holder ∈ holders, Spellable holder)
    (redirectIn redirectOut : Option (List Char)) (flags : BitVec 8) (strs : CmdStrs) :
    stringifyHolders (holders ++ [mkCommandHolder redirectIn redirectOut flags .eoc]) strs =
      some (strs ++ holders.flatMap ParsedHolder.pushed) := by
  induction holders generalizing strs with
  | nil => exact congrArg some (List.append_nil strs).symm
  | cons holder holders ih =>
    obtain ⟨here, behind⟩ := List.forall_mem_cons.mp spellable
    have command : holder.cmd ≠ .eoc := by
      intro eoc
      have terminated := here.cmd
      rw [eoc] at terminated
      exact terminated
    rw [List.cons_append, stringifyHolders, if_neg command, stringifyHolder_spec here]
    simp only [Option.bind_eq_bind, Option.bind_some]
    rw [ih behind, List.flatMap_cons, List.append_assoc]

theorem stringifyScript_spec {holders : List ParsedHolder} (spellable : ∀ holder ∈ holders, Spellable holder)
    (nonempty : holders ≠ []) (redirectIn redirectOut : Option (List Char)) (flags : BitVec 8) :
    stringifyScript (holders ++ [mkCommandHolder redirectIn redirectOut flags .eoc]) newDeque =
      some (holders.flatMap ParsedHolder.pushed ++ (ampersand holders).map some ++ [none]) := by
  obtain ⟨first, rest, rfl⟩ := List.exists_cons_of_ne_nil nonempty
  rw [stringifyScript, stringifyHolders_spec spellable]
  simp only [Option.bind_eq_bind, Option.bind_some, List.cons_append, List.head?_cons, newDeque, List.nil_append,
    ampersand, Option.any_some, decodeFlags, decide_eq_true_eq, pushBack]
  split
  · rfl
  · rw [List.map_nil, List.append_nil]
    rfl

/-! ## What is lost -/

theorem reduceOption_pushed (holder : ParsedHolder) : holder.pushed.reduceOption = holder.words := by
  rw [ParsedHolder.pushed, List.reduceOption_append, reduceOption_words, ParsedHolder.words]
  congr 1
  cases holder.cmd with
  | cd dir => cases dir <;> rfl
  | _ => exact reduceOption_words _

theorem reduceOption_holders (holders : List ParsedHolder) :
    (holders.flatMap ParsedHolder.pushed).reduceOption = holders.flatMap ParsedHolder.words := by
  induction holders with
  | nil => rfl
  | cons holder holders ih =>
    rw [List.flatMap_cons, List.reduceOption_append, reduceOption_pushed, ih, List.flatMap_cons]

theorem ParsedCommand.words_ne_nil {cmd : ParsedCommand} (terminated : cmd.Terminated) : cmd.words ≠ [] := by
  cases cmd with
  | generic args =>
    obtain ⟨first, words, rfl⟩ := terminated
    simp [ParsedCommand.words, List.reduceOption_append]
  | eoc => exact terminated.elim
  | _ => exact List.cons_ne_nil _ _

/-- Without a missing directory, a holder pushes its words. -/
theorem pushed_eq {holder : ParsedHolder} (present : holder.cmd ≠ .cd none) :
    holder.pushed = holder.words.map some := by
  rw [ParsedHolder.pushed, ParsedHolder.words, List.map_append]
  congr 1
  cases command : holder.cmd with
  | cd dir =>
    cases dir with
    | none => exact absurd command present
    | some dir => rfl
  | _ => rfl

/-- Words are lost if something follows a `cd` without a directory. -/
theorem lost_eq_nil_iff {holders : List ParsedHolder} (spellable : ∀ holder ∈ holders, Spellable holder)
    (last : List (List Char)) :
    lost (holders.flatMap ParsedHolder.pushed ++ last.map some) = [] ↔
      ∀ i holder, holders[i]? = some holder → holder.cmd = .cd none →
        i + 1 = holders.length ∧ holder.trailing = [] ∧ last = [] := by
  induction holders with
  | nil =>
    have nothing := lost_append last []
    rw [List.append_nil] at nothing
    exact ⟨fun _ i holder here => (by cases here), fun _ => nothing⟩
  | cons holder holders ih =>
    obtain ⟨here, behind⟩ := List.forall_mem_cons.mp spellable
    rw [List.flatMap_cons, List.append_assoc]
    by_cases missing : holder.cmd = .cd none
    · have pushed : holder.pushed = some "cd".toList :: none :: holder.trailing.map some := by
        rw [ParsedHolder.pushed, missing]
        rfl
      rw [pushed, List.cons_append, List.cons_append, lost, lost, List.reduceOption_append, reduceOption_words,
        List.reduceOption_append, reduceOption_holders, reduceOption_words]
      simp only [List.append_eq_nil_iff]
      constructor
      · rintro ⟨trailing, others, none⟩
        -- Every further holder would have words.
        cases holders with
        | nil =>
          intro i found isHere _
          cases i with
          | zero =>
            cases isHere
            exact ⟨rfl, trailing, none⟩
          | succ i => cases isHere
        | cons next holders =>
          obtain ⟨nextSpellable, -⟩ := List.forall_mem_cons.mp behind
          rw [List.flatMap_cons, List.append_eq_nil_iff, ParsedHolder.words, List.append_eq_nil_iff] at others
          exact absurd others.1.1 (ParsedCommand.words_ne_nil nextSpellable.cmd)
      · intro alone
        obtain ⟨length, trailing, none⟩ := alone 0 holder rfl missing
        obtain rfl := List.length_eq_zero_iff.mp (Nat.succ.inj length).symm
        exact ⟨trailing, rfl, none⟩
    · rw [pushed_eq missing, lost_append, ih behind]
      constructor
      · intro rest i found isHere isMissing
        cases i with
        | zero =>
          cases isHere
          exact absurd isMissing missing
        | succ i =>
          obtain ⟨length, trailing, none⟩ := rest i found isHere isMissing
          exact ⟨congrArg (· + 1) length, trailing, none⟩
      · intro all i found isHere isMissing
        obtain ⟨length, trailing, none⟩ := all (i + 1) found isHere isMissing
        exact ⟨Nat.succ.inj length, trailing, none⟩

/-- The words up to the first NULL make the string. -/
theorem parsedStr_spec {holders : List ParsedHolder} (spellable : ∀ holder ∈ holders, Spellable holder)
    (nonempty : holders ≠ []) (redirectIn redirectOut : Option (List Char)) (flags : BitVec 8) :
    parsedStr (holders ++ [mkCommandHolder redirectIn redirectOut flags .eoc]) =
      some ((spaced (kept (holders.flatMap ParsedHolder.pushed ++ (ampersand holders).map some)) ++ [nul]).map some) := by
  obtain ⟨rest, split⟩ := kept_spec (holders.flatMap ParsedHolder.pushed ++ (ampersand holders).map some)
  rw [parsedStr, stringifyScript_spec spellable nonempty, split]
  exact condenseStringArray_spec _ rest

/-! ## What the parser returns -/

theorem Placed.spellable {left : Bool} {tree : CmdTop} {rest : List CmdTop} {holder : ParsedHolder}
    (placed : Placed names left tree rest holder) : Spellable holder := by
  obtain ⟨raw, made, cmd, input, output, flags⟩ := placed
  obtain ⟨files, -, content, input', output', flags'⟩ := cmdTop_spec made
  refine ⟨cmd ▸ cmdContent_terminated content, ?_, ?_⟩
  · rw [flags, flags', input, input', Bool.and_eq_true]
    rintro ⟨some, -⟩
    obtain ⟨clause, found⟩ := Option.isSome_iff_exists.mp some
    exact ⟨clause.2, by rw [found, Option.map_some]⟩
  · rw [flags, flags', output, output', Bool.and_eq_true]
    rintro ⟨some, -⟩
    obtain ⟨clause, found⟩ := Option.isSome_iff_exists.mp some
    exact ⟨clause.2, by rw [found, Option.map_some]⟩

theorem Piped.spellable {left : Bool} {tops : List CmdTop} {holders : List ParsedHolder}
    (piped : Piped names left tops holders) : ∀ holder ∈ holders, Spellable holder := by
  induction piped with
  | nil => exact List.forall_mem_nil _
  | cons placed _ ih => exact List.forall_mem_cons.mpr ⟨placed.spellable, ih⟩

theorem accepted_of_cmds {tree : Cmds} {holders : List ParsedHolder} (built : cmds names tree = some holders) :
    ∀ c ∈ tree.tops, (cmdTop names c).isSome := by
  induction tree generalizing holders with
  | last tree =>
    obtain ⟨holder, made, -⟩ := Option.bind_eq_some_iff.mp built
    intro c mem
    rw [List.mem_singleton.mp mem, made]
    rfl
  | pipe tree rest ih =>
    obtain ⟨holder, made, built⟩ := Option.bind_eq_some_iff.mp built
    obtain ⟨others, built', -⟩ := Option.bind_eq_some_iff.mp built
    exact List.forall_mem_cons.mpr ⟨by rw [made]; rfl, ih built'⟩

/-- The holders of an accepted line. -/
theorem piped_of_top {tree : Cmds} {holders : List ParsedHolder} {eoc : ParsedHolder}
    (built : top names tree = some (holders ++ [eoc])) : holders ≠ [] ∧ Piped names false tree.tops holders := by
  obtain ⟨holders', made, returned⟩ := Option.bind_eq_some_iff.mp built
  obtain ⟨holders'', made', piped⟩ := cmds_spec names tree (accepted_of_cmds made)
  obtain rfl : holders' = holders'' := Option.some.inj (made.symm.trans made')
  obtain ⟨rfl, -⟩ := List.append_inj' (Option.some.inj returned) rfl
  refine ⟨?_, piped⟩
  intro empty
  rw [empty] at piped
  cases tree with
  | last c => cases piped
  | pipe c rest => cases piped

end OsLabs.Quash
