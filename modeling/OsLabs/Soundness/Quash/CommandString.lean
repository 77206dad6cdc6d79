import OsLabs.Proofs.Quash.CommandString

/-! # The string of a job

It holds every word of the script, unless something follows a `cd` whose directory does not resolve: the
NULL that this command pushes for its directory ends the array for the condenser.
-/

namespace OsLabs.Quash

variable {names : Names} {tree : Cmds} {holders : List ParsedHolder}

/-- Every `cd` without a directory is the last command, has no redirection in effect, and the script does
not run in the background. -/
def NothingFollows (holders : List ParsedHolder) : Prop :=
  ∀ i holder, holders[i]? = some holder → holder.cmd = .cd none → i + 1 = holders.length ∧
    (decodeFlags holder.flags).redirectIn = false ∧ (decodeFlags holder.flags).redirectOut = false ∧
    ∀ first, holders.head? = some first → (decodeFlags first.flags).background = false

theorem ampersand_eq_nil : ampersand holders = [] ↔
    ∀ first, holders.head? = some first → (decodeFlags first.flags).background = false := by
  cases holders with
  | nil => exact ⟨fun _ first none => (by cases none), fun _ => rfl⟩
  | cons first rest =>
    have sign : ampersand (first :: rest) = if (decodeFlags first.flags).background then [['&']] else [] := rfl
    simp only [sign, List.head?_cons, Option.some.injEq, forall_eq']
    cases (decodeFlags first.flags).background <;> simp

/-- The last holder, which writes to no pipe, and appends only where it writes. -/
theorem trailing_eq_nil {left : Bool} {c : CmdTop} {holder : ParsedHolder} (placed : Placed names left c [] holder) :
    holder.trailing = [] ↔
      (decodeFlags holder.flags).redirectIn = false ∧ (decodeFlags holder.flags).redirectOut = false := by
  obtain ⟨raw, made, cmd, input, output, flags⟩ := placed
  obtain ⟨files, -, -, -, output', flags'⟩ := cmdTop_spec made
  have appends : (decodeFlags holder.flags).redirectAppend = true → (decodeFlags holder.flags).redirectOut = true := by
    rw [flags, flags']
    simp only [Bool.and_eq_true, decide_eq_true_eq, Option.map_eq_some_iff]
    rintro ⟨⟨clause, found, -⟩, alone⟩
    exact ⟨by rw [found]; rfl, alone⟩
  have last : (decodeFlags holder.flags).pipeOut = false := by
    rw [flags]
    rfl
  rw [ParsedHolder.trailing]
  cases reads : (decodeFlags holder.flags).redirectIn with
  | true => simp
  | false =>
    cases writes : (decodeFlags holder.flags).redirectOut with
    | true => cases (decodeFlags holder.flags).redirectAppend <;> simp [last]
    | false =>
      have notAppends : (decodeFlags holder.flags).redirectAppend = false := by
        by_contra append
        exact absurd (writes.symm.trans (appends (Bool.not_eq_false _ ▸ append))) Bool.false_ne_true
      simp [last, notAppends]

/-- The bytes that are allocated are all written, and no others. They hold all words of the script exactly
when nothing follows a `cd` without a directory. -/
theorem parsedStr_eq_iff (built : top names tree = some (holders ++ [mkCommandHolder none none 0 .eoc])) :
    (∃ text : List Char, parsedStr (holders ++ [mkCommandHolder none none 0 .eoc]) = some (text.map some)) ∧
    (parsedStr (holders ++ [mkCommandHolder none none 0 .eoc]) = some ((spaced (jobWords holders) ++ [nul]).map some) ↔
      NothingFollows holders) := by
  obtain ⟨nonempty, piped⟩ := piped_of_top built
  have spellable := piped.spellable
  have written := parsedStr_spec spellable nonempty none none 0
  refine ⟨⟨_, written⟩, ?_⟩
  set strs := holders.flatMap ParsedHolder.pushed ++ (ampersand holders).map some with strs_def
  have words : jobWords holders = kept strs ++ lost strs := by
    rw [kept_append_lost, strs_def, List.reduceOption_append, reduceOption_words, reduceOption_holders, jobWords]
  have nothing : parsedStr (holders ++ [mkCommandHolder none none 0 .eoc]) =
      some ((spaced (jobWords holders) ++ [nul]).map some) ↔ lost strs = [] := by
    rw [written, Option.some.injEq, List.map_inj_right fun _ _ => Option.some.inj,
      List.append_left_inj, words, spaced_append, List.self_eq_append_right, spaced_eq_nil]
  rw [nothing, lost_eq_nil_iff spellable]
  apply forall_congr'
  intro i
  apply forall_congr'
  intro holder
  apply forall_congr'
  intro here
  apply forall_congr'
  intro _
  apply and_congr_right
  intro length
  obtain ⟨c, command⟩ : ∃ c, tree.tops[i]? = some c :=
    ⟨_, List.getElem?_eq_getElem (piped.length_eq ▸ (List.getElem?_eq_some_iff.mp here).1)⟩
  have placed := piped.placed command here
  rw [List.drop_eq_nil_iff.mpr (Nat.le_of_eq (length.trans piped.length_eq).symm)] at placed
  rw [trailing_eq_nil placed, ampersand_eq_nil, and_assoc]

/-! ## Lines -/

/-- A system in which no path resolves. -/
def unresolved : Names := ⟨fun _ => none, fun _ => none⟩

def cdTo : CmdTop := ⟨.cdTo (.first (.id ['d'])), none, false⟩

def cat : CmdTop := ⟨.cmd (.alone (.id ['c'])), none, false⟩

/-- `cat | cd d`: the `cd` is the last command. -/
theorem parsedStr_eq_last :
    (∃ holders, top unresolved (.pipe cat (.last cdTo)) = some (holders ++ [mkCommandHolder none none 0 .eoc]) ∧
      (parsedStr (holders ++ [mkCommandHolder none none 0 .eoc]) =
        some ((spaced (jobWords holders) ++ [nul]).map some) ↔ NothingFollows holders)) ∧
    (top unresolved (.pipe cat (.last cdTo))).bind parsedStr =
      some (['c', ' ', '|', ' ', 'c', 'd', ' ', nul].map some) := by
  refine ⟨⟨[⟨none, none, 0x20, .generic [some ['c'], none]⟩, ⟨none, none, 0x10, .cd none⟩], by decide, ?_⟩, by decide⟩
  exact (parsedStr_eq_iff (by decide : top unresolved (.pipe cat (.last cdTo)) = _)).2

/-- The string of `cd d | cat` is `cd `. -/
theorem parsedStr_drops_words : ¬ ∀ names tree holders,
    top names tree = some (holders ++ [mkCommandHolder none none 0 .eoc]) →
      parsedStr (holders ++ [mkCommandHolder none none 0 .eoc]) =
        some ((spaced (jobWords holders) ++ [nul]).map some) := by
  intro all
  have built : top unresolved (.pipe cdTo (.last cat)) = some (
      [⟨none, none, 0x20, .cd none⟩, ⟨none, none, 0x10, .generic [some ['c'], none]⟩] ++
        [mkCommandHolder none none 0 .eoc]) := by decide
  exact absurd (all _ _ _ built) (by decide)

end OsLabs.Quash
