import OsLabs.Model.Quash.CommandString
import OsLabs.Model.Quash.Execute
import OsLabs.Model.Quash.Lexer

/-! # The main loop

`main` of `quash.c` between parser and executor, for input that is no terminal. The environment that a
line is parsed in is a parameter of its iteration.
-/

namespace OsLabs.Quash

/-- `state`, the tokens that `yylex` has still to return, and the executor. -/
structure QuashState where
  running : Bool
  parsedStr : Option Bytes
  input : List Token
  shell : Shell

/-- `get_command_string`. -/
def getCommandString (state : QuashState) : Option (List Char) :=
  state.parsedStr.map fun bytes => strdup (bytes.map (·.getD nul))

/-- The end of `parse`, and `run_script` with its call of `end_main_loop`. -/
def runHolders (kernel : Kernel) (holders : List ParsedHolder) (state : QuashState) : Option QuashState := do
  let state := { state with parsedStr := some (← parsedStr holders) }
  let command ← getCommandString state
  let script ← (holders.takeWhile (·.cmd ≠ .eoc)).mapM ParsedHolder.toHolder
  let shell ← runScript kernel command (some script) state.shell
  return { state with shell, running := state.running && !isExit script }

/-- One iteration, with so many rounds for the parser. -/
def iterate (kernel : Kernel) (names : Names) (rounds : ℕ) (state : QuashState) : Option QuashState :=
  match yyparse names state.input rounds with
  | .ok (.done (.accept (some holders) ends) p) =>
    runHolders kernel holders { state with input := p.input, running := state.running && !ends }
  | .ok (.done (.accept none ends) p) | .ok (.done (.abort ends) p) =>
    some { state with input := p.input, running := state.running && !ends }
  -- `holders` of `parse` is not initialised.
  | _ => none

/-- The loop, for as many iterations as `fuel`. -/
def mainLoop (kernel : Kernel) (rounds : ℕ) : ℕ → (ℕ → Names) → QuashState → Option QuashState
  | 0, _, state => some state
  | fuel + 1, names, state =>
    if state.running then do
      mainLoop kernel rounds fuel (fun i => names (i + 1)) (← iterate kernel (names 0) rounds state)
    else some state

end OsLabs.Quash
