import OsLabs.Model.Quash.Command
import OsLabs.Model.Quash.StringToken

/-! # The grammar of a command line

The derivations of the nonterminals of `parse.y`, under their names, and the values that the actions
give them. The values of the environment and the paths that `realpath` resolves are parameters. `none`
is an abort: a failed assertion or a pop from an empty deque.
-/

namespace OsLabs.Quash

/-- What the actions ask of the system. -/
structure Names where
  lookupEnv : Env
  realpath : List Char → Option (List Char)

/-! ## Strings -/

inductive FirstString where
  | str (text : List Char)
  | simStr (text : List Char)
  | num (text : List Char)
  | id (text : List Char)

inductive SpecialString where
  | echoTok
  | exportTok
  | cdTok
  | killTok
  | pwdTok
  | jobsTok
  | exitTok (text : List Char)

/-- `string`. -/
inductive StringTree where
  | first (tree : FirstString)
  | special (tree : SpecialString)

def firstString (names : Names) : FirstString → Option (List Char)
  | .str text => (interpretComplexStringToken names.lookupEnv text).map (·.takeWhile (· ≠ nul))
  | .simStr text => some text
  | .num text => some text
  | .id text => some text

def specialString : SpecialString → List Char
  | .echoTok => "echo".toList
  | .exportTok => "export".toList
  | .cdTok => "cd".toList
  | .killTok => "kill".toList
  | .pwdTok => "pwd".toList
  | .jobsTok => "jobs".toList
  | .exitTok text => text

def string (names : Names) : StringTree → Option (List Char)
  | .first tree => firstString names tree
  | .special tree => some (specialString tree)

/-! ## Commands -/

/-- `CmdStrs`. -/
abbrev CmdStrs := List (Option (List Char))

inductive CmdArguments where
  | last (argument : StringTree)
  | more (argument : StringTree) (arguments : CmdArguments)

inductive Cmd where
  | arguments (first : FirstString) (arguments : CmdArguments)
  | alone (first : FirstString)

inductive CmdContent where
  | cmd (tree : Cmd)
  | echo
  | echoArguments (arguments : CmdArguments)
  | «export» (id : List Char) (value : StringTree)
  | cd
  | cdTo (dir : StringTree)
  | pwd
  | jobs
  | exit
  | kill (sig job : List Char)

def cmdArguments (names : Names) : CmdArguments → Option CmdStrs
  | .last argument => do
    let args := pushFront newDeque (some (← string names argument))
    return pushBack args none
  | .more argument arguments => do
    let argument ← string names argument
    return pushFront (← cmdArguments names arguments) (some argument)

def cmd (names : Names) : Cmd → Option CmdStrs
  | .arguments first arguments => do
    let first ← firstString names first
    return pushFront (← cmdArguments names arguments) (some first)
  | .alone first => do
    let args := pushFront newDeque (some (← firstString names first))
    return pushBack args none

def cmdContent (names : Names) : CmdContent → Option ParsedCommand
  | .cmd tree => do return .generic (← cmd names tree)
  | .echo => some (.echo [none])
  | .echoArguments arguments => do return .echo (← cmdArguments names arguments)
  | .export id value => do return .export id (← string names value)
  -- `memory_pool_strdup` asserts that there is a string.
  | .cd => do return .cd (some (← names.lookupEnv "HOME".toList))
  | .cdTo dir => do return .cd (names.realpath (← string names dir))
  | .pwd => some .pwd
  | .jobs => some .jobs
  | .exit => some .exit
  | .kill sig job => some (mkKillCommand sig job)

/-! ## Redirections -/

inductive RedirMark where
  | redirIn
  | redirOut
  | redirOutApp
deriving DecidableEq, Repr

inductive RedirInner where
  | more (mark : RedirMark) (file : StringTree) (rest : RedirInner)
  | last (mark : RedirMark) (file : StringTree)

structure Redirect where
  input : Option (List Char)
  out : Option (List Char)
  append : Bool
deriving DecidableEq, Repr

def redirMark : RedirMark → BitVec 8
  | .redirIn => redirectInFlag
  | .redirOut => redirectOutFlag
  | .redirOutApp => redirectAppendFlag

def mkRedirect (input out : Option (List Char)) (append : Bool) : Redirect := ⟨input, out, append⟩

def redirInner (names : Names) : RedirInner → Option Redirect
  | .more mark file rest => do
    let file ← string names file
    let r ← redirInner names rest
    return if redirMark mark = redirectInFlag then { r with input := some file }
      else if redirMark mark = redirectOutFlag then { r with out := some file, append := false }
      else if redirMark mark = redirectAppendFlag then { r with out := some file, append := true }
      else r
  | .last mark file => do
    let file ← string names file
    return if redirMark mark = redirectInFlag then mkRedirect (some file) none false
      else if redirMark mark = redirectOutFlag then mkRedirect none (some file) false
      else if redirMark mark = redirectAppendFlag then mkRedirect none (some file) true
      else mkRedirect none none false

def redir (names : Names) : Option RedirInner → Option Redirect
  | some tree => redirInner names tree
  | none => some (mkRedirect none none false)

/-! ## Pipelines -/

/-- `cmd_top`; the flag is `cmd_bg`. -/
structure CmdTop where
  content : CmdContent
  redir : Option RedirInner
  bg : Bool

inductive Cmds where
  | last (tree : CmdTop)
  | pipe (tree : CmdTop) (rest : Cmds)

def cmdTop (names : Names) (tree : CmdTop) : Option ParsedHolder := do
  let content ← cmdContent names tree.content
  let r ← redir names tree.redir
  let flags := (if r.append then redirectAppendFlag else 0) |||
    (if r.out ≠ none then redirectOutFlag else 0) |||
    (if r.input ≠ none then redirectInFlag else 0) |||
    (if tree.bg then backgroundFlag else 0)
  return mkCommandHolder r.input r.out flags content

def cmds (names : Names) : Cmds → Option (List ParsedHolder)
  | .last tree => do return pushFront newDeque (← cmdTop names tree)
  | .pipe tree rest => do
    let holder ← cmdTop names tree
    let (prev, cs) ← popFront (← cmds names rest)
    let holder := { holder with
      flags := (holder.flags &&& ~~~(redirectAppendFlag ||| redirectOutFlag)) ||| pipeOutFlag }
    let prev := { prev with flags := (prev.flags &&& ~~~redirectInFlag) ||| pipeInFlag }
    let holder := if prev.flags &&& backgroundFlag ≠ 0 then
      { holder with flags := holder.flags ||| backgroundFlag } else holder
    return pushFront (pushFront cs prev) holder

/-- `top`, for a line with a command. -/
def top (names : Names) (tree : Cmds) : Option (List ParsedHolder) := do
  return pushBack (← cmds names tree) (mkCommandHolder none none 0 .eoc)

end OsLabs.Quash
