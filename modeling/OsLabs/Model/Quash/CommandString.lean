import OsLabs.Model.Quash.Parse

/-! # The command string of a job

The part of `parsing_interface.c` that makes one string of a parsed script. `none` is a read behind the
end of an array, a write outside of the allocated bytes or a pop from an empty deque. The length of a
string is that of its list, and a NUL stands behind it.
-/

namespace OsLabs.Quash

/-! ## Words -/

/-- The loop over the arguments of a command. -/
def pushArgs : CmdStrs → CmdStrs → Option CmdStrs
  | [], _ => none
  | none :: _, strs => some strs
  | some arg :: args, strs => pushArgs args (pushBack strs (some arg))

def stringifyGenericCmd (args strs : CmdStrs) : Option CmdStrs := pushArgs args strs

def stringifyEchoCmd (args strs : CmdStrs) : Option CmdStrs := pushArgs args (pushBack strs (some "echo".toList))

def stringifyExportCmd (envVar val : List Char) (strs : CmdStrs) : CmdStrs :=
  pushBack (pushBack (pushBack strs (some "export".toList)) (some envVar)) (some val)

def stringifyCdCmd (dir : Option (List Char)) (strs : CmdStrs) : CmdStrs :=
  pushBack (pushBack strs (some "cd".toList)) dir

def stringifyKillCmd (sigStr jobStr : List Char) (strs : CmdStrs) : CmdStrs :=
  pushBack (pushBack (pushBack strs (some "kill".toList)) (some sigStr)) (some jobStr)

def stringifySimpleCmd (str : List Char) (strs : CmdStrs) : CmdStrs := pushBack strs (some str)

def stringifyCommand (cmd : ParsedCommand) (strs : CmdStrs) : Option CmdStrs :=
  match cmd with
  | .generic args => stringifyGenericCmd args strs
  | .echo args => stringifyEchoCmd args strs
  | .export envVar val => some (stringifyExportCmd envVar val strs)
  | .cd dir => some (stringifyCdCmd dir strs)
  | .kill _ _ sigStr jobStr => some (stringifyKillCmd sigStr jobStr strs)
  | .pwd => some (stringifySimpleCmd "PWD".toList strs)
  | .jobs => some (stringifySimpleCmd "JOBS".toList strs)
  | .exit => some (stringifySimpleCmd "EXIT".toList strs)
  | .eoc => some strs

def stringifyHolder (holder : ParsedHolder) (strs : CmdStrs) : Option CmdStrs := do
  let strs ← stringifyCommand holder.cmd strs
  let strs := if holder.flags &&& redirectInFlag ≠ 0 then
    pushBack (pushBack strs (some ['<'])) holder.redirectIn else strs
  let strs := if holder.flags &&& redirectAppendFlag ≠ 0 then pushBack strs (some ['>', '>'])
    else if holder.flags &&& redirectOutFlag ≠ 0 then pushBack strs (some ['>'])
    else strs
  let strs := if holder.flags &&& redirectOutFlag ≠ 0 then pushBack strs holder.redirectOut else strs
  return if holder.flags &&& pipeOutFlag ≠ 0 then pushBack strs (some ['|']) else strs

/-- The loop of `__stringify_script`. -/
def stringifyHolders : List ParsedHolder → CmdStrs → Option CmdStrs
  | [], _ => none
  | holder :: holders, strs =>
    if holder.cmd = .eoc then some strs else do stringifyHolders holders (← stringifyHolder holder strs)

def stringifyScript (holders : List ParsedHolder) (strs : CmdStrs) : Option CmdStrs := do
  let strs ← stringifyHolders holders strs
  let first ← holders.head?
  let strs := if first.flags &&& backgroundFlag ≠ 0 then pushBack strs (some ['&']) else strs
  return pushBack strs none

/-! ## One string -/

/-- Allocated bytes; `none` is one that is not written yet. -/
abbrev Bytes := List (Option Char)

def write (ret : Bytes) (pos : ℕ) (c : Char) : Option Bytes :=
  if pos < ret.length then some (ret.set pos (some c)) else none

/-- `strcpy(ret + pos, str)`. -/
def strcpy (ret : Bytes) (pos : ℕ) : List Char → Option Bytes
  | [] => write ret pos nul
  | c :: str => do strcpy (← write ret pos c) (pos + 1) str

/-- The first loop of `__condense_string_array`. -/
def sizeLoop : CmdStrs → List ℕ → ℕ → Option (List ℕ × ℕ)
  | [], _, _ => none
  | none :: _, ss, len => some (ss, len)
  | some str :: strArr, ss, len => sizeLoop strArr (pushBack ss (str.length + 1)) (len + (str.length + 1))

/-- The second loop. -/
def copyLoop : CmdStrs → List ℕ → Bytes → ℕ → Option (Bytes × ℕ)
  | [], _, _, _ => none
  | none :: _, _, ret, pos => some (ret, pos)
  | some str :: strArr, ss, ret, pos => do
    let ret ← strcpy ret pos str
    let (size, ss) ← popFront ss
    let pos := pos + size
    let ret ← write ret (pos - 1) ' '
    copyLoop strArr ss ret pos

def condenseStringArray (strArr : CmdStrs) : Option Bytes := do
  let (ss, len) ← sizeLoop strArr newDeque 0
  let (ret, pos) ← copyLoop strArr ss (List.replicate (len + 1) none) 0
  write ret pos nul

/-- `parsed_str` for an array of holders. -/
def parsedStr (holders : List ParsedHolder) : Option Bytes := do
  condenseStringArray (← stringifyScript holders newDeque)

end OsLabs.Quash
