import Mathlib.Algebra.Group.Int.Defs
import Mathlib.Algebra.Group.Nat.Defs
import OsLabs.Model.Quash.Execute

/-! # Commands

`command.h` and `command.c`: the structures that the parser builds, with the data that it stores in
them. A string is a list of characters and one that may be `NULL` an option; an array of arguments ends
with `NULL`, and its list does too. Flags are the bits of a `char`. A `long` has 64 bits.
-/

namespace OsLabs.Quash

/-- `Command`. -/
inductive ParsedCommand where
  | generic (args : List (Option (List Char)))
  | echo (args : List (Option (List Char)))
  | «export» (envVar val : List Char)
  | cd (dir : Option (List Char))
  | kill (sig job : ℤ) (sigStr jobStr : List Char)
  | pwd
  | jobs
  | exit
  | eoc
deriving DecidableEq, Repr

/-- What the quash process reads of a command that it runs. -/
def ParsedCommand.toCommand : ParsedCommand → Option Command
  | .generic _ => some .generic
  | .echo _ => some .echo
  | .export _ _ => some .export
  | .cd _ => some .cd
  | .kill sig job _ _ => some (.kill sig job)
  | .pwd => some .pwd
  | .jobs => some .jobs
  | .exit => some .exit
  | .eoc => none

/-! ## Holders -/

def redirectInFlag : BitVec 8 := 0x01
def redirectOutFlag : BitVec 8 := 0x04
def redirectAppendFlag : BitVec 8 := 0x08
def pipeInFlag : BitVec 8 := 0x10
def pipeOutFlag : BitVec 8 := 0x20
def backgroundFlag : BitVec 8 := 0x40

/-- `CommandHolder`. -/
structure ParsedHolder where
  redirectIn : Option (List Char)
  redirectOut : Option (List Char)
  flags : BitVec 8
  cmd : ParsedCommand
deriving DecidableEq, Repr

def mkCommandHolder (redirectIn redirectOut : Option (List Char)) (flags : BitVec 8) (cmd : ParsedCommand) :
    ParsedHolder :=
  ⟨redirectIn, redirectOut, flags, cmd⟩

/-- The flags as `create_process` and `run_script` test them. -/
def decodeFlags (flags : BitVec 8) : Flags where
  redirectIn := flags &&& redirectInFlag ≠ 0
  redirectOut := flags &&& redirectOutFlag ≠ 0
  redirectAppend := flags &&& redirectAppendFlag ≠ 0
  pipeIn := flags &&& pipeInFlag ≠ 0
  pipeOut := flags &&& pipeOutFlag ≠ 0
  background := flags &&& backgroundFlag ≠ 0

/-- What `run_script` gets; `EOC` ends the array. -/
def ParsedHolder.toHolder (holder : ParsedHolder) : Option CommandHolder :=
  holder.cmd.toCommand.map fun cmd => ⟨holder.redirectIn, holder.redirectOut, decodeFlags holder.flags, cmd⟩

/-! ## Numbers -/

def longMax : ℤ := 2 ^ 63 - 1

def longMin : ℤ := -2 ^ 63

def intMax : ℤ := 2 ^ 31 - 1

def isSpace (c : Char) : Bool := c ∈ [' ', '\t', '\n', Char.ofNat 11, Char.ofNat 12, '\r']

def digitsValue (digits : List Char) : ℕ :=
  digits.foldl (fun value c => value * 10 + (c.toNat - '0'.toNat)) 0

/-- `strtol(text, NULL, 10)`. -/
def strtol (text : List Char) : ℤ :=
  let (negative, digits) := match text.dropWhile isSpace with
    | '-' :: digits => (true, digits)
    | '+' :: digits => (false, digits)
    | digits => (false, digits)
  let value : ℤ := digitsValue (digits.takeWhile Char.isDigit)
  max longMin (min longMax (if negative then -value else value))

/-- A `long` that is stored in an `int`. -/
def toInt (n : ℤ) : ℤ := n.bmod (2 ^ 32)

def mkKillCommand (sig job : List Char) : ParsedCommand := .kill (toInt (strtol sig)) (toInt (strtol job)) sig job

end OsLabs.Quash
