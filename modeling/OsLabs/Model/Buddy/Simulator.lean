import Mathlib.Algebra.Group.Int.Defs
import Mathlib.Algebra.Group.Nat.Defs
import OsLabs.Model.Buddy.Allocator

/-! # Allocation scripts

`simulator.c` reads a script line by line and calls the allocator. One step is one iteration of the
loop of `parse_file`. A character stands for a byte. `getline` is a parameter: how large it makes
the buffer for each line, and what the buffer holds behind the line. Output is left out. `live`
records the blocks that `buddy_alloc` returned and `buddy_free` has not been given since; the code
never reads it.
-/

namespace OsLabs.Buddy

/-- `status_t`. -/
inductive Status where
  | success
  | outOfMemory
  | doubleFree
  | badInput
deriving DecidableEq, Repr

/-- `var_t`. -/
structure VarT where
  mem : Option ℕ
  inUse : Bool
deriving DecidableEq, Repr

/-- What `getline` decides for the line with a given number. -/
structure Getline where
  len : ℕ → ℕ
  stale : ℕ → ℕ → Char

structure Simulator where
  input : List Char
  status : Status
  linenum : ℕ
  varMap : Char → VarT
  memory : Memory
  live : List Live

/-- The one way the program goes on without a status: undefined behaviour, or a call without end. -/
inductive Undefined where
  | undefined
deriving DecidableEq, Repr

/-! ## Reading -/

def nul : Char := Char.ofNat 0

/-- The next line, with its newline, and the rest of the input. -/
def getline (input : List Char) : List Char × List Char :=
  let line := input.takeWhile (· ≠ '\n')
  let rest := input.dropWhile (· ≠ '\n')
  (line ++ rest.take 1, rest.drop 1)

/-- The buffer with a line in it. -/
def buffer (line : List Char) (stale : ℕ → Char) (i : ℕ) : Char :=
  if i < line.length then line.getD i nul else if i = line.length then nul else stale i

/-- A `size_t` that is passed as an `int`. -/
def toInt (n : ℕ) : ℤ := (n : ℤ).bmod (2 ^ 32)

def isSpace (c : Char) : Bool := c ∈ [' ', '\t', '\n', Char.ofNat 11, Char.ofNat 12, '\r']

/-- The loop of `parse_command` that removes whitespace; the first number is that of the iterations left. -/
def removeWhitespace (cmd : ℕ → Char) : ℕ → ℕ → ℕ → ℕ → Char
  | 0, _, _ => cmd
  | rest + 1, i, wsCursor =>
    if cmd i ∈ [' ', '\n', '\r', '\t'] then removeWhitespace cmd rest (i + 1) wsCursor
    else removeWhitespace (Function.update cmd wsCursor (cmd i)) rest (i + 1) (wsCursor + 1)

/-- The string in a buffer of `len` bytes. -/
def cString (cmd : ℕ → Char) (len : ℕ) : List Char := ((List.range len).map cmd).takeWhile (· ≠ nul)

/-- `strstr(cmd, word) != NULL`. -/
def strstr (cmd word : List Char) : Bool := cmd.tails.any (word.isPrefixOf ·)

/-! ## `sscanf` -/

/-- The characters of a format that stand for themselves. -/
def scanLiteral : List Char → List Char → Option (List Char)
  | [], input => some input
  | c :: format, d :: input => if c = d then scanLiteral format input else none
  | _ :: _, [] => none

def digitsValue (digits : List Char) : ℕ :=
  digits.foldl (fun value c => value * 10 + (c.toNat - '0'.toNat)) 0

/-- `%d`: the number, whether it sets `errno`, and what is left. The number is read as a `long` and
stored as an `int`. -/
def scanInt (input : List Char) : Option (ℤ × Bool × List Char) :=
  let input := input.dropWhile isSpace
  let negative := input.head? = some '-'
  let digits := if negative ∨ input.head? = some '+' then input.tail else input
  let number := digits.takeWhile Char.isDigit
  if number = [] then none
  else
    let value : ℤ := if negative then -(digitsValue number) else digitsValue number
    some (value.bmod (2 ^ 32), decide (value < -2 ^ 63 ∨ 2 ^ 63 ≤ value), digits.dropWhile Char.isDigit)

/-- `sscanf(cmd, "%c=alloc(%d%c)", ..)` when it matches three items: the variable, the number,
whether `errno` is set, and the character behind the number. -/
def scanAlloc : List Char → Option (Char × ℤ × Bool × Char)
  | [] => none
  | varName :: input => do
    let input ← scanLiteral "=alloc(".toList input
    let (size, errno, input) ← scanInt input
    let alterSize ← input.head?
    return (varName, size, errno, alterSize)

/-- `sscanf(cmd, "free(%c)", ..)`. -/
def scanFree (cmd : List Char) : Option Char := (scanLiteral "free(".toList cmd).bind List.head?

/-! ## The commands -/

/-- Whether `get_var` finds a variable. -/
def getVar (var : Char) : Bool := ('a' ≤ var ∧ var ≤ 'z') ∨ ('A' ≤ var ∧ var ≤ 'Z')

/-- The size that an allocation command asks for: the variable and `size` after the switch. -/
def allocRequest (cmd : List Char) : Option (Char × ℤ) :=
  match scanAlloc cmd with
  | some (varName, size, false, alterSize) =>
    if alterSize = 'k' ∨ alterSize = 'K' then some (varName, (size * 1024).bmod (2 ^ 32))
    else if alterSize = ')' then some (varName, size)
    else none
  | _ => none

namespace Simulator

def setVar (s : Simulator) (varName : Char) (var : VarT) : Simulator :=
  { s with varMap := Function.update s.varMap varName var }

/-- The assertion on the first character is that of `parse_alloc`. -/
def parseAlloc (s : Simulator) (cmd : List Char) : Except Undefined (Simulator × Status) :=
  if cmd = [] then .error .undefined
  else match allocRequest cmd with
  | none => .ok (s, .badInput)
  | some (varName, size) =>
    if !getVar varName then .ok (s, .badInput)
    else match buddyAlloc s.memory size with
    | none => .error .undefined
    | some (memory, none) =>
      .ok ({ s with memory }.setVar varName { s.varMap varName with mem := none }, .outOfMemory)
    | some (memory, some addr) =>
      .ok ({ s with memory, live := ⟨addr, size⟩ :: s.live }.setVar varName ⟨some addr, true⟩, .success)

/-- The variable that `parse_free` frees. -/
def freeVar (s : Simulator) (cmd : List Char) : Except Status Char :=
  match scanFree cmd with
  | none => .error .badInput
  | some varName =>
    if !getVar varName then .error .badInput
    else if !(s.varMap varName).inUse then .error .doubleFree
    else .ok varName

/-- `buddy_free`. The whole memory has no buddy in `g_pages`, and the record behind the array must not
pass for a free page. -/
def freeBlock (memory : Memory) (addr : ℕ) : Except Undefined Memory :=
  if (memory.gPages (addrToPage addr)).blockSize = maxOrder ∧ (memory.gPages nPages).isFree = true then
    .error .undefined
  else ((buddyFree memory addr).map Except.ok).getD (.error .undefined)

/-- `live` after a block is given to `buddy_free`. -/
def forget (live : List Live) (addr : ℕ) : List Live :=
  ((live.find? (·.addr = addr)).map live.erase).getD live

def parseFree (s : Simulator) (cmd : List Char) : Except Undefined (Simulator × Status) :=
  match s.freeVar cmd with
  | .error status => .ok (s, status)
  | .ok varName =>
    match (s.varMap varName).mem with
    | none => .error .undefined
    | some addr => do
      let memory ← freeBlock s.memory addr
      return ({ s with memory, live := forget s.live addr }.setVar varName ⟨none, false⟩, .success)

/-- The command that `parse_command` hands on, if it does not skip the line. -/
def command (cmd : ℕ → Char) (len : ℕ) : Option (List Char) :=
  if cmd 0 ∈ [nul, '\n', '\r'] then none
  else some (cString (removeWhitespace cmd (toInt len).toNat 0 0) len)

def parseCommand (s : Simulator) (cmd : ℕ → Char) (len : ℕ) : Except Undefined (Simulator × Status) :=
  match command cmd len with
  | none => .ok (s, .success)
  | some cmd =>
    if strstr cmd "alloc".toList then s.parseAlloc cmd
    else if strstr cmd "free".toList then s.parseFree cmd
    else .ok (s, .badInput)

/-- Another line is read in this state. -/
def Reads (s : Simulator) : Prop := s.status = .success ∧ s.input ≠ []

instance : DecidablePred Reads := fun _ => inferInstanceAs (Decidable (_ ∧ _))

/-- One iteration of the loop of `parse_file`. -/
def step (g : Getline) (s : Simulator) : Except Undefined Simulator :=
  if s.Reads then do
    let (line, input) := getline s.input
    let linenum := s.linenum + 1
    let (s, status) ← { s with input, linenum }.parseCommand (buffer line (g.stale linenum)) (g.len linenum)
    return { s with status }
  else .ok s

/-- What the next iteration gives to `buddy_free`, if it calls it. -/
def freed (g : Getline) (s : Simulator) : Option (Option ℕ) :=
  if s.Reads then do
    let linenum := s.linenum + 1
    let cmd ← command (buffer (getline s.input).1 (g.stale linenum)) (g.len linenum)
    if strstr cmd "alloc".toList ∨ ¬ strstr cmd "free".toList then none
    else match s.freeVar cmd with
    | .error _ => none
    | .ok varName => some (s.varMap varName).mem
  else none

/-- The program when `parse_file` starts. -/
def initial (before : Memory) (script : List Char) : Simulator where
  input := script
  status := .success
  linenum := 0
  varMap _ := ⟨none, false⟩
  memory := buddyInit before
  live := []

end Simulator

end OsLabs.Buddy
