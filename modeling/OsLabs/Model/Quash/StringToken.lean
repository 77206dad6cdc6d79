import Mathlib.Data.Nat.Notation
import OsLabs.Model.Quash.Deque

/-! # Strings of a command line

The pattern `{string}` of the lexer, as a grammar, and the function that cleans up such a token. A C
string is the list of its characters, none of them NUL; behind its end stands a NUL. A string
builder is a deque of characters. `none` is an abort: a failed assertion or a pop from an empty deque.
-/

namespace OsLabs.Quash

def nul : Char := Char.ofNat 0

/-! ## The pattern -/

/-- `[^ \t\r\n\'\#\<\>\=&\|\\]`. -/
def ordinary (c : Char) : Bool :=
  c ∉ [nul, ' ', '\t', '\r', '\n', '\'', '#', '<', '>', '=', '&', '|', '\\']

/-- `(\\(.|\n)|[^\\'])*`, the content of a quoted segment. -/
inductive QuotedText : List Char → Prop
  | nil : QuotedText []
  | escape {c : Char} {text : List Char} (real : c ≠ nul) (rest : QuotedText text) :
      QuotedText ('\\' :: c :: text)
  | char {c : Char} {text : List Char} (real : c ≠ nul) (notBackslash : c ≠ '\\') (notQuote : c ≠ '\'')
      (rest : QuotedText text) : QuotedText (c :: text)

/-- One round of `{string}`. -/
inductive StringPart : List Char → Prop
  | char {c : Char} (isOrdinary : ordinary c = true) : StringPart [c]
  | escape {c : Char} (real : c ≠ nul) : StringPart ['\\', c]
  | quoted {text : List Char} (content : QuotedText text) : StringPart ('\'' :: (text ++ ['\'']))

/-- `{string}`. -/
inductive StringToken : List Char → Prop
  | last {part : List Char} (isPart : StringPart part) : StringToken part
  | more {part rest : List Char} (isPart : StringPart part) (token : StringToken rest) :
      StringToken (part ++ rest)

/-! ## The interpreter -/

/-- `str[i]`. -/
def charAt (str : List Char) (i : ℕ) : Char := str.getD i nul

def isFirstIdentifierChar (c : Char) : Bool := c.isAlpha || c == '_'

def isIdentifierChar (c : Char) : Bool := c.isAlphanum || c == '_'

/-- The values that `lookup_env` finds. -/
abbrev Env := List Char → Option (List Char)

/-- `__interpret_deref` with the builder and the index it leaves. -/
def interpretDeref (lookupEnv : Env) (bld str : List Char) (idx : ℕ) : Option (List Char × ℕ) :=
  if charAt str idx = '$' ∧ peekBack bld = some '$' then do
    let bld ← popBack bld
    let id := (str.drop (idx + 1)).takeWhile isIdentifierChar
    return (bld ++ (lookupEnv id).getD [], idx + id.length)
  else none

/-- The locals of `interpret_complex_string_token`. -/
structure Interpreter where
  bld : List Char
  i : ℕ
  inQuotes : Bool
deriving DecidableEq, Repr

/-- The characters that a backslash outside of quotes stands before, newline apart. -/
def escapable : List Char := ['\\', '\'', '#', '$', '=', '&', '|', ';', ' ', '\t']

/-- One iteration of the loop, its increment included. -/
def interpretChar (lookupEnv : Env) (str : List Char) (s : Interpreter) : Option Interpreter :=
  let c := charAt str s.i
  let next := charAt str (s.i + 1)
  let bld := pushBack s.bld c
  if c = '\\' then
    if !s.inQuotes then
      if next ∈ escapable then do return ⟨← updateBack bld next, s.i + 2, s.inQuotes⟩
      else if next = '\n' then do return ⟨← popBack bld, s.i + 2, s.inQuotes⟩
      else some ⟨bld, s.i + 1, s.inQuotes⟩
    else if next = '\'' then do return ⟨← updateBack bld '\'', s.i + 2, s.inQuotes⟩
    else some ⟨bld, s.i + 1, s.inQuotes⟩
  else if c = '\'' then do return ⟨← popBack bld, s.i + 1, !s.inQuotes⟩
  else if c = '$' ∧ s.inQuotes = false ∧ isFirstIdentifierChar next = true then do
    let (bld, idx) ← interpretDeref lookupEnv bld str s.i
    return ⟨bld, idx + 1, s.inQuotes⟩
  else some ⟨bld, s.i + 1, s.inQuotes⟩

/-- The loop, for as many iterations as `fuel`. -/
def interpretLoop (lookupEnv : Env) (str : List Char) : ℕ → Interpreter → Option Interpreter
  | 0, _ => none
  | fuel + 1, s =>
    if s.i ≤ str.length then (interpretChar lookupEnv str s).bind (interpretLoop lookupEnv str fuel)
    else some s

/-- The locals after the loop, which has at most one iteration for each character and the NUL. -/
def afterLoop (lookupEnv : Env) (str : List Char) : Option Interpreter :=
  interpretLoop lookupEnv str (str.length + 2) ⟨[], 0, false⟩

def interpretComplexStringToken (lookupEnv : Env) (str : List Char) : Option (List Char) := do
  let s ← afterLoop lookupEnv str
  let bld ← updateBack s.bld nul
  if s.inQuotes then none else some bld

end OsLabs.Quash
