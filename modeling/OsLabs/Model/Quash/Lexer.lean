import OsLabs.Model.Quash.Parser
import OsLabs.ToMathlib.MaximalMunch

/-! # The lexer

The rules of `parse.l` on a whole text, each by the length of its longest match. A character is a byte.
-/

namespace OsLabs.Quash

open MaximalMunch

/-! ## Patterns -/

/-- `"..."`. -/
def literalLength (pattern input : List Char) : ℕ := if pattern.isPrefixOf input then pattern.length else 0

/-- `[...]+`. -/
def classLength (class_ : Char → Bool) (input : List Char) : ℕ := (input.takeWhile class_).length

/-- `[ \t\r]`. -/
def isBlank (c : Char) : Bool := c ∈ [' ', '\t', '\r']

/-- `[^ \t\r\n\'\#\<\>\=&\|\\]`, to which NUL belongs. -/
def isStringChar (c : Char) : Bool := c ∉ [' ', '\t', '\r', '\n', '\'', '#', '<', '>', '=', '&', '|', '\\']

/-- `[^ \t\r\n\'\#\<\>\=&\|\\\$]`. -/
def isSimChar (c : Char) : Bool := isStringChar c && c ≠ '$'

/-- `{string}`: `pending` characters are read behind the last end of a match, `quoted` after an unclosed quote. -/
def stringLength : ℕ → Bool → List Char → ℕ
  | pending, false, '\\' :: _ :: rest => pending + 2 + stringLength 0 false rest
  | pending, false, c :: rest =>
    if isStringChar c then pending + 1 + stringLength 0 false rest
    else if c = '\'' then stringLength (pending + 1) true rest
    else 0
  | pending, true, '\\' :: _ :: rest => stringLength (pending + 2) true rest
  | pending, true, c :: rest =>
    if c = '\'' then pending + 1 + stringLength 0 false rest
    else if c = '\\' then 0
    else stringLength (pending + 1) true rest
  | _, _, [] => 0

/-! ## Rules -/

inductive LexRule where
  | literal (pattern : List Char) (token : Token)
  | exitTok
  | number
  | id
  | simStr
  | string
  | comment
  | whitesp
  | other
deriving DecidableEq, Repr

/-- The rules in their order, the last apart. -/
def lexRules : List LexRule := [
  .literal "|".toList .pipe, .literal "&".toList .bckgrnd, .literal "=".toList .equals,
  .literal "<".toList .redirin, .literal ">".toList .redirout, .literal ">>".toList .redirOutApp,
  .literal "echo".toList .echoTok, .literal "export".toList .exportTok, .literal "cd".toList .cdTok,
  .literal "pwd".toList .pwdTok, .literal "jobs".toList .jobsTok, .literal "kill".toList .killTok,
  .literal "\n".toList .eocTok, .exitTok, .number, .id, .simStr, .string, .comment, .whitesp]

/-- The length of the longest match. -/
def LexRule.length : LexRule → List Char → ℕ
  | .literal pattern _, input => literalLength pattern input
  | .exitTok, input => max (literalLength "exit".toList input) (literalLength "quit".toList input)
  | .number, input => classLength Char.isDigit input
  | .id, c :: rest => if isFirstIdentifierChar c then 1 + classLength isIdentifierChar rest else 0
  | .simStr, input => classLength isSimChar input
  | .string, input => stringLength 0 false input
  | .comment, '#' :: rest => 1 + classLength (· ≠ '\n') rest
  | .whitesp, input => classLength isBlank input
  | .other, c :: _ => if c = '\n' then 0 else 1
  | _, _ => 0

/-- `memory_pool_strdup`. -/
def strdup (text : List Char) : List Char := text.takeWhile (· ≠ nul)

/-- What the action of a rule returns. -/
def LexRule.token (yytext : List Char) : LexRule → Option Token
  | .literal _ token => some token
  | .exitTok => some (.exitTok (strdup yytext))
  | .number => some (.num (strdup yytext))
  | .id => some (.id (strdup yytext))
  | .simStr => some (.simStr (strdup yytext))
  | .string => some (.str (strdup yytext))
  | .comment | .whitesp | .other => none

/-- The lexemes of a text, with their rules. -/
def lexemes (text : List Char) : List (LexRule × List Char) := MaximalMunch.lexemes LexRule.length .other lexRules text

/-- The tokens that `yylex` returns for a text, in front of the `END` tokens. -/
def lex (text : List Char) : List Token := (lexemes text).filterMap fun lexeme => lexeme.1.token lexeme.2

/-- The unexpected symbols that are reported, with `yylineno`. -/
def unexpected (yylineno : ℕ) : List (LexRule × List Char) → List (Char × ℕ)
  | [] => []
  | (rule, yytext) :: rest =>
    let yylineno := yylineno + yytext.count '\n'
    if rule = .other then (yytext.headD nul, yylineno) :: unexpected yylineno rest else unexpected yylineno rest

end OsLabs.Quash
