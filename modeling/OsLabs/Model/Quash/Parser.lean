import OsLabs.Model.Quash.Parse
import OsLabs.Model.Quash.WorkingDirectory
import OsLabs.ToMathlib.DeterministicRun

/-! # The parser

`yyparse` of `parse.tab.c`, with the tables made from `parse.y`. A round goes from `yybackup` to the next
state that is pushed. The stack of states has its top in front, and so has that of the values, which has
no entry for the first state. Allocations succeed, and messages are left out.
-/

namespace OsLabs.Quash

/-! ## Tokens -/

/-- What `yylex` returns, with the string in `yylval`. -/
inductive Token where
  | pipe
  | bckgrnd
  | equals
  | redirin
  | redirout
  | redirOutApp
  | «end»
  | echoTok
  | exportTok
  | cdTok
  | pwdTok
  | jobsTok
  | killTok
  | eocTok
  | str (text : List Char)
  | simStr (text : List Char)
  | id (text : List Char)
  | num (text : List Char)
  | exitTok (text : List Char)
deriving DecidableEq, Repr

/-- `enum yytokentype`. -/
def Token.yytokentype : Token → ℕ
  | .pipe => 258
  | .bckgrnd => 259
  | .equals => 261
  | .redirin => 262
  | .redirout => 263
  | .redirOutApp => 264
  | .end => 265
  | .echoTok => 266
  | .exportTok => 267
  | .cdTok => 268
  | .pwdTok => 269
  | .jobsTok => 270
  | .killTok => 271
  | .eocTok => 272
  | .str _ => 273
  | .simStr _ => 274
  | .id _ => 275
  | .num _ => 276
  | .exitTok _ => 277

/-- `YYTRANSLATE`, with the table by its formula. -/
def yytranslate (yyx : ℕ) : ℕ :=
  if yyx = 0 then 0 else if 256 ≤ yyx ∧ yyx ≤ 277 then yyx - 255 else 2

/-! ## Tables -/

def yyfinal : ℕ := 36

def yylast : ℤ := 58

def yyntokens : ℕ := 23

def yyinitdepth : ℕ := 200

def yymaxdepth : ℕ := 10000

def yypactNinf : ℤ := -13

/-- `YYTERROR`. -/
def yyterror : ℕ := 1

def yypact : List ℤ := [
  2, -8, 14, -12, 14, -13, -13, -11, -13, -13,
  -13, -13, -13, -13, 37, -6, 9, -2, -13, 14,
  -13, -13, -13, -13, -13, -13, -13, -13, -13, -13,
  14, -13, -13, 32, -13, 18, -13, -13, -13, 34,
  -13, -13, -13, 39, -13, 14, -13, -13, 14, -13,
  -13, -13, -13, -2, -13, -13]

def yydefact : List ℕ := [
  0, 0, 11, 0, 14, 16, 17, 0, 2, 42,
  43, 45, 44, 18, 0, 0, 7, 21, 10, 30,
  6, 5, 35, 36, 37, 39, 40, 38, 41, 12,
  31, 34, 33, 0, 15, 0, 1, 4, 3, 0,
  24, 25, 26, 27, 20, 0, 29, 32, 0, 19,
  8, 28, 9, 23, 13, 22]

def yypgoto : List ℤ := [
  -13, -13, 19, -13, -13, -13, 4, -13, -13, -13,
  12, -4, -13, 1]

def yydefgoto : List ℤ := [
  -1, 14, 15, 16, 17, 43, 44, 45, 52, 18,
  29, 30, 31, 32]

def yytable : List ℤ := [
  34, 19, 20, 1, 37, 40, 41, 42, 33, 21,
  35, 38, 39, 2, 3, 4, 5, 6, 7, 8,
  9, 10, 11, 12, 13, 22, 23, 24, 25, 26,
  27, 46, 9, 10, 11, 12, 28, 36, 48, 49,
  19, 53, 47, 51, 54, 2, 3, 4, 5, 6,
  7, 0, 9, 10, 11, 12, 13, 55, 50]

def yycheck : List ℤ := [
  4, 0, 10, 1, 10, 7, 8, 9, 20, 17,
  21, 17, 3, 11, 12, 13, 14, 15, 16, 17,
  18, 19, 20, 21, 22, 11, 12, 13, 14, 15,
  16, 19, 18, 19, 20, 21, 22, 0, 6, 21,
  39, 45, 30, 4, 48, 11, 12, 13, 14, 15,
  16, -1, 18, 19, 20, 21, 22, 53, 39]

/-- The symbol by which a state is reached. -/
def yystos : List ℕ := [
  0, 1, 11, 12, 13, 14, 15, 16, 17, 18,
  19, 20, 21, 22, 24, 25, 26, 27, 32, 36,
  10, 17, 11, 12, 13, 14, 15, 16, 22, 33,
  34, 35, 36, 20, 34, 21, 0, 10, 17, 3,
  7, 8, 9, 28, 29, 30, 33, 33, 6, 21,
  25, 4, 31, 34, 34, 29]

/-- The symbol that a rule derives. -/
def yyr1 : List ℕ := [
  0, 23, 24, 24, 24, 24, 24, 25, 25, 26,
  27, 27, 27, 27, 27, 27, 27, 27, 27, 27,
  28, 28, 29, 29, 30, 30, 30, 31, 31, 32,
  32, 33, 33, 34, 34, 35, 35, 35, 35, 35,
  35, 35, 36, 36, 36, 36]

/-- The number of symbols on the right side of a rule. -/
def yyr2 : List ℕ := [
  0, 2, 1, 2, 2, 2, 2, 1, 3, 3,
  1, 1, 2, 4, 1, 2, 1, 1, 1, 3,
  1, 0, 3, 2, 1, 1, 1, 0, 1, 2,
  1, 1, 2, 1, 1, 1, 1, 1, 1, 1,
  1, 1, 1, 1, 1, 1]

/-- What a state does on a symbol. -/
inductive Move where
  | shift (yystate : ℕ)
  | reduce (yyn : ℕ)
  | error
deriving DecidableEq, Repr

/-- `yydefault`. -/
def yydefault (yystate : ℕ) : Move :=
  let yyn := yydefact.getD yystate 0
  if yyn = 0 then .error else .reduce yyn

/-- Whether a state needs no symbol to act. -/
def isDefault (yystate : ℕ) : Bool := yypact.getD yystate yypactNinf = yypactNinf

/-- The entry that belongs to a base and a symbol or state. -/
def entry (base : ℤ) (key : ℕ) : Option ℤ :=
  let yyn := base + key
  if yyn < 0 ∨ yylast < yyn ∨ yycheck.getD yyn.toNat (-1) ≠ key then none else some (yytable.getD yyn.toNat 0)

/-- What a state that is not a default one does on a symbol. -/
def move (yystate yytoken : ℕ) : Move :=
  match entry (yypact.getD yystate yypactNinf) yytoken with
  | none => yydefault yystate
  | some yyn => if yyn ≤ 0 then .reduce (-yyn).toNat else .shift yyn.toNat

/-- The state behind a reduction to a nonterminal. -/
def goto (yystate lhs : ℕ) : ℕ :=
  let yyn := lhs - yyntokens
  ((entry (yypgoto.getD yyn 0) yystate).getD (yydefgoto.getD yyn 0)).toNat

/-- The state into which an error token is shifted. -/
def errorShift (yystate : ℕ) : Option ℕ :=
  if isDefault yystate then none
  else match entry (yypact.getD yystate yypactNinf) yyterror with
    | none => none
    | some yyn => if 0 < yyn then some yyn.toNat else none

/-! ## Values -/

/-- `YYSTYPE`. What no action reads is `unread`. -/
inductive YyStype where
  | unread
  | integer (n : BitVec 8)
  | str (text : List Char)
  | cmd (command : ParsedCommand)
  | holder (holder : ParsedHolder)
  | cmdStrs (args : CmdStrs)
  | cmdList (holders : List ParsedHolder)
  | redirect (r : Redirect)
deriving DecidableEq, Repr

def Token.value : Token → YyStype
  | .str text | .simStr text | .id text | .num text | .exitTok text => .str text
  | _ => .unread

/-- The actions of the rules other than those of `top`, on the values of the right side. A value of another
member of the union is `none` too. -/
def action (names : Names) : ℕ → List YyStype → Option YyStype
  | 7, [.holder holder] => some (.cmdList (pushFront newDeque holder))
  | 8, [.holder holder, _, .cmdList cs] => do
    let (prev, cs) ← popFront cs
    let holder := { holder with
      flags := (holder.flags &&& ~~~(redirectAppendFlag ||| redirectOutFlag)) ||| pipeOutFlag }
    let prev := { prev with flags := (prev.flags &&& ~~~redirectInFlag) ||| pipeInFlag }
    let holder := if prev.flags &&& backgroundFlag ≠ 0 then
      { holder with flags := holder.flags ||| backgroundFlag } else holder
    return .cmdList (pushFront (pushFront cs prev) holder)
  | 9, [.cmd content, .redirect r, .integer bg] =>
    let flags := (if r.append then redirectAppendFlag else 0) |||
      (if r.out ≠ none then redirectOutFlag else 0) |||
      (if r.input ≠ none then redirectInFlag else 0) |||
      (if bg ≠ 0 then backgroundFlag else 0)
    some (.holder (mkCommandHolder r.input r.out flags content))
  | 10, [.cmdStrs args] => some (.cmd (.generic args))
  | 11, [_] => some (.cmd (.echo [none]))
  | 12, [_, .cmdStrs args] => some (.cmd (.echo args))
  | 13, [_, .str id, _, .str value] => some (.cmd (.export id value))
  -- `memory_pool_strdup` asserts that there is a string.
  | 14, [_] => do return .cmd (.cd (some (← names.lookupEnv "HOME".toList)))
  | 15, [_, .str dir] => some (.cmd (.cd (names.realpath dir)))
  | 16, [_] => some (.cmd .pwd)
  | 17, [_] => some (.cmd .jobs)
  | 18, [_] => some (.cmd .exit)
  | 19, [_, .str sig, .str job] => some (.cmd (mkKillCommand sig job))
  | 20, [.redirect r] => some (.redirect r)
  | 21, [] => some (.redirect (mkRedirect none none false))
  | 22, [.integer mark, .str file, .redirect r] =>
    some (.redirect (if mark = redirectInFlag then { r with input := some file }
      else if mark = redirectOutFlag then { r with out := some file, append := false }
      else if mark = redirectAppendFlag then { r with out := some file, append := true }
      else r))
  | 23, [.integer mark, .str file] =>
    some (.redirect (if mark = redirectInFlag then mkRedirect (some file) none false
      else if mark = redirectOutFlag then mkRedirect none (some file) false
      else if mark = redirectAppendFlag then mkRedirect none (some file) true
      else mkRedirect none none false))
  | 24, [_] => some (.integer redirectInFlag)
  | 25, [_] => some (.integer redirectOutFlag)
  | 26, [_] => some (.integer redirectAppendFlag)
  | 27, [] => some (.integer 0)
  | 28, [_] => some (.integer 1)
  | 29, [.str first, .cmdStrs args] => some (.cmdStrs (pushFront args (some first)))
  | 30, [.str first] => some (.cmdStrs (pushBack (pushFront newDeque (some first)) none))
  | 31, [.str argument] => some (.cmdStrs (pushBack (pushFront newDeque (some argument)) none))
  | 32, [.str argument, .cmdStrs args] => some (.cmdStrs (pushFront args (some argument)))
  | 33, [.str text] => some (.str text)
  | 34, [.str text] => some (.str text)
  | 35, [_] => some (.str "echo".toList)
  | 36, [_] => some (.str "export".toList)
  | 37, [_] => some (.str "cd".toList)
  | 38, [_] => some (.str "kill".toList)
  | 39, [_] => some (.str "pwd".toList)
  | 40, [_] => some (.str "jobs".toList)
  | 41, [.str text] => some (.str text)
  | 42, [.str text] => do
    return .str ((← interpretComplexStringToken names.lookupEnv text).takeWhile (· ≠ nul))
  | 43, [.str text] => some (.str text)
  | 44, [.str text] => some (.str text)
  | 45, [.str text] => some (.str text)
  | _, _ => none

/-! ## Rounds -/

/-- What `yyparse` returns, with what it leaves in `*__ret_cmds` and whether it called `end_main_loop`;
`unset` leaves nothing there. -/
inductive YyResult where
  | accept (holders : Option (List ParsedHolder)) (ends : Bool)
  | abort (ends : Bool)
  | unset (yyresult : ℕ)
deriving DecidableEq, Repr

/-- The variables of `yyparse`, and the tokens that `yylex` has still to return. -/
structure Parser where
  yyss : List ℕ
  yyvs : List YyStype
  /-- `none` is `YYEMPTY`. -/
  yychar : Option Token
  yyerrstatus : ℕ
  yystacksize : ℕ
  input : List Token
deriving DecidableEq, Repr

inductive Round where
  | next (p : Parser)
  | done (result : YyResult) (p : Parser)
deriving DecidableEq, Repr

namespace Parser

/-- In front of the first round. -/
def start (input : List Token) : Parser where
  yyss := [0]
  yyvs := []
  yychar := none
  yyerrstatus := 0
  yystacksize := yyinitdepth
  input := input

def yystate (p : Parser) : ℕ := p.yyss.headD 0

/-- `yynewstate` and `yysetstate`. -/
def yynewstate (p : Parser) (yystate : ℕ) : Round :=
  let p := { p with yyss := yystate :: p.yyss }
  if p.yystacksize ≤ p.yyss.length then
    if yymaxdepth ≤ p.yystacksize then .done (.unset 2) p
    else
      let p := { p with yystacksize := min (p.yystacksize * 2) yymaxdepth }
      if p.yystacksize ≤ p.yyss.length then .done (.unset 1) p
      else if yystate = yyfinal then .done (.unset 0) p
      else .next p
  else if yystate = yyfinal then .done (.unset 0) p
  else .next p

/-- `yylex`, which returns `END` at the end of the input. -/
def yylex (p : Parser) : Token × Parser :=
  match p.input with
  | [] => (.end, p)
  | token :: input => (token, { p with input })

/-- The lookahead token, read if there is none yet. -/
def lookahead (p : Parser) : Token × Parser :=
  match p.yychar with
  | some token => (token, p)
  | none =>
    let (token, p) := p.yylex
    (token, { p with yychar := some token })

/-- `yyreduce`. -/
def yyreduce (names : Names) (yyn : ℕ) (p : Parser) : Except Abort Round :=
  let yylen := yyr2.getD yyn 0
  match yyn, (p.yyvs.take yylen).reverse with
  | 2, _ => .ok (.done (.accept none false) p)
  | 3, [.cmdList cs, _] => .ok (.done (.accept (some (pushBack cs (mkCommandHolder none none 0 .eoc))) false) p)
  | 4, [.cmdList cs, _] => .ok (.done (.accept (some (pushBack cs (mkCommandHolder none none 0 .eoc))) true) p)
  | 5, _ => .ok (.done (.abort false) p)
  | 6, _ => .ok (.done (.abort true) p)
  | yyn, values =>
    match action names yyn values with
    | none => .error .abort
    | some yyval =>
      let p := { p with yyss := p.yyss.drop yylen, yyvs := yyval :: p.yyvs.drop yylen }
      .ok (p.yynewstate (goto p.yystate (yyr1.getD yyn 0)))

/-- The loop of `yyerrlab1`: the stacks and the state into which the error token is shifted. -/
def popError : List ℕ → List YyStype → Option (List ℕ × List YyStype × ℕ)
  | [], _ => none
  | yystate :: yyss, yyvs =>
    match errorShift yystate with
    | some yyn => some (yystate :: yyss, yyvs, yyn)
    | none => if yyss = [] then none else popError yyss yyvs.tail

/-- `yyerrlab`. -/
def yyerrlab (p : Parser) : Round :=
  -- A token that could not be used after an error is discarded.
  let p := if p.yyerrstatus = 3 then { p with yychar := none } else p
  let p := { p with yyerrstatus := 3 }
  match popError p.yyss p.yyvs with
  | none => .done (.unset 1) p
  | some (yyss, yyvs, yyn) => { p with yyss, yyvs := .unread :: yyvs }.yynewstate yyn

/-- `yybackup` and what follows it. -/
def yybackup (names : Names) (p : Parser) : Except Abort Round :=
  if isDefault p.yystate then
    match yydefault p.yystate with
    | .reduce yyn => p.yyreduce names yyn
    | _ => .ok p.yyerrlab
  else
    let (yychar, p) := p.lookahead
    match move p.yystate (yytranslate yychar.yytokentype) with
    | .reduce yyn => p.yyreduce names yyn
    | .error => .ok p.yyerrlab
    | .shift yystate =>
      .ok ({ p with
        yychar := none
        yyerrstatus := p.yyerrstatus - 1
        yyvs := yychar.value :: p.yyvs }.yynewstate yystate)

end Parser

/-- One round, if there is another one. -/
def Round.step (names : Names) : Round → Except Abort Round
  | .next p => p.yybackup names
  | .done result p => .ok (.done result p)

/-- `yyparse` after so many rounds. -/
def yyparse (names : Names) (input : List Token) (n : ℕ) : Except Abort Round :=
  DeterministicRun.run (Round.step names) n (.next (.start input))

end OsLabs.Quash
