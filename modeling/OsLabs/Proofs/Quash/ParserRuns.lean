import OsLabs.Proofs.Quash.ParserRounds
import OsLabs.Proofs.Quash.ParserValues

/-! # The parser gets through a line

A parse reads the tokens of a line, with values of derivations on its stack, until the token that closes
the line is shifted or no move is left. Then it pops everything and skips to that token. The rounds that
are left are bounded by the tokens, the stack and the rank of its top.
-/

namespace OsLabs.Quash

open ShiftReduce

def Token.closes : Token → Bool
  | .eocTok | .end => true
  | _ => false

/-- The states, values and words of a parse without an error. -/
def Reads (names : Names) : List ℕ → List YyStype → List Token → Prop :=
  Stacked lrEdges (yystos.getD · 0) 0 (Fits names)

/-- What a parse leaves of a line. -/
inductive Parsed (names : Names) (line : List Token) (closing : Token) : YyResult → Prop
  | blank (empty : line = []) (closed : closing = .eocTok) : Parsed names line closing (.accept none false)
  | accepted (tree : Cmds) (holders : List ParsedHolder) (reads : tree.Reads line)
      (made : top names tree = some holders) : Parsed names line closing (.accept (some holders) (closing = .end))
  | aborted : Parsed names line closing (.abort (closing = .end))

/-- A parse without an error that has read `w` of the line and not yet `u`. -/
structure Reading (names : Names) (line : List Token) (closing : Token) (rest : List Token) (p : Parser)
    (w u : List Token) : Prop where
  stacked : Reads names p.yyss p.yyvs w
  isSplit : line = w ++ u
  pending : p.pending = u ++ closing :: rest
  status : p.yyerrstatus = 0
  sized : p.Sized
  space : p.yyss.length + u.length + slack p.yystate ≤ line.length + 3
  reached : ∃ n, yyparse names (line ++ closing :: rest) n = .ok (.next p)

def Move.rule : Move → Option ℕ
  | .reduce r => some r
  | _ => none

/-- The rule that the next round reduces by. -/
def Round.rule : Round → Option ℕ
  | .next p => p.pending.head?.bind fun token => (Parser.acts p.yystate token).rule
  | .done .. => none

/-- The assertions in the actions that run hold: a bare `cd` finds `HOME`, and the interpreter gets through a string. -/
def AssertionsHold (names : Names) (input : List Token) : Prop :=
  ∀ n p, yyparse names input n = .ok (.next p) →
    ((Round.next p).rule = some 14 → (names.lookupEnv "HOME".toList).isSome = true) ∧
    ((Round.next p).rule = some 42 → ∀ text vs, p.yyvs = .str text :: vs →
      (interpretComplexStringToken names.lookupEnv text).isSome = true)

/-- The actions with an assertion have a value where a parse without an error reduces by them. -/
def Asserts (names : Names) (line : List Token) (closing : Token) (rest : List Token) : Prop :=
  ∀ p w u token v r, Reading names line closing rest p w u → u ++ closing :: rest = token :: v →
    Parser.acts p.yystate token = .reduce r → hasAssertion r →
      (action names r (p.yyvs.take (yyr2.getD r 0)).reverse).isSome = true

/-- A line that the stacks can hold and on which no assertion fails, with the token and the rest behind it. -/
structure Line (names : Names) (line : List Token) (closing : Token) (rest : List Token) : Prop where
  unclosed : ∀ token ∈ line, token.closes = false
  closes : closing.closes = true
  short : line.length + 4 < yymaxdepth
  asserts : Asserts names line closing rest

/-- What a round can find. -/
inductive Phase (names : Names) (line : List Token) (closing : Token) (rest : List Token) : Round → Prop
  | reading {p : Parser} (w u : List Token) (reading : Reading names line closing rest p w u) :
      Phase names line closing rest (.next p)
  | closed {p : Parser} (stacked : Reads names p.yyss p.yyvs (line ++ [closing]))
      (reached : yystos.getD p.yystate 0 = closing.symbol) (yychar : p.yychar = none) (input : p.input = rest) :
      Phase names line closing rest (.next p)
  | skipping {p : Parser} (u : List Token) (unclosed : ∀ token ∈ u, token.closes = false) (popped : p.yyss = [1, 0])
      (pending : p.pending = u ++ closing :: rest) (status : p.yyerrstatus = 3) (sized : p.Sized) :
      Phase names line closing rest (.next p)
  | skipped {p : Parser} (state : p.yystate = if closing = .end then 20 else 21) (yychar : p.yychar = none)
      (input : p.input = rest) : Phase names line closing rest (.next p)
  | done {p : Parser} {result : YyResult} (parsed : Parsed names line closing result) (yychar : p.yychar = none)
      (input : p.input = rest) : Phase names line closing rest (.done result p)

/-- A bound on the rounds that are left. -/
def Round.left : Round → ℕ
  | .next p => 12 * p.pending.length + p.yyss.length + rank.getD p.yystate 0 + 1
  | .done .. => 0

variable {names : Names} {line rest w u v : List Token} {closing token : Token} {p : Parser} {s t r : ℕ} {ss : List ℕ}
  {vs : List YyStype}

/-! ## The top of the stack -/

theorem Reads.top (stacked : Reads names (t :: ss) vs w) : t < 56 ∧ t ≠ yyfinal ∧ t ≠ 1 := by
  cases stacked with
  | bottom => decide
  | push below edge value =>
    obtain ⟨-, bound, -, notFinal⟩ := lrEdges_bound _ edge
    refine ⟨bound, notFinal, ?_⟩
    rintro rfl
    -- no derivation and no token of the input stands for `error`
    obtain ⟨n, isNumber, -⟩ | ⟨token, isNumber, -, -⟩ := value
    · have nonterminal := number_bound n
      rw [isNumber] at nonterminal
      exact absurd nonterminal (by decide)
    · have terminal := (symbol_bound token).1
      rw [isNumber] at terminal
      exact absurd terminal (by decide)

theorem Reads.exists_top (stacked : Reads names ss vs w) : ∃ t below, ss = t :: below := by
  cases stacked with
  | bottom => exact ⟨_, _, rfl⟩
  | push => exact ⟨_, _, rfl⟩

theorem Reads.edge (stacked : Reads names (t :: ss) vs w) : t = 0 ∨ ∃ s, s ≠ 1 ∧ (s, t) ∈ lrEdges := by
  cases stacked with
  | bottom => exact .inl rfl
  | push below edge value => exact .inr ⟨_, (Reads.top below).2.2, edge⟩

/-- Only the stack with one state is read from nothing. -/
theorem Reads.bottom (stacked : Reads names (0 :: ss) vs w) : ss = [] ∧ w = [] := by
  generalize whole : 0 :: ss = states at stacked
  cases stacked with
  | bottom => exact ⟨(List.cons.inj whole).2, rfl⟩
  | push below edge value =>
    obtain ⟨rfl, -⟩ := List.cons.inj whole
    exact absurd rfl (lrEdges_bound _ edge).2.2.1

theorem Reads.shift (stacked : Reads names (s :: ss) vs w) (shifts : allowed s token.symbol (.shift t) = true) :
    Reads names (t :: s :: ss) (token.value :: vs) (w ++ [token]) ∧ slack t ≤ slack s := by
  simp only [allowed, Bool.and_eq_true, decide_eq_true_eq] at shifts
  obtain ⟨⟨edge, reached⟩, less⟩ := shifts
  exact ⟨stacked.push edge (reached ▸ .terminal token rfl rfl rfl), less⟩

theorem yydefact_bound : ∀ t < 56, yydefact.getD t 0 < 46 := by decide +kernel

theorem Reads.reduce (stacked : Reads names (t :: ss) vs w) (isRule : yydefact.getD t 0 = r) (low : 7 ≤ r)
    (asserted : hasAssertion r → (action names r (vs.take (yyr2.getD r 0)).reverse).isSome = true) :
    ∃ v s below, action names r (vs.take (yyr2.getD r 0)).reverse = some v ∧
      (t :: ss).drop (yyr2.getD r 0) = s :: below ∧ ss.length = below.length + yyr2.getD r 0 ∧
      Reads names (goto s (yyr1.getD r 0) :: s :: below) (v :: vs.drop (yyr2.getD r 0)) w ∧
      reducible t (yyr2.getD r 0) (yyr1.getD r 0) s = true := by
  have bound := stacked.top.1
  have high : r < 46 := isRule ▸ yydefact_bound t bound
  obtain ⟨tops, s, below, popped, left, w', u, states, values, rfl, length, length', yields, under, allowed⟩ :=
    stacked.pop (handle_reducible t bound r high isRule low)
  rw [rhs_length r high] at length length'
  rw [values, ← length', List.take_left' rfl] at asserted
  obtain ⟨v, acted, value⟩ := action_fits asserted low high yields
  have edge := allowed
  simp only [reducible, Bool.and_eq_true, decide_eq_true_eq] at edge
  refine ⟨v, s, below, ?_, ?_, ?_, ?_, allowed⟩
  · rw [values, ← length', List.take_left', acted]
    rfl
  · rw [states, ← length, List.drop_left']
    rfl
  · have total := congrArg List.length states
    rw [List.length_append, List.length_cons, List.length_cons] at total
    omega
  · rw [values, ← length', List.drop_left' rfl]
    exact under.push edge.1.1.1 (edge.1.1.2.symm ▸ value)

/-! ## The rounds -/

theorem closing_symbol (closes : closing.closes = true) : closing = .end ∨ closing = .eocTok := by
  cases closing with
  | «end» => exact .inl rfl
  | eocTok => exact .inr rfl
  | _ => exact absurd closes Bool.false_ne_true

theorem acts_reduce (bound : s < 56) (reduces : Parser.acts s token = .reduce r) : r = yydefact.getD s 0 ∧ r ≠ 0 := by
  rw [Parser.acts] at reduces
  split at reduces
  · next asks =>
    rw [yydefault, if_neg (default_reduces s bound asks)] at reduces
    obtain rfl := Move.reduce.inj reduces
    exact ⟨rfl, default_reduces s bound asks⟩
  · next asks =>
    have may := move_allowed s bound token.symbol (symbol_bound token).2 (symbol_bound token).1 (Bool.not_eq_true _ ▸ asks)
    rw [reduces] at may
    simp only [allowed, Bool.and_eq_true, decide_eq_true_eq] at may
    exact may

theorem acts_cases (s : ℕ) (token : Token) :
    (∃ r, Parser.acts s token = .reduce r) ∨ (∃ t, isDefault s = false ∧ move s token.symbol = .shift t) ∨
      (isDefault s = false ∧ move s token.symbol = .error) ∨ (isDefault s = true ∧ yydefact.getD s 0 = 0) := by
  cases asks : isDefault s with
  | true =>
    by_cases none : yydefact.getD s 0 = 0
    · exact .inr (.inr (.inr ⟨rfl, none⟩))
    · exact .inl ⟨yydefact.getD s 0, by rw [Parser.acts, if_pos asks, yydefault, if_neg none]⟩
  | false =>
    cases moves : move s token.symbol with
    | shift t => exact .inr (.inl ⟨t, rfl, rfl⟩)
    | reduce r => exact .inl ⟨r, by rw [Parser.acts, asks, if_neg Bool.false_ne_true, moves]⟩
    | error => exact .inr (.inr (.inl ⟨rfl, rfl⟩))

theorem yystos_top : ∀ t < 56, yydefact.getD t 0 ≠ 0 → t ≠ yyfinal → yydefact.getD t 0 < 7 →
    yystos.getD t 0 = 10 ∨ yystos.getD t 0 = 17 := by
  decide +kernel

/-- A rule of `top` waits for the token that closes the line. -/
theorem Reads.unfinished (stacked : Reads names (t :: ss) vs w) (unclosed : ∀ token ∈ w, token.closes = false)
    (reduces : yydefact.getD t 0 ≠ 0) : 7 ≤ yydefact.getD t 0 := by
  by_contra low
  obtain ⟨bound, notFinal, -⟩ := stacked.top
  have reached := yystos_top t bound reduces notFinal (by omega)
  cases stacked with
  | bottom => exact absurd rfl reduces
  | @push _ _ _ v vs w u below edge value =>
    have closed : ∃ token ∈ u, token.closes = true := by
      obtain reached | reached := reached <;> rw [reached] at value <;>
        obtain ⟨text, rfl, -⟩ := fits_terminal (by decide) value
      · exact ⟨.end, List.mem_singleton_self _, rfl⟩
      · exact ⟨.eocTok, List.mem_singleton_self _, rfl⟩
    obtain ⟨token, member, closes⟩ := closed
    exact absurd (unclosed token (List.mem_append_right w member)) (by rw [closes]; decide)

theorem Reads.popError (stacked : Reads names ss vs w) : Parser.popError ss vs = some ([0], [], 1) := by
  induction stacked with
  | bottom => rfl
  | push below edge value ih =>
    obtain ⟨-, bound, nonzero, -⟩ := lrEdges_bound _ edge
    rw [Parser.popError, errorShift_eq _ bound, if_neg nonzero]
    exact ih

/-- An error leaves the state in which the rest of the line is skipped. -/
theorem yyerrlab_eq (sized : p.Sized) (popped : Parser.popError p.yyss p.yyvs = some ([0], vs, 1))
    (nonempty : p.yyss ≠ []) :
    ∃ p', p.yyerrlab = .next p' ∧ p'.yyss = [1, 0] ∧ p'.yyerrstatus = 3 ∧ p'.Sized ∧
      p'.yychar = (if p.yyerrstatus = 3 then none else p.yychar) ∧ p'.input = p.input := by
  have length := List.length_pos_of_ne_nil nonempty
  have room := sized.room
  obtain ⟨p', new, sized', states, -, yychar, input, status⟩ := Parser.yynewstate_eq (t := 1)
    (p := { p with
      yyss := [0]
      yyvs := .unread :: vs
      yychar := if p.yyerrstatus = 3 then none else p.yychar
      yyerrstatus := 3 })
    ⟨by simp only [List.length_singleton]; omega, sized.size⟩ (by simp only [List.length_singleton]; decide) (by decide)
  refine ⟨p', ?_, states, status, sized', yychar, input⟩
  rw [← new]
  by_cases failed : p.yyerrstatus = 3
  · simp only [Parser.yyerrlab, if_pos failed, popped]
  · simp only [Parser.yyerrlab, if_neg failed, popped]

/-- The tokens of a line that are not read yet, with the first one and what comes behind it. -/
theorem Line.first (isLine : Line names line closing rest) (isSplit : line = w ++ u) :
    ∃ token v, u ++ closing :: rest = token :: v ∧
      ((∃ u', u = token :: u' ∧ v = u' ++ closing :: rest ∧ token.closes = false) ∨
        (u = [] ∧ token = closing ∧ v = rest)) := by
  cases u with
  | nil => exact ⟨closing, rest, rfl, .inr ⟨rfl, rfl, rfl⟩⟩
  | cons token u =>
    have member : token ∈ line := isSplit ▸ List.mem_append_right w (List.mem_cons_self ..)
    exact ⟨token, u ++ closing :: rest, rfl, .inl ⟨u, rfl, rfl, isLine.unclosed token member⟩⟩

/-! ## Rounds -/

theorem yyparse_succ {input : List Token} {n : ℕ} {r : Round} (ran : yyparse names input n = .ok (.next p))
    (stepped : p.yybackup names = .ok r) : yyparse names input (n + 1) = .ok r := by
  rw [yyparse] at ran
  rw [yyparse, DeterministicRun.run_add, ran]
  exact DeterministicRun.run_succ (s := Round.next p) stepped 0

/-- A reduction by a rule with an assertion, with the value it is about. -/
theorem Reading.asserted (reading : Reading names line closing rest p w u)
    (reduces : Parser.acts p.yystate token = .reduce r) (has : hasAssertion r) :
    ∃ value left w' u', p.yyvs = value :: left ∧ w = w' ++ u' ∧ Yields (Fits names) (rhs.getD r []) [value] u' ∧
      p.yyvs.take (yyr2.getD r 0) = [value] := by
  obtain ⟨low, high⟩ : 7 ≤ r ∧ r < 46 := by rcases has with rfl | rfl <;> decide
  obtain ⟨s, ss, state⟩ := reading.stacked.exists_top
  have isState : p.yystate = s := by rw [Parser.yystate, state, List.headD_cons]
  have stacked := reading.stacked
  rw [state] at stacked
  have bound := stacked.top.1
  obtain ⟨isRule, -⟩ := acts_reduce bound (isState ▸ reduces)
  obtain ⟨_, _, _, popped, left, w', u', -, values, isSplit, -, length, yields, -⟩ :=
    stacked.pop (handle_reducible s bound r high isRule.symm low)
  rw [rhs_length r high] at length
  have single : yyr2.getD r 0 = 1 := by rcases has with rfl | rfl <;> rfl
  obtain ⟨value, rfl⟩ := List.length_eq_one_iff.mp (length.trans single)
  exact ⟨value, left, w', u', values, isSplit, yields, by rw [values, single]; rfl⟩

theorem asserts_of_hold (hold : AssertionsHold names (line ++ closing :: rest)) : Asserts names line closing rest := by
  intro p w u token v r reading isPending reduces has
  obtain ⟨n, ran⟩ := reading.reached
  obtain ⟨value, left, w', u', values, -, yields, taken⟩ := reading.asserted reduces has
  obtain ⟨home, strings⟩ := hold n p ran
  have isRule : (Round.next p).rule = some r := by
    rw [Round.rule, reading.pending, isPending, List.head?_cons, Option.bind_some, reduces, Move.rule]
  rw [taken]
  obtain rfl | rfl := has
  · rw [action_cd_isSome yields]
    exact home isRule
  · obtain ⟨text, rfl, same⟩ := action_str_isSome yields
    obtain ⟨_, single, value⟩ := yields_one.mp yields
    obtain ⟨text', whole, rfl⟩ := fits_terminal (by decide) value
    obtain rfl : text = text' := Token.str.inj (List.singleton_inj.mp whole)
    obtain rfl := List.singleton_inj.mp single
    rw [same]
    exact strings isRule text left values

theorem asserts_of_interpretable (interpretable : Interpretable names line) : Asserts names line closing rest := by
  intro p w u token v r reading isPending reduces has
  obtain ⟨value, left, w', u', -, isSplit, yields, taken⟩ := reading.asserted reduces has
  have read : u' ⊆ line := by
    rw [reading.isSplit, isSplit]
    exact List.subset_append_of_subset_left u (List.subset_append_right w' u')
  rw [taken]
  exact (interpretable.mono read).asserted has yields

/-- A round that replaces the values of a right side. -/
theorem Reading.reduce (isLine : Line names line closing rest) (reading : Reading names line closing rest p w u)
    (state : p.yyss = s :: ss) (isPending : u ++ closing :: rest = token :: v) (reduces : Parser.acts s token = .reduce r) :
    ∃ value t below p', action names r (p.yyvs.take (yyr2.getD r 0)).reverse = some value ∧
      (s :: ss).drop (yyr2.getD r 0) = t :: below ∧ p.yybackup names = .ok (.next p') ∧
      p'.yyss = goto t (yyr1.getD r 0) :: t :: below ∧ p'.yyvs = value :: p.yyvs.drop (yyr2.getD r 0) ∧
      Reading names line closing rest p' w u ∧ (Round.next p').left < (Round.next p).left := by
  have isState : p.yystate = s := by rw [Parser.yystate, state, List.headD_cons]
  have asserted := isLine.asserts p w u token v r reading isPending (by rw [isState]; exact reduces)
  obtain ⟨stacked, isSplit, pending, status, sized, space, n, ran⟩ := reading
  rw [state] at stacked
  rw [isState, state, List.length_cons] at space
  have short := isLine.short
  have length : line.length = w.length + u.length := by rw [isSplit, List.length_append]
  obtain ⟨isRule, nonzero⟩ := acts_reduce stacked.top.1 reduces
  have unclosed : ∀ token ∈ w, token.closes = false := fun token member =>
    isLine.unclosed token (isSplit ▸ List.mem_append_left u member)
  have low := stacked.unfinished unclosed (isRule ▸ nonzero)
  rw [← isRule] at low
  obtain ⟨value, t, below, acted, dropped, popped, stacked', edge⟩ := stacked.reduce isRule.symm low asserted
  obtain ⟨-, notFinal, -⟩ := stacked'.top
  simp only [reducible, Bool.and_eq_true, decide_eq_true_eq] at edge
  obtain ⟨⟨-, falls⟩, fits⟩ := edge
  obtain ⟨p', stepped, states, values, pending', status', sized'⟩ :=
    Parser.yybackup_reduce sized state (pending.trans isPending) reduces low acted dropped (by omega) notFinal
  refine ⟨value, t, below, p', acted, dropped, stepped, states, values,
    ⟨?_, isSplit, pending'.trans isPending.symm, status'.trans status, sized', ?_, n + 1, yyparse_succ ran stepped⟩, ?_⟩
  · rw [states, values]
    exact stacked'
  · simp only [Parser.yystate, states, List.headD_cons, List.length_cons]
    omega
  · simp only [Round.left, Parser.yystate, states, List.headD_cons, List.length_cons, pending', pending, isPending, state]
    omega

/-- A round that shifts the next token of the line, or the one that closes it. -/
theorem Reading.shift (isLine : Line names line closing rest) (reading : Reading names line closing rest p w u)
    (state : p.yyss = s :: ss) (isPending : u ++ closing :: rest = token :: v) (asks : isDefault s = false)
    (moves : move s token.symbol = .shift t) :
    ∃ p', p.yybackup names = .ok (.next p') ∧ p'.yyss = t :: s :: ss ∧ p'.yyvs = token.value :: p.yyvs ∧
      p'.yychar = none ∧ p'.input = v ∧ p'.yyerrstatus = 0 ∧ p'.Sized ∧ Reads names p'.yyss p'.yyvs (w ++ [token]) ∧
      yystos.getD t 0 = token.symbol ∧ slack t ≤ slack s ∧ (Round.next p').left < (Round.next p).left := by
  obtain ⟨stacked, isSplit, pending, status, sized, space, -⟩ := reading
  have isState : p.yystate = s := by rw [Parser.yystate, state, List.headD_cons]
  rw [state] at stacked
  rw [isState, state, List.length_cons] at space
  have short := isLine.short
  obtain ⟨bound, -, notError⟩ := stacked.top
  have ranked := (rank_bound s bound).2 notError
  have may := move_allowed s bound token.symbol (symbol_bound token).2 (symbol_bound token).1 asks
  rw [moves] at may
  obtain ⟨stacked', less⟩ := stacked.shift may
  simp only [allowed, Bool.and_eq_true, decide_eq_true_eq] at may
  obtain ⟨bound', notFinal, -⟩ := stacked'.top
  have ranked' := (rank_bound t bound').1
  obtain ⟨p', stepped, states, values, read, input, status', sized'⟩ :=
    Parser.yybackup_shift names sized state (by omega) (pending.trans isPending) asks moves notFinal
  refine ⟨p', stepped, states, values, read, input, status'.trans (by rw [status]), sized', ?_, may.1.2, less, ?_⟩
  · rw [states, values]
    exact stacked'
  · simp only [Round.left, Parser.yystate, Parser.pending, states, List.headD_cons, List.length_cons, read, input,
      state, Option.toList_none, List.nil_append]
    rw [← Parser.pending, pending, isPending, List.length_cons]
    omega

/-- A round that shifts a token of the line. -/
theorem Reading.shift_token (isLine : Line names line closing rest) (reading : Reading names line closing rest p w (token :: u))
    (state : p.yyss = s :: ss) (asks : isDefault s = false) (moves : move s token.symbol = .shift t) :
    ∃ p', p.yybackup names = .ok (.next p') ∧ p'.yyss = t :: s :: ss ∧ p'.yyvs = token.value :: p.yyvs ∧
      Reading names line closing rest p' (w ++ [token]) u ∧ (Round.next p').left < (Round.next p).left := by
  obtain ⟨p', stepped, states, values, read, input, status, sized, stacked, -, less, falls⟩ :=
    reading.shift isLine state rfl asks moves
  have space := reading.space
  obtain ⟨n, ran⟩ := reading.reached
  refine ⟨p', stepped, states, values, ⟨stacked, ?_, ?_, status, sized, ?_, n + 1, yyparse_succ ran stepped⟩, falls⟩
  · rw [reading.isSplit, List.append_assoc, List.singleton_append]
  · rw [Parser.pending, read, input]
    rfl
  · simp only [Parser.yystate, states, state, List.headD_cons, List.length_cons] at space ⊢
    omega

/-- A round of a parse without an error. -/
theorem Reading.step (isLine : Line names line closing rest) (reading : Reading names line closing rest p w u) :
    ∃ r, p.yybackup names = .ok r ∧ Phase names line closing rest r ∧ r.left < (Round.next p).left := by
  obtain ⟨s, ss, state⟩ := reading.stacked.exists_top
  have stacked := reading.stacked
  rw [state] at stacked
  obtain ⟨bound, -, notError⟩ := stacked.top
  obtain ⟨token, v, isPending, first⟩ := isLine.first reading.isSplit
  have pending := reading.pending.trans isPending
  obtain ⟨r, reduces⟩ | ⟨t, asks, moves⟩ | ⟨asks, fails⟩ | ⟨asks, none⟩ := acts_cases s token
  · obtain ⟨_, _, _, p', -, -, stepped, -, -, reading', falls⟩ := reading.reduce isLine state isPending reduces
    exact ⟨.next p', stepped, .reading w u reading', falls⟩
  · obtain ⟨u', rfl, rfl, -⟩ | ⟨rfl, rfl, rfl⟩ := first
    · obtain ⟨p', stepped, -, -, reading', falls⟩ := reading.shift_token isLine state asks moves
      exact ⟨.next p', stepped, .reading _ u' reading', falls⟩
    · obtain ⟨p', stepped, states, values, read, input, -, -, stacked', reached, -, falls⟩ :=
        reading.shift isLine state isPending asks moves
      have whole : line = w := reading.isSplit.trans (List.append_nil w)
      exact ⟨.next p', stepped, .closed (whole ▸ stacked') (by rw [Parser.yystate, states]; exact reached) read input, falls⟩
  · have popped : Parser.popError p.yyss p.yyvs = some ([0], [], 1) := by rw [state]; exact stacked.popError
    obtain ⟨p', erred, states, status', sized', read, input⟩ := yyerrlab_eq (p := { p with yychar := some token, input := v })
      ⟨reading.sized.room, reading.sized.size⟩ popped (by simp only [state]; exact List.cons_ne_nil s ss)
    have pending' : p'.pending = token :: v := by
      rw [Parser.pending, read, input, if_neg (by simp only [reading.status]; decide)]
      rfl
    refine ⟨.next p', ?_, .skipping u ?_ states (pending'.trans isPending.symm) status' sized', ?_⟩
    · rw [Parser.yybackup_error names state pending asks fails, erred]
    · exact fun token member => isLine.unclosed token (reading.isSplit ▸ List.mem_append_right w member)
    · have ranked := (rank_bound s bound).2 notError
      simp only [Round.left, Parser.yystate, states, List.headD_cons, List.length_cons, pending', pending, state]
      have least : rank.getD 1 0 = 0 := rfl
      rw [least, List.length_nil]
      omega
  · exact absurd none (default_reduces s bound asks)

/-! ## The end of the line -/

theorem closed_default : ∀ edge ∈ lrEdges, edge.1 ≠ 1 → yystos.getD edge.2 0 = 10 ∨ yystos.getD edge.2 0 = 17 →
    isDefault edge.2 = true ∧ 2 ≤ yydefact.getD edge.2 0 ∧ yydefact.getD edge.2 0 < 5 := by
  decide +kernel

/-- The values under a token that closes the line. -/
theorem closed_values {k : ℕ} (small : k < 23) (yields : Yields (Fits names) [k, 25] vs (line ++ [closing])) :
    ∃ tree holders v, vs = [v, .cmdList holders] ∧ Cmds.Reads tree line ∧ cmds names tree = some holders ∧
      ∃ text, closing = tokenOf k text := by
  obtain ⟨_, _, u, _, rfl, whole, value, closed⟩ := yields_two.mp yields
  obtain ⟨text, rfl, -⟩ := fits_terminal small closed
  obtain ⟨rfl, last⟩ := List.append_inj' whole rfl
  obtain ⟨tree, holders, reads, made, rfl⟩ := (fits_nonterminal .cmds).mp value
  exact ⟨tree, holders, _, rfl, reads, made, text, List.singleton_inj.mp last⟩

/-- The round that reduces to `top`. -/
theorem closed_step (isLine : Line names line closing rest) (stacked : Reads names p.yyss p.yyvs (line ++ [closing]))
    (reached : yystos.getD p.yystate 0 = closing.symbol) :
    ∃ result, p.yybackup names = .ok (.done result p) ∧ Parsed names line closing result := by
  obtain ⟨t, ss, state⟩ := stacked.exists_top
  have isState : p.yystate = t := by rw [Parser.yystate, state, List.headD_cons]
  rw [state] at stacked
  rw [isState] at reached
  have closes : yystos.getD t 0 = 10 ∨ yystos.getD t 0 = 17 := by
    rw [reached]
    obtain rfl | rfl := closing_symbol isLine.closes
    · exact .inl rfl
    · exact .inr rfl
  obtain ⟨asks, least, most⟩ : isDefault t = true ∧ 2 ≤ yydefact.getD t 0 ∧ yydefact.getD t 0 < 5 := by
    obtain rfl | ⟨s, notError, edge⟩ := stacked.edge
    · exact absurd closes (by decide)
    · exact closed_default _ edge notError closes
  obtain ⟨tops, s, below, popped, left, w', u, states, values, words, -, length, yields, under, isBottom⟩ :=
    stacked.pop (handle_top t stacked.top.1 _ (by omega) rfl least)
  obtain rfl : s = 0 := of_decide_eq_true isBottom
  obtain ⟨-, rfl⟩ := Reads.bottom under
  rw [List.nil_append] at words
  subst words
  have taken : p.yyvs.take (yyr2.getD (yydefact.getD t 0) 0) = popped := by
    rw [values, ← rhs_length _ (by omega), ← length, List.take_left' rfl]
  have acted : p.yybackup names = p.yyreduce names (yydefact.getD t 0) := by
    rw [Parser.yybackup, isState, if_pos asks, yydefault, if_neg (by omega)]
  rw [acted]
  generalize yydefact.getD t 0 = r at *
  obtain rfl | rfl | rfl : r = 2 ∨ r = 3 ∨ r = 4 := by omega
  · obtain ⟨v, rfl, value⟩ := yields_one.mp yields
    obtain ⟨text, whole, -⟩ := fits_terminal (by decide) value
    have same : line ++ [closing] = [] ++ [.eocTok] := whole
    obtain ⟨empty, last⟩ := List.append_inj' same rfl
    exact ⟨_, rfl, .blank empty (List.singleton_inj.mp last)⟩
  · obtain ⟨tree, holders, v, rfl, reads, made, _, rfl⟩ := closed_values (by decide) yields
    refine ⟨.accept (some (pushBack holders (mkCommandHolder none none 0 .eoc))) false, ?_,
      .accepted tree _ reads (by rw [top, made]; rfl)⟩
    simp only [Parser.yyreduce, taken, List.reverse_cons, List.reverse_nil, List.nil_append, List.singleton_append]
  · obtain ⟨tree, holders, v, rfl, reads, made, _, rfl⟩ := closed_values (by decide) yields
    refine ⟨.accept (some (pushBack holders (mkCommandHolder none none 0 .eoc))) true, ?_,
      .accepted tree _ reads (by rw [top, made]; rfl)⟩
    simp only [Parser.yyreduce, taken, List.reverse_cons, List.reverse_nil, List.nil_append, List.singleton_append]

theorem skipping_moves : ∀ k < 23, 3 ≤ k → move 1 k = if k = 10 then .shift 20 else if k = 17 then .shift 21 else .error := by
  decide +kernel

/-- A round that skips a token. -/
theorem skipping_step (isLine : Line names line closing rest) (unclosed : ∀ token ∈ u, token.closes = false)
    (popped : p.yyss = [1, 0]) (pending : p.pending = u ++ closing :: rest) (status : p.yyerrstatus = 3)
    (sized : p.Sized) :
    ∃ r, p.yybackup names = .ok r ∧ Phase names line closing rest r ∧ r.left < (Round.next p).left := by
  have asks : isDefault 1 = false := rfl
  have left : (Round.next p).left = 12 * p.pending.length + 3 := by
    simp only [Round.left, Parser.yystate, popped]
    rfl
  cases u with
  | nil =>
    rw [List.nil_append] at pending
    have moves : move 1 closing.symbol = .shift (if closing = .end then 20 else 21) := by
      obtain rfl | rfl := closing_symbol isLine.closes <;> decide
    obtain ⟨p', stepped, states, -, read, input, -, -⟩ := Parser.yybackup_shift names sized popped (by decide) pending
      asks moves (by split <;> decide)
    refine ⟨.next p', stepped, .skipped (by rw [Parser.yystate, states, List.headD_cons]) read input, ?_⟩
    have ranked : rank.getD p'.yystate 0 = 2 := by
      rw [Parser.yystate, states, List.headD_cons]
      split <;> rfl
    rw [left, pending, Round.left, ranked, Parser.pending, read, input, states]
    simp only [Option.toList_none, List.nil_append, List.length_cons, List.length_nil]
    omega
  | cons token u =>
    rw [List.cons_append] at pending
    have bound := symbol_bound token
    have fails : move 1 token.symbol = .error := by
      have unclosed := unclosed token (List.mem_cons_self ..)
      rw [skipping_moves _ bound.2 bound.1]
      cases token <;> first | rfl | exact absurd unclosed (by decide)
    have isPopped : Parser.popError p.yyss p.yyvs = some ([0], p.yyvs.tail, 1) := by rw [popped]; rfl
    obtain ⟨p', erred, states, status', sized', read, input⟩ :=
      yyerrlab_eq (p := { p with yychar := some token, input := u ++ closing :: rest }) ⟨sized.room, sized.size⟩
        isPopped (by simp only [popped]; decide)
    have pending' : p'.pending = u ++ closing :: rest := by
      rw [Parser.pending, read, input, if_pos status]
      rfl
    refine ⟨.next p', ?_, .skipping u (fun token member => unclosed token (List.mem_cons_of_mem _ member)) states
      pending' status' sized', ?_⟩
    · rw [Parser.yybackup_error names popped pending asks fails, erred]
    · have left' : (Round.next p').left = 12 * p'.pending.length + 3 := by
        simp only [Round.left, Parser.yystate, states]
        rfl
      rw [left, left', pending, pending', List.length_cons]
      omega

/-- The round that gives up. -/
theorem skipped_step (isLine : Line names line closing rest) (state : p.yystate = if closing = .end then 20 else 21) :
    p.yybackup names = .ok (.done (.abort (closing = .end)) p) := by
  obtain rfl | rfl := closing_symbol isLine.closes
  · rw [if_pos rfl] at state
    simp only [Parser.yybackup, state]
    rfl
  · rw [if_neg (by decide)] at state
    simp only [Parser.yybackup, state]
    rfl

theorem Phase.step (isLine : Line names line closing rest) (phase : Phase names line closing rest (.next p)) :
    ∃ r, p.yybackup names = .ok r ∧ Phase names line closing rest r ∧ r.left < (Round.next p).left := by
  cases phase with
  | reading w u reading => exact reading.step isLine
  | closed stacked reached yychar input =>
    obtain ⟨result, stepped, parsed⟩ := closed_step isLine stacked reached
    exact ⟨_, stepped, .done parsed yychar input, Nat.succ_pos _⟩
  | skipping u unclosed popped pending status sized => exact skipping_step isLine unclosed popped pending status sized
  | skipped state yychar input =>
    exact ⟨_, skipped_step isLine state, .done .aborted yychar input, Nat.succ_pos _⟩

theorem reading_start (rest line : List Token) :
    Reading names line closing rest (.start (line ++ closing :: rest)) [] line where
  stacked := Stacked.bottom
  isSplit := rfl
  pending := rfl
  status := rfl
  sized := ⟨show 1 < 200 by decide, show 200 ≤ 10000 by decide⟩
  space := by
    simp only [Parser.start, Parser.yystate, List.length_singleton, List.headD_cons]
    have free : slack 0 = 2 := rfl
    omega
  reached := ⟨0, rfl⟩

/-- Every parse of a line ends, and leaves what comes behind the line. -/
theorem yyparse_parsed (isLine : Line names line closing rest) :
    ∃ n result p, yyparse names (line ++ closing :: rest) n = .ok (.done result p) ∧ p.yychar = none ∧
      p.input = rest ∧ Parsed names line closing result := by
  have start : Phase names line closing rest (.next (.start (line ++ closing :: rest))) :=
    .reading [] line (reading_start rest line)
  have falls (r : Round) (phase : Phase names line closing rest r) (notDone : ¬ ∃ result p, r = .done result p) :
      ∃ r', r.step names = .ok r' ∧ Phase names line closing rest r' ∧ r'.left < r.left := by
    cases r with
    | done result p => exact absurd ⟨result, p, rfl⟩ notDone
    | next p => exact phase.step isLine
  obtain ⟨n, r, ran, phase, result, p, rfl⟩ := DeterministicRun.exists_final (Phase names line closing rest)
    (fun r => ∃ result p, r = .done result p) Round.left falls _ start
  cases phase with
  | done parsed yychar input => exact ⟨n, result, p, ran, yychar, input, parsed⟩

end OsLabs.Quash
