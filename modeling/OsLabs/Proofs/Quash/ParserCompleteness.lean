import OsLabs.Proofs.Quash.ParserDerivations
import OsLabs.Proofs.Quash.ParserRuns

/-! # The parser accepts what the grammar derives

What the symbols begin with and what comes behind them, where `none` is the end of the line. In front of
whatever may follow a symbol, the automaton reduces by the rules for it.
-/

namespace OsLabs.Quash

open ShiftReduce

/-! ## The grammar -/

/-- The tokens of a program name. -/
def firstStrings : List (Option ℕ) := [some 18, some 19, some 20, some 21]

def keywords : List (Option ℕ) := [some 11, some 12, some 13, some 14, some 15, some 16, some 22]

def redirMarks : List (Option ℕ) := [some 7, some 8, some 9]

/-- What comes behind a command. -/
def commandEnds : List (Option ℕ) := [none, some 3, some 4] ++ redirMarks

def symbolFirsts : ℕ → List (Option ℕ)
  | 25 | 26 | 27 | 33 | 34 => firstStrings ++ keywords
  | 28 => none :: redirMarks
  | 29 | 30 => redirMarks
  | 31 => [none, some 4]
  | 32 | 36 => firstStrings
  | 35 => keywords
  | k => [some k]

def symbolFollow : ℕ → List (Option ℕ)
  | 25 => [none]
  | 26 | 31 => [none, some 3]
  | 27 | 32 | 33 => commandEnds
  | 28 | 29 => [none, some 3, some 4]
  | 30 => firstStrings ++ keywords
  | 34 | 35 | 36 => firstStrings ++ keywords ++ commandEnds
  | _ => none :: (List.range 23).map some

theorem rule_sets : ∀ r : Rule, starts symbolFirsts [none] r.rhs ⊆ symbolFirsts r.lhs ∧
    follows symbolFirsts symbolFollow (symbolFollow r.lhs) r.rhs = true := by
  decide +kernel

theorem sets : Sets isToken Rule.lhs Rule.rhs Token.symbol symbolFirsts symbolFollow where
  terminals := by
    rintro k v w ⟨token, rfl, rfl, rfl⟩
    cases token <;> exact List.mem_singleton_self _
  rules r := (rule_sets r).1
  following r := (rule_sets r).2

/-! ## The automaton -/

/-- The edge for a symbol. -/
def lrEdge (s k : ℕ) : Option ℕ := (lrEdges.find? fun edge => edge.1 = s && yystos.getD edge.2 0 = k).map (·.2)

theorem lrEdge_mem {s k t : ℕ} (found : lrEdge s k = some t) : (s, t) ∈ lrEdges ∧ yystos.getD t 0 = k := by
  obtain ⟨⟨s', t'⟩, first, rfl⟩ := Option.map_eq_some_iff.mp found
  have member := List.mem_of_find?_eq_some first
  have same := List.find?_some first
  simp only [Bool.and_eq_true, decide_eq_true_eq] at same
  exact ⟨same.1 ▸ member, same.2⟩

/-- The tokens that stand at a place of a line. -/
def symbolsAt : Option ℕ → List ℕ
  | some k => [k]
  | none => [10, 17]

theorem edge_shifts : ∀ edge ∈ lrEdges, 3 ≤ yystos.getD edge.2 0 → yystos.getD edge.2 0 < 23 →
    isDefault edge.1 = false ∧ move edge.1 (yystos.getD edge.2 0) = .shift edge.2 := by
  decide +kernel

theorem edge_reduces : ∀ r : Rule, ∀ edge ∈ lrEdges, yystos.getD edge.2 0 = r.lhs → goto edge.1 r.lhs = edge.2 ∧
    ∃ s ∈ path lrEdge edge.1 r.rhs, ∀ next ∈ symbolFollow r.lhs, ∀ k ∈ symbolsAt next,
      (if isDefault s then yydefault s else move s k) = .reduce r.number := by
  decide +kernel

/-! ## The runs -/

/-- A parse of the line gets from some stacks and tokens to others. -/
def Goes (names : Names) (line : List Token) (closing : Token) (rest : List Token) (c c' : Config ℕ (Option YyStype) Token) : Prop :=
  ∀ p w, Reading names line closing rest p w c.2.2 → p.yyss = c.1 → p.yyvs.map some = c.2.1 →
    ∃ n p' w', DeterministicRun.run (Round.step names) n (.next p) = .ok (.next p') ∧
      Reading names line closing rest p' w' c'.2.2 ∧ p'.yyss = c'.1 ∧ p'.yyvs.map some = c'.2.1

variable {names : Names} {line rest w u v : List Token} {closing token : Token}

/-- The next token of a line stands at the place of the symbol in front. -/
theorem symbolsAt_ahead (isLine : Line names line closing rest) (isPending : u ++ closing :: rest = token :: v) :
    token.symbol ∈ symbolsAt (ahead Token.symbol u) := by
  cases u with
  | nil =>
    obtain ⟨rfl, -⟩ := List.cons.inj isPending
    obtain rfl | rfl := closing_symbol isLine.closes <;> decide
  | cons token' u =>
    obtain ⟨rfl, -⟩ := List.cons.inj isPending
    exact List.mem_singleton_self _

theorem goes_shift (isLine : Line names line closing rest) {k s t : ℕ} {value : Option YyStype} (isToken : isToken k value w)
    (moves : lrEdge s k = some t) (ss : List ℕ) (vs : List (Option YyStype)) (u : List Token) :
    Goes names line closing rest (s :: ss, vs, w ++ u) (t :: s :: ss, value :: vs, u) := by
  obtain ⟨token, rfl, rfl, rfl⟩ := isToken
  intro p w' reading states values
  obtain ⟨edge, reached⟩ := lrEdge_mem moves
  obtain ⟨low, high⟩ := symbol_bound token
  obtain ⟨asks, shifts⟩ := edge_shifts _ edge (reached ▸ low) (reached ▸ high)
  rw [reached] at shifts
  obtain ⟨p', stepped, states', values', reading', -⟩ := reading.shift_token isLine states asks shifts
  refine ⟨1, p', _, DeterministicRun.run_succ stepped 0, reading', states', ?_⟩
  rw [values', List.map_cons, values]

theorem mapM_id_some (values : List YyStype) : (values.map some).mapM id = some values := by
  induction values with
  | nil => rfl
  | cons value values ih =>
    rw [List.map_cons, List.mapM_cons, ih]
    rfl

theorem goes_reduce (isLine : Line names line closing rest) (r : Rule) {s t s' : ℕ} {ss tops : List ℕ}
    {value : Option YyStype} {vs popped : List (Option YyStype)} (moves : lrEdge s r.lhs = some t) (leads : path lrEdge s r.rhs = some s')
    (top : (tops ++ s :: ss).head? = some s') (length : tops.length = r.rhs.length)
    (length' : popped.length = r.rhs.length) (acted : r.act names popped.reverse = some value)
    (behind : ahead Token.symbol u ∈ symbolFollow r.lhs) :
    Goes names line closing rest (tops ++ s :: ss, popped ++ vs, u) (t :: s :: ss, value :: vs, u) := by
  intro p w reading states values
  obtain ⟨edge, reached⟩ := lrEdge_mem moves
  obtain ⟨isGoto, s'', leads', reduces⟩ := edge_reduces r _ edge reached
  obtain rfl : s' = s'' := Option.some.inj (leads.symm.trans leads')
  obtain ⟨below, isTop⟩ := List.head?_eq_some_iff.mp top
  obtain ⟨token, v, isPending, -⟩ := isLine.first reading.isSplit
  have reduces := reduces _ behind _ (symbolsAt_ahead isLine isPending)
  have size : yyr2.getD r.number 0 = r.rhs.length := (rhs_length r.number (by simp only [Rule.number]; omega)).symm
  obtain ⟨value', t', below', p', acted', dropped, stepped, states', values', reading', -⟩ :=
    reading.reduce isLine (states.trans isTop) isPending reduces
  rw [← isTop, size, ← length, List.drop_left' rfl] at dropped
  obtain ⟨rfl, rfl⟩ := List.cons.inj dropped
  have taken : (p.yyvs.take r.rhs.length).map some = popped := by
    rw [List.map_take, values, ← length', List.take_left' rfl]
  have made : value = some value' := by
    rw [← acted', size, ← Option.some_inj, ← acted, ← taken, Rule.act, ← List.map_reverse, mapM_id_some]
    rfl
  refine ⟨1, p', w, DeterministicRun.run_succ stepped 0, reading', ?_, ?_⟩
  · rw [states']
    exact congrArg (· :: s :: ss) isGoto
  · rw [values', List.map_cons, List.map_drop, values, size, ← length', List.drop_left' rfl, made]

theorem goes_parses (isLine : Line names line closing rest) :
    Parses isToken Rule.lhs Rule.rhs (Rule.act names) Token.symbol symbolFollow lrEdge (Goes names line closing rest) where
  refl c p w reading states values := ⟨0, p, w, rfl, reading, states, values⟩
  trans := by
    intro a b c first second p w reading states values
    obtain ⟨n, q, w', ran, reading', states', values'⟩ := first p w reading states values
    obtain ⟨m, q', w'', ran', last⟩ := second q w' reading' states' values'
    refine ⟨n + m, q', w'', ?_, last⟩
    rw [DeterministicRun.run_add, ran]
    exact ran'
  shift k value w s t ss vs u isToken moves := goes_shift isLine isToken moves ss vs u
  handle r s t moves := by
    obtain ⟨edge, reached⟩ := lrEdge_mem moves
    obtain ⟨-, s', leads, -⟩ := edge_reduces r _ edge reached
    exact ⟨s', leads⟩
  reduce r value popped tops t s s' ss vs u moves leads top length length' acted behind :=
    goes_reduce isLine r moves leads top length length' acted behind

/-- Behind the commands of a line, the parser reduces to `top`. -/
theorem closing_step {p : Parser} {holders : List ParsedHolder} {value : YyStype} (closes : closing.closes = true)
    (states : p.yyss = [if closing = .end then 37 else 38, 15, 0]) (values : p.yyvs = [value, .cmdList holders]) :
    p.yybackup names =
      .ok (.done (.accept (some (pushBack holders (mkCommandHolder none none 0 .eoc))) (closing = .end)) p) := by
  obtain rfl | rfl := closing_symbol closes
  · have state : p.yystate = 37 := by rw [Parser.yystate, states, List.headD_cons, if_pos rfl]
    simp only [Parser.yybackup, state, Parser.yyreduce, values]
    rfl
  · have state : p.yystate = 38 := by rw [Parser.yystate, states, List.headD_cons, if_neg (by decide)]
    simp only [Parser.yybackup, state, Parser.yyreduce, values]
    rfl

/-- The parser accepts a line that the grammar derives. -/
theorem yyparse_accepts (isLine : Line names line closing rest) (tree : Cmds) (reads : tree.Reads line) :
    ∃ n holders p, top names tree = some holders ∧
      yyparse names (line ++ closing :: rest) n = .ok (.done (.accept (some holders) (closing = .end)) p) := by
  have makes := cmds_makes names tree reads
  have moves : lrEdge 0 25 = some 15 := by decide +kernel
  obtain ⟨n, p, w, ran, reading, states, values⟩ := makes.parsed sets (goes_parses isLine) 0 15 [] [] [] moves
    (List.mem_singleton_self _) (.start (line ++ closing :: rest)) []
    (by rw [List.append_nil]; exact reading_start rest line) rfl rfl
  obtain ⟨_, isValue, built⟩ := List.map_eq_singleton_iff.mp values
  obtain ⟨holders, made, rfl⟩ := Option.map_eq_some_iff.mp built.symm
  have shifts : move 15 closing.symbol = .shift (if closing = .end then 37 else 38) := by
    obtain rfl | rfl := closing_symbol isLine.closes <;> decide
  obtain ⟨p', stepped, states', values', -⟩ := reading.shift isLine states rfl rfl shifts
  have shifted : Round.step names (.next p) = .ok (.next p') := stepped
  have accepted : Round.step names (.next p') = _ :=
    closing_step isLine.closes states' (values'.trans (by rw [isValue]))
  refine ⟨n + 2, _, p', by rw [top, made]; rfl, ?_⟩
  rw [yyparse, DeterministicRun.run_add, ran]
  change DeterministicRun.run (Round.step names) 2 (.next p) = _
  rw [DeterministicRun.run_succ shifted, DeterministicRun.run_succ accepted]
  rfl

/-- A parse that has ended has one result. -/
theorem yyparse_unique {input : List Token} {n n' : ℕ} {result result' : YyResult} {p p' : Parser}
    (ran : yyparse names input n = .ok (.done result p)) (ran' : yyparse names input n' = .ok (.done result' p')) :
    result = result' :=
  (Round.done.inj (DeterministicRun.run_unique ran ran' rfl rfl)).1

theorem yyparse_blank (names : Names) (rest : List Token) :
    ∃ p, yyparse names (.eocTok :: rest) 2 = .ok (.done (.accept none false) p) :=
  ⟨_, rfl⟩

/-- A line that the grammar does not derive is given up, unless it is empty. -/
theorem yyparse_gives_up (isLine : Line names line closing rest) (underivable : ∀ tree : Cmds, ¬ tree.Reads line)
    {n : ℕ} {result : YyResult} {p : Parser} (ran : yyparse names (line ++ closing :: rest) n = .ok (.done result p)) :
    result = if line = [] ∧ closing = .eocTok then .accept none false else .abort (closing = .end) := by
  obtain ⟨n', result', p', ran', -, -, parsed⟩ := yyparse_parsed isLine
  obtain rfl := yyparse_unique ran ran'
  cases parsed with
  | blank empty closed => rw [if_pos ⟨empty, closed⟩]
  | accepted tree holders reads => exact absurd reads (underivable tree)
  | aborted =>
    split
    · next blank =>
      obtain ⟨rfl, rfl⟩ := blank
      obtain ⟨_, ran''⟩ := yyparse_blank names rest
      exact yyparse_unique ran ran''
    · rfl

end OsLabs.Quash
