import OsLabs.Proofs.Quash.ParserValues

/-! # The rounds of the parser

What one round does to the stacks and to the tokens that are still to come, whether or not the first of
them is read already.
-/

namespace OsLabs.Quash

namespace Parser

variable {names : Names} {p : Parser} {s t r : ℕ} {ss below : List ℕ} {v : YyStype} {token : Token} {w : List Token}

/-- The tokens to come, with the lookahead token. -/
def pending (p : Parser) : List Token := p.yychar.toList ++ p.input

/-- The stack has room for another state, or can be made larger. -/
structure Sized (p : Parser) : Prop where
  room : p.yyss.length < p.yystacksize
  size : p.yystacksize ≤ yymaxdepth

theorem lookahead_eq (pending : p.pending = token :: w) :
    p.lookahead = (token, { p with yychar := some token, input := w }) := by
  obtain ⟨ss, vs, yychar, status, size, input⟩ := p
  cases yychar with
  | none =>
    obtain rfl : input = token :: w := pending
    rfl
  | some first =>
    obtain ⟨rfl, rfl⟩ := List.cons.inj pending
    rfl

theorem yynewstate_eq (sized : p.Sized) (short : p.yyss.length + 1 < yymaxdepth) (notFinal : t ≠ yyfinal) :
    ∃ p' : Parser, p.yynewstate t = .next p' ∧ p'.Sized ∧ p'.yyss = t :: p.yyss ∧ p'.yyvs = p.yyvs ∧
      p'.yychar = p.yychar ∧ p'.input = p.input ∧ p'.yyerrstatus = p.yyerrstatus := by
  have room := sized.room
  have size := sized.size
  simp only [yynewstate, List.length_cons, if_neg notFinal]
  split
  · next full =>
    have larger : p.yyss.length + 1 < min (p.yystacksize * 2) yymaxdepth := lt_min (by omega) short
    rw [if_neg (by omega), if_neg (by omega)]
    exact ⟨_, rfl, ⟨larger, min_le_right _ _⟩, rfl, rfl, rfl, rfl, rfl⟩
  · next free => exact ⟨_, rfl, ⟨not_le.mp free, size⟩, rfl, rfl, rfl, rfl, rfl⟩

/-- A round that shifts. -/
theorem yybackup_shift (names : Names) (sized : p.Sized) (state : p.yyss = s :: ss) (short : ss.length + 2 < yymaxdepth)
    (pending : p.pending = token :: w) (asks : isDefault s = false) (moves : move s token.symbol = .shift t)
    (notFinal : t ≠ yyfinal) :
    ∃ p', p.yybackup names = .ok (.next p') ∧ p'.yyss = t :: s :: ss ∧ p'.yyvs = token.value :: p.yyvs ∧
      p'.yychar = none ∧ p'.input = w ∧ p'.yyerrstatus = p.yyerrstatus - 1 ∧ p'.Sized := by
  have isState : p.yystate = s := by rw [yystate, state, List.headD_cons]
  have length : p.yyss.length = ss.length + 1 := by rw [state, List.length_cons]
  obtain ⟨p', new, sized', states, values, read, input, status⟩ := yynewstate_eq (t := t)
    (p := { p with yychar := none, input := w, yyerrstatus := p.yyerrstatus - 1, yyvs := token.value :: p.yyvs })
    ⟨sized.room, sized.size⟩ (by simp only [length]; omega) notFinal
  refine ⟨p', ?_, states.trans (congrArg (t :: ·) state), values, read, input, status, sized'⟩
  rw [yybackup, isState, asks, if_neg Bool.false_ne_true, lookahead_eq pending]
  simp only [yystate, state, List.headD_cons, yytranslate_eq, moves] at new ⊢
  rw [new]

/-- What a state does when a token comes, read or not. -/
def acts (s : ℕ) (token : Token) : Move := if isDefault s then yydefault s else move s token.symbol

/-- A round that uses a rule. -/
theorem yybackup_rule (names : Names) (state : p.yyss = s :: ss) (pending : p.pending = token :: w)
    (reduces : acts s token = .reduce r) :
    ∃ p' : Parser, p.yybackup names = p'.yyreduce names r ∧ p'.yyss = p.yyss ∧ p'.yyvs = p.yyvs ∧
      p'.pending = p.pending ∧ p'.yyerrstatus = p.yyerrstatus ∧ p'.yystacksize = p.yystacksize := by
  have isState : p.yystate = s := by rw [yystate, state, List.headD_cons]
  rw [acts] at reduces
  split at reduces
  · next asks =>
    refine ⟨p, ?_, rfl, rfl, rfl, rfl, rfl⟩
    rw [yybackup, isState, if_pos asks, reduces]
  · next asks =>
    refine ⟨{ p with yychar := some token, input := w }, ?_, rfl, rfl, pending.symm, rfl, rfl⟩
    rw [yybackup, isState, if_neg asks, lookahead_eq pending]
    simp only [yystate, state, List.headD_cons, yytranslate_eq, reduces]

/-- A round that finds an error. -/
theorem yybackup_error (names : Names) (state : p.yyss = s :: ss) (pending : p.pending = token :: w)
    (asks : isDefault s = false) (fails : move s token.symbol = .error) :
    p.yybackup names = .ok { p with yychar := some token, input := w }.yyerrlab := by
  have isState : p.yystate = s := by rw [yystate, state, List.headD_cons]
  rw [yybackup, isState, asks, if_neg Bool.false_ne_true, lookahead_eq pending]
  simp only [yystate, state, List.headD_cons, yytranslate_eq, fails]

/-- The rules that do not end the parse. -/
theorem yyreduce_eq (low : 7 ≤ r) (acted : action names r (p.yyvs.take (yyr2.getD r 0)).reverse = some v) :
    p.yyreduce names r = .ok ({ p with
      yyss := p.yyss.drop (yyr2.getD r 0)
      yyvs := v :: p.yyvs.drop (yyr2.getD r 0) }.yynewstate
        (goto ((p.yyss.drop (yyr2.getD r 0)).headD 0) (yyr1.getD r 0))) := by
  obtain ⟨n, rfl⟩ := Nat.exists_eq_add_of_le' low
  simp only [yyreduce, acted]
  rfl

/-- A round that reduces. -/
theorem yybackup_reduce (sized : p.Sized) (state : p.yyss = s :: ss) (pending : p.pending = token :: w)
    (reduces : acts s token = .reduce r) (low : 7 ≤ r)
    (acted : action names r (p.yyvs.take (yyr2.getD r 0)).reverse = some v)
    (dropped : (s :: ss).drop (yyr2.getD r 0) = t :: below) (short : below.length + 2 < yymaxdepth)
    (notFinal : goto t (yyr1.getD r 0) ≠ yyfinal) :
    ∃ p', p.yybackup names = .ok (.next p') ∧ p'.yyss = goto t (yyr1.getD r 0) :: t :: below ∧
      p'.yyvs = v :: p.yyvs.drop (yyr2.getD r 0) ∧ p'.pending = token :: w ∧ p'.yyerrstatus = p.yyerrstatus ∧
      p'.Sized := by
  obtain ⟨q, same, states, values, pending', status, size⟩ := yybackup_rule names state pending reduces
  have popped : q.yyss.drop (yyr2.getD r 0) = t :: below := by rw [states, state, dropped]
  have room : (t :: below).length < p.yystacksize := by
    rw [← dropped, ← state, List.length_drop]
    exact lt_of_le_of_lt (Nat.sub_le ..) sized.room
  obtain ⟨p', new, sized', states', values', read, input, status'⟩ := yynewstate_eq (t := goto t (yyr1.getD r 0))
    (p := { q with yyss := t :: below, yyvs := v :: p.yyvs.drop (yyr2.getD r 0) })
    ⟨by rw [size]; exact room, by rw [size]; exact sized.size⟩ short notFinal
  refine ⟨p', ?_, states', values', ?_, status'.trans status, sized'⟩
  · rw [same, yyreduce_eq low (by rw [values, acted])]
    simp only [popped, List.headD_cons, values]
    rw [new]
  · rw [Parser.pending, read, input, ← pending, ← pending', Parser.pending]

end Parser

end OsLabs.Quash
