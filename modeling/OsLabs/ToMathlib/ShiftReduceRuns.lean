import OsLabs.ToMathlib.ShiftReduce

/-! # Every derivation is parsed

A grammar whose rules are followed only by what may follow their left sides, and an automaton that reduces
by a rule in front of everything that may follow. Then a parser whose shifts and reductions go along the
automaton reads every derivation, in every state that goes on with its symbol.
-/

namespace ShiftReduce

variable {σ χ ν τ ρ : Type*}

/-- A derivation of words from a symbol, with the value that the actions give it. -/
inductive Derives (terminal : χ → ν → List τ → Prop) (lhs : ρ → χ) (rhs : ρ → List χ) (act : ρ → List ν → Option ν) :
    χ → ν → List τ → Prop
  | terminal {x : χ} {v : ν} {w : List τ} (value : terminal x v w) : Derives terminal lhs rhs act x v w
  | rule (r : ρ) {vs : List ν} {w : List τ} {v : ν} (values : Yields (Derives terminal lhs rhs act) (rhs r) vs w)
      (acted : act r vs.reverse = some v) : Derives terminal lhs rhs act (lhs r) v w

section Grammar

variable (firsts follow : χ → List (Option χ))

/-- What may come first in what these symbols derive with something of `next` behind it. -/
def starts (next : List (Option χ)) : List χ → List (Option χ)
  | [] => next
  | x :: xs => starts ((firsts x).flatMap fun first => if first.isNone then next else [first]) xs

/-- Every symbol is followed by something that may follow it. -/
def follows [DecidableEq χ] (next : List (Option χ)) : List χ → Bool
  | [] => true
  | x :: xs => next.all (· ∈ follow x) && follows (starts firsts next [x]) xs

/-- The state that the symbols lead to. -/
def path (edge : σ → χ → Option σ) (s : σ) : List χ → Option σ
  | [] => some s
  | x :: xs => (path edge s xs).bind fun t => edge t x

end Grammar

variable {terminal : χ → ν → List τ → Prop} {lhs : ρ → χ} {rhs : ρ → List χ} {act : ρ → List ν → Option ν}
  {symbol : τ → χ} {firsts follow : χ → List (Option χ)} {edge : σ → χ → Option σ}
  {x : χ} {xs : List χ} {v : ν} {vs : List ν} {w u : List τ} {next : List (Option χ)}

/-- The first word, by its symbol. -/
def ahead (symbol : τ → χ) (w : List τ) : Option χ := w.head?.map symbol

variable (terminal lhs rhs symbol firsts follow) in
/-- What derivations begin with, and what comes behind them. -/
structure Sets [DecidableEq χ] : Prop where
  terminals : ∀ x v w, terminal x v w → ahead symbol w ∈ firsts x
  rules : ∀ r, starts firsts [none] (rhs r) ⊆ firsts (lhs r)
  following : ∀ r, follows firsts follow (follow (lhs r)) (rhs r) = true

/-- What the stacks and the words to come go to. -/
abbrev Config (σ ν τ : Type*) := List σ × List ν × List τ

variable (terminal lhs rhs act symbol follow edge) in
/-- A parser that goes along an automaton: it reduces by a rule whatever may follow the left side. -/
structure Parses (Goes : Config σ ν τ → Config σ ν τ → Prop) : Prop where
  refl : ∀ c, Goes c c
  trans : ∀ a b c, Goes a b → Goes b c → Goes a c
  shift : ∀ x v w s t ss vs u, terminal x v w → edge s x = some t →
    Goes (s :: ss, vs, w ++ u) (t :: s :: ss, v :: vs, u)
  handle : ∀ r s t, edge s (lhs r) = some t → ∃ s', path edge s (rhs r) = some s'
  reduce : ∀ r v popped tops t s s' ss vs u, edge s (lhs r) = some t → path edge s (rhs r) = some s' →
    (tops ++ s :: ss).head? = some s' → tops.length = (rhs r).length → popped.length = (rhs r).length →
    act r popped.reverse = some v → ahead symbol u ∈ follow (lhs r) →
    Goes (tops ++ s :: ss, popped ++ vs, u) (t :: s :: ss, v :: vs, u)

theorem ahead_append (begins : ahead symbol w ∈ firsts x) (behind : ahead symbol u ∈ next) :
    ahead symbol (w ++ u) ∈ starts firsts next [x] := by
  rw [starts, starts, List.mem_flatMap]
  refine ⟨_, begins, ?_⟩
  cases w with
  | nil => exact behind
  | cons c w => exact List.mem_singleton_self _

/-- What derivations begin with. -/
theorem Derives.ahead_mem [DecidableEq χ] (sets : Sets terminal lhs rhs symbol firsts follow)
    (derives : Derives terminal lhs rhs act x v w) : ahead symbol w ∈ firsts x := by
  refine derives.rec (motive_1 := fun x _ w _ => ahead symbol w ∈ firsts x)
    (motive_2 := fun xs _ w _ => ∀ u next, ahead symbol u ∈ next → ahead symbol (w ++ u) ∈ starts firsts next xs)
    ?_ ?_ ?_ ?_
  · exact fun value => sets.terminals _ _ _ value
  · intro r vs w v _ _ ih
    have begins := ih [] [none] (List.mem_singleton_self _)
    rw [List.append_nil] at begins
    exact sets.rules r begins
  · exact fun u next behind => behind
  · intro x xs v vs w u _ _ ih begins u' next behind
    rw [List.append_assoc]
    exact ih (u ++ u') _ (ahead_append begins behind)

/-- Every derivation is parsed, in every state that goes on with its symbol. -/
theorem Derives.parsed [DecidableEq χ] {Goes : Config σ ν τ → Config σ ν τ → Prop}
    (sets : Sets terminal lhs rhs symbol firsts follow) (parses : Parses terminal lhs rhs act symbol follow edge Goes)
    (derives : Derives terminal lhs rhs act x v w) :
    ∀ s t ss vs u, edge s x = some t → ahead symbol u ∈ follow x → Goes (s :: ss, vs, w ++ u) (t :: s :: ss, v :: vs, u) := by
  -- over the symbols of a right side, the states that they lead to are on top of the stack
  refine derives.rec (motive_1 := fun x v w _ => ∀ s t ss vs u, edge s x = some t → ahead symbol u ∈ follow x →
      Goes (s :: ss, vs, w ++ u) (t :: s :: ss, v :: vs, u))
    (motive_2 := fun xs popped w _ => ∀ s t ss vs u next, path edge s xs = some t → ahead symbol u ∈ next →
      follows firsts follow next xs = true → ∃ tops : List σ, tops.length = xs.length ∧ popped.length = xs.length ∧
        (tops ++ s :: ss).head? = some t ∧ Goes (s :: ss, vs, w ++ u) (tops ++ s :: ss, popped ++ vs, u)) ?_ ?_ ?_ ?_
  · exact fun value s t ss vs u moves _ => parses.shift _ _ _ s t ss vs u value moves
  · intro r popped w v _ acted ih s t ss vs u moves behind
    obtain ⟨s', leads⟩ := parses.handle r s t moves
    obtain ⟨tops, length, length', top, goes⟩ := ih s s' ss vs u (follow (lhs r)) leads behind (sets.following r)
    exact parses.trans _ _ _ goes
      (parses.reduce r v popped tops t s s' ss vs u moves leads top length length' acted behind)
  · intro s t ss vs u next leads _ _
    exact ⟨[], rfl, rfl, leads, parses.refl _⟩
  · intro x xs v popped w w' _ value ih goes s t ss vs u next leads behind isFollowed
    obtain ⟨s', leads', moves⟩ := Option.bind_eq_some_iff.mp leads
    rw [follows, Bool.and_eq_true, List.all_eq_true] at isFollowed
    obtain ⟨here, before⟩ := isFollowed
    have begins := ahead_append (value.ahead_mem sets) behind
    obtain ⟨tops, length, length', top, goes'⟩ := ih s s' ss vs (w' ++ u) _ leads' begins before
    obtain ⟨below, isTop⟩ := List.head?_eq_some_iff.mp top
    refine ⟨t :: tops, congrArg (· + 1) length, congrArg (· + 1) length', rfl, ?_⟩
    rw [List.append_assoc]
    have last := goes s' t below (popped ++ vs) u moves (of_decide_eq_true (here _ behind))
    rw [← isTop] at last
    exact parses.trans _ _ _ goes' last

end ShiftReduce
