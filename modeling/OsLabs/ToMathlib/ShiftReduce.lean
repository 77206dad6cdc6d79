import Mathlib.Data.List.Basic
import Mathlib.Tactic.Common

/-! # Stacks of a shift-reduce parser

The states on the stack of a parser are a path through its automaton, and each state is reached by one
symbol. Where every path into a state ends with the right side of a rule, the values on the stack are
values of the symbols of that side. Stacks have their top in front, and right sides their last symbol.
-/

namespace ShiftReduce

variable {σ χ ν τ : Type*} (edges : List (σ × σ)) (symbol : σ → χ) (bottom : σ)
  (fits : χ → ν → List τ → Prop)

/-- A path from `bottom` with values of its symbols that stand for the words read. -/
inductive Stacked : List σ → List ν → List τ → Prop
  | bottom : Stacked [bottom] [] []
  | push {s t : σ} {ss : List σ} {v : ν} {vs : List ν} {w u : List τ} (below : Stacked (s :: ss) vs w)
      (edge : (s, t) ∈ edges) (value : fits (symbol t) v u) : Stacked (t :: s :: ss) (v :: vs) (w ++ u)

/-- Values of some symbols. -/
inductive Yields : List χ → List ν → List τ → Prop
  | nil : Yields [] [] []
  | cons {x : χ} {xs : List χ} {v : ν} {vs : List ν} {w u : List τ} (rest : Yields xs vs w)
      (value : fits x v u) : Yields (x :: xs) (v :: vs) (w ++ u)

/-- Every path into `t` ends with these symbols, after a state with `final`. -/
def handle [DecidableEq σ] [DecidableEq χ] (final : σ → Bool) : List χ → σ → Bool
  | [], t => final t
  | x :: xs, t => t ≠ bottom && symbol t = x && edges.all fun edge => edge.2 ≠ t || handle final xs edge.1

variable {edges symbol bottom fits} {t : σ} {ss : List σ} {v : ν} {vs : List ν} {w : List τ} {x : χ} {xs : List χ}

theorem yields_nil : Yields fits [] vs w ↔ vs = [] ∧ w = [] := by
  constructor
  · rintro ⟨⟩
    exact ⟨rfl, rfl⟩
  · rintro ⟨rfl, rfl⟩
    exact .nil

theorem yields_cons : Yields fits (x :: xs) vs w ↔
    ∃ v vs' u w', vs = v :: vs' ∧ w = w' ++ u ∧ fits x v u ∧ Yields fits xs vs' w' := by
  constructor
  · rintro (_ | ⟨rest, value⟩)
    exact ⟨_, _, _, _, rfl, rfl, value, rest⟩
  · rintro ⟨v, vs', u, w', rfl, rfl, value, rest⟩
    exact .cons rest value

theorem yields_one : Yields fits [x] vs w ↔ ∃ v, vs = [v] ∧ fits x v w := by
  rw [yields_cons]
  simp only [yields_nil]
  constructor
  · rintro ⟨v, _, u, _, rfl, rfl, value, rfl, rfl⟩
    exact ⟨v, rfl, value⟩
  · rintro ⟨v, rfl, value⟩
    exact ⟨v, [], w, [], rfl, rfl, value, rfl, rfl⟩

theorem yields_two {y : χ} : Yields fits [y, x] vs w ↔
    ∃ v v' u u', vs = [v', v] ∧ w = u ++ u' ∧ fits x v u ∧ fits y v' u' := by
  rw [yields_cons]
  simp only [yields_one]
  constructor
  · rintro ⟨v', _, u', u, rfl, rfl, value', v, rfl, value⟩
    exact ⟨v, v', u, u', rfl, rfl, value, value'⟩
  · rintro ⟨v, v', u, u', rfl, rfl, value, value'⟩
    exact ⟨v', [v], u', u, rfl, rfl, value', v, rfl, value⟩

theorem yields_three {y z : χ} : Yields fits [z, y, x] vs w ↔
    ∃ v v' v'' u u' u'', vs = [v'', v', v] ∧ w = u ++ u' ++ u'' ∧ fits x v u ∧ fits y v' u' ∧ fits z v'' u'' := by
  rw [yields_cons]
  simp only [yields_two]
  constructor
  · rintro ⟨v'', _, u'', _, rfl, rfl, value'', v, v', u, u', rfl, rfl, value, value'⟩
    exact ⟨v, v', v'', u, u', u'', rfl, rfl, value, value', value''⟩
  · rintro ⟨v, v', v'', u, u', u'', rfl, rfl, value, value', value''⟩
    exact ⟨v'', [v', v], u'', u ++ u', rfl, rfl, value'', v, v', u, u', rfl, rfl, value, value'⟩

/-- The symbols of a handle can be popped, with their values. -/
theorem Stacked.pop [DecidableEq σ] [DecidableEq χ] {final : σ → Bool}
    (stacked : Stacked edges symbol bottom fits (t :: ss) vs w)
    (handled : handle edges symbol bottom final xs t = true) :
    ∃ tops s rest popped vs' w' u, t :: ss = tops ++ s :: rest ∧ vs = popped ++ vs' ∧ w = w' ++ u ∧
      tops.length = xs.length ∧ popped.length = xs.length ∧ Yields fits xs popped u ∧
      Stacked edges symbol bottom fits (s :: rest) vs' w' ∧ final s = true := by
  induction xs generalizing t ss vs w with
  | nil => exact ⟨[], t, ss, [], vs, w, [], rfl, rfl, (List.append_nil w).symm, rfl, rfl, .nil, stacked, handled⟩
  | cons x xs ih =>
    simp only [handle, Bool.and_eq_true, decide_eq_true_eq, List.all_eq_true] at handled
    obtain ⟨⟨notBottom, isSymbol⟩, before⟩ := handled
    cases stacked with
    | bottom => exact absurd rfl notBottom
    | @push s _ ss v vs w u below edge value =>
      have handled : handle edges symbol bottom final xs s = true := by
        simpa using before (s, t) edge
      obtain ⟨tops, s', rest, popped, vs', w', u', states, values, words, length, length', yields, left, isFinal⟩ :=
        ih below handled
      refine ⟨t :: tops, s', rest, v :: popped, vs', w', u' ++ u, by rw [states, List.cons_append],
        by rw [values, List.cons_append], by rw [words, List.append_assoc], congrArg (· + 1) length,
        congrArg (· + 1) length', ?_, left, isFinal⟩
      exact .cons yields (isSymbol ▸ value)

theorem Stacked.length_eq (stacked : Stacked edges symbol bottom fits ss vs w) : ss.length = vs.length + 1 := by
  induction stacked with
  | bottom => rfl
  | push _ _ _ ih => rw [List.length_cons, ih, List.length_cons]

end ShiftReduce
