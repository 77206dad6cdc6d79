import OsLabs.Model.Quash.Parser
import OsLabs.ToMathlib.ShiftReduce

/-! # The automaton of the parser

The edges of the automaton behind the tables of `parse.tab.c`, and what the tables do along them. The
right sides of the rules are those of `parse.y`.
-/

namespace OsLabs.Quash

open ShiftReduce

/-- The edges, by the state that they leave. -/
def lrEdges : List (ℕ × ℕ) := [
  (0, [1, 2, 3, 4, 5, 6, 7, 8, 9, 10, 11, 12, 13, 15, 16, 17, 18, 19]),
  (1, [20, 21]),
  (2, [9, 10, 11, 12, 22, 23, 24, 25, 26, 27, 28, 29, 30, 31, 32]),
  (3, [33]),
  (4, [9, 10, 11, 12, 22, 23, 24, 25, 26, 27, 28, 31, 32, 34]),
  (7, [35]),
  (15, [37, 38]),
  (16, [39]),
  (17, [40, 41, 42, 43, 44, 45]),
  (19, [9, 10, 11, 12, 22, 23, 24, 25, 26, 27, 28, 30, 31, 32, 46]),
  (30, [9, 10, 11, 12, 22, 23, 24, 25, 26, 27, 28, 30, 31, 32, 47]),
  (33, [48]),
  (35, [49]),
  (39, [2, 3, 4, 5, 6, 7, 9, 10, 11, 12, 13, 16, 17, 18, 19, 50]),
  (43, [51, 52]),
  (45, [9, 10, 11, 12, 22, 23, 24, 25, 26, 27, 28, 31, 32, 53]),
  (48, [9, 10, 11, 12, 22, 23, 24, 25, 26, 27, 28, 31, 32, 54]),
  (53, [40, 41, 42, 45, 55])].flatMap fun (s, ts) => ts.map (s, ·)

/-- The right sides of the rules as numbers of symbols, the last in front. -/
def rhs : List (List ℕ) := [
  [], [0, 24], [17], [17, 25], [10, 25], [17, 1], [10, 1], [26], [25, 3, 26], [31, 28, 27],
  [32], [11], [33, 11], [34, 6, 20, 12], [13], [34, 13], [14], [15], [22], [21, 21, 16],
  [29], [], [29, 34, 30], [34, 30], [7], [8], [9], [], [4], [33, 36],
  [36], [34], [33, 34], [36], [35], [11], [12], [13], [16], [14],
  [15], [22], [18], [19], [21], [20]]

/-- Falls with every reduction, counted with the length of the stack. -/
def rank : List ℕ := [
  2, 0, 7, 2, 7, 7, 7, 2, 2, 10, 10, 10, 10, 7, 2, 2, 3, 6, 7, 8,
  2, 2, 10, 10, 10, 10, 10, 10, 10, 6, 8, 9, 9, 2, 6, 2, 2, 2, 2, 2,
  3, 3, 3, 4, 5, 2, 7, 7, 2, 5, 2, 3, 2, 5, 4, 4]

/-- How many entries for no token may still come on top of a state, before one of them is popped. -/
def slack (s : ℕ) : ℕ := if s = 52 then 0 else if s = 43 ∨ s = 51 then 1 else 2

/-- What a state may do on a symbol. -/
def allowed (s k : ℕ) : Move → Bool
  | .shift t => (s, t) ∈ lrEdges && yystos.getD t 0 = k && slack t ≤ slack s
  | .reduce r => r = yydefact.getD s 0 && r ≠ 0
  | .error => yydefact.getD s 0 = 0

/-- What a reduction to `lhs` has to find when it has popped `n` symbols from under the state `t`. -/
def reducible (t n lhs s : ℕ) : Bool :=
  (s, goto s lhs) ∈ lrEdges && yystos.getD (goto s lhs) 0 = lhs &&
    rank.getD (goto s lhs) 0 + 1 < rank.getD t 0 + n && slack (goto s lhs) + 1 ≤ slack t + n

theorem lrEdges_bound : ∀ edge ∈ lrEdges, edge.1 < 56 ∧ edge.2 < 56 ∧ edge.2 ≠ 0 ∧ edge.2 ≠ yyfinal := by
  decide +kernel

theorem rank_bound : ∀ s < 56, rank.getD s 0 ≤ 10 ∧ (s ≠ 1 → 2 ≤ rank.getD s 0) := by decide +kernel

theorem move_allowed : ∀ s < 56, ∀ k < 23, 3 ≤ k → isDefault s = false → allowed s k (move s k) = true := by
  decide +kernel

theorem default_reduces : ∀ s < 56, isDefault s = true → yydefact.getD s 0 ≠ 0 := by decide +kernel

theorem handle_reducible : ∀ t < 56, ∀ r < 46, yydefact.getD t 0 = r → 7 ≤ r →
    handle lrEdges (yystos.getD · 0) 0 (reducible t (yyr2.getD r 0) (yyr1.getD r 0)) (rhs.getD r []) t = true := by
  decide +kernel

theorem rhs_length : ∀ r < 46, (rhs.getD r []).length = yyr2.getD r 0 := by decide +kernel

/-- The rules of `top` end at the bottom of the stack. -/
theorem handle_top : ∀ t < 56, ∀ r < 7, yydefact.getD t 0 = r → 2 ≤ r →
    handle lrEdges (yystos.getD · 0) 0 (· = 0) (rhs.getD r []) t = true := by
  decide +kernel

theorem errorShift_eq : ∀ s < 56, errorShift s = if s = 0 then some 1 else none := by decide +kernel

end OsLabs.Quash
