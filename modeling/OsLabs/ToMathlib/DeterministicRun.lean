import Mathlib.Data.Int.Notation
import Mathlib.Order.WellFounded

/-! # Runs of a machine that may fail

A machine is a step function into `Except`. An invariant that every step can be taken under and
keeps holds along the whole run, which then never fails. If a measure falls at every step that does
not start in a final state, the run ends.
-/

namespace DeterministicRun

variable {σ ε μ : Type*}

/-- `n` steps. -/
def run (step : σ → Except ε σ) : ℕ → σ → Except ε σ
  | 0, s => .ok s
  | n + 1, s => step s >>= run step n

variable {step : σ → Except ε σ} {Inv : σ → Prop}

theorem run_succ {s s' : σ} (taken : step s = .ok s') (n : ℕ) : run step (n + 1) s = run step n s' := by
  rw [run, taken]
  rfl

theorem run_add (n m : ℕ) (s : σ) : run step (n + m) s = run step n s >>= run step m := by
  induction n generalizing s with
  | zero =>
    rw [Nat.zero_add]
    rfl
  | succ n ih =>
    rw [Nat.add_right_comm, run, run]
    cases step s with
    | error fault => rfl
    | ok t => exact ih t

/-- A run of a machine that simulates another one. -/
theorem run_map {τ : Type*} {step' : τ → Except ε τ} (f : σ → τ)
    (simulates : ∀ s s', step s = .ok s' → step' (f s) = .ok (f s')) {n : ℕ} {s s' : σ}
    (ran : run step n s = .ok s') : run step' n (f s) = .ok (f s') := by
  induction n generalizing s with
  | zero =>
    cases ran
    rfl
  | succ n ih =>
    cases taken : step s with
    | error fault =>
      rw [run, taken] at ran
      cases ran
    | ok t =>
      rw [run_succ taken] at ran
      rw [run_succ (simulates s t taken)]
      exact ih ran

/-- A run stays where a step changes nothing. -/
theorem run_fixed {s : σ} (fixed : step s = .ok s) (n : ℕ) : run step n s = .ok s := by
  induction n with
  | zero => rfl
  | succ n ih => rw [run_succ fixed, ih]

/-- Two runs from one state that have come to rest have done so in one state. -/
theorem run_unique {s t t' : σ} {n n' : ℕ} (ran : run step n s = .ok t) (ran' : run step n' s = .ok t')
    (fixed : step t = .ok t) (fixed' : step t' = .ok t') : t = t' := by
  have longer : run step (n + n') s = .ok t := by
    rw [run_add, ran]
    exact run_fixed fixed n'
  have longer' : run step (n + n') s = .ok t' := by
    rw [Nat.add_comm, run_add, ran']
    exact run_fixed fixed' n
  exact Except.ok.inj (longer.symm.trans longer')

/-- The invariant holds along the run. -/
theorem run_inv (kept : ∀ s, Inv s → ∃ s', step s = .ok s' ∧ Inv s') (n : ℕ) :
    ∀ s, Inv s → ∃ s', run step n s = .ok s' ∧ Inv s' := by
  induction n with
  | zero => exact fun s inv => ⟨s, rfl, inv⟩
  | succ n ih =>
    intro s inv
    obtain ⟨s', taken, inv'⟩ := kept s inv
    rw [run_succ taken]
    exact ih s' inv'

/-- What every step that can be taken keeps, the run keeps. -/
theorem run_keeps (kept : ∀ s s', step s = .ok s' → Inv s → Inv s') (n : ℕ) {s s' : σ} (inv : Inv s)
    (ran : run step n s = .ok s') : Inv s' := by
  induction n generalizing s with
  | zero =>
    cases ran
    exact inv
  | succ n ih =>
    cases taken : step s with
    | error fault =>
      rw [run, taken] at ran
      cases ran
    | ok t =>
      rw [run_succ taken] at ran
      exact ih (kept s t taken inv) ran

/-- A run whose measure falls reaches a final state. -/
theorem exists_final (Inv final : σ → Prop) [Preorder μ] [WellFoundedLT μ] (measure : σ → μ)
    (falls : ∀ s, Inv s → ¬ final s → ∃ s', step s = .ok s' ∧ Inv s' ∧ measure s' < measure s) :
    ∀ s, Inv s → ∃ n s', run step n s = .ok s' ∧ Inv s' ∧ final s' := by
  intro s
  induction s using (InvImage.wf measure (wellFounded_lt (α := μ))).induction with
  | _ s ih =>
    intro inv
    by_cases isFinal : final s
    · exact ⟨0, s, rfl, inv, isFinal⟩
    · obtain ⟨s', taken, inv', less⟩ := falls s inv isFinal
      obtain ⟨n, last, ran, rest⟩ := ih s' less inv'
      exact ⟨n + 1, last, (run_succ taken n).trans ran, rest⟩

end DeterministicRun
