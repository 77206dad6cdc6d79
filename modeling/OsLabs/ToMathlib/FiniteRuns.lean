import Mathlib.Algebra.BigOperators.Group.Finset.Basic
import Mathlib.Data.Fintype.Basic
import Mathlib.Logic.Relation

/-! # Runs that come to an end

A relation between states whose steps lower a measure wherever an invariant holds. No run is longer than
the measure of the state it starts from, so every run can be continued to a state without a step, and
what holds of these states is what the runs end with. The measure of a family of threads is a sum.
-/

namespace FiniteRuns

open Relation

variable {σ : Type*} {step : σ → σ → Prop} {Inv goal : σ → Prop} {measure : σ → ℕ} {s t u : σ} {k bound : ℕ}

/-- A run of so many steps. -/
inductive Steps (step : σ → σ → Prop) : ℕ → σ → σ → Prop
  | none (s : σ) : Steps step 0 s s
  | more {k : ℕ} {s t u : σ} (first : step s t) (rest : Steps step k t u) : Steps step (k + 1) s u

/-- No step can be taken. -/
def Final (step : σ → σ → Prop) (s : σ) : Prop := ∀ t, ¬ step s t

/-- The steps keep the invariant and lower the measure. -/
structure Falls (step : σ → σ → Prop) (Inv : σ → Prop) (measure : σ → ℕ) : Prop where
  keeps : ∀ s t, Inv s → step s t → Inv t
  lowers : ∀ s t, Inv s → step s t → measure t < measure s

/-- No run from the state has more steps than the bound, and a run that cannot be continued has reached
the goal. -/
structure Completes (step : σ → σ → Prop) (bound : ℕ) (goal : σ → Prop) (s : σ) : Prop where
  length_le : ∀ k t, Steps step k s t → k ≤ bound
  reached : ∀ t, ReflTransGen step s t → Final step t → goal t

theorem inv_of_reaches (keeps : ∀ s t, Inv s → step s t → Inv t) (inv : Inv s) (reaches : ReflTransGen step s t) :
    Inv t := by
  induction reaches with
  | refl => exact inv
  | tail _ taken ih => exact keeps _ _ ih taken

theorem Falls.length_add_le (falls : Falls step Inv measure) (inv : Inv s) (run : Steps step k s t) :
    k + measure t ≤ measure s := by
  induction run with
  | none => exact Nat.le_of_eq (Nat.zero_add _)
  | @more k s between t first rest ih =>
    have less := falls.lowers s between inv first
    have behind := ih (falls.keeps s between inv first)
    omega

/-- A run can be continued until no step can be taken. -/
theorem Falls.exists_final (falls : Falls step Inv measure) (inv : Inv s) :
    ∃ t, ReflTransGen step s t ∧ Final step t := by
  induction bound : measure s using Nat.strong_induction_on generalizing s with
  | _ _ ih =>
    by_cases final : Final step s
    · exact ⟨s, .refl, final⟩
    · obtain ⟨between, first⟩ := not_forall_not.mp final
      have less := falls.lowers s between inv first
      obtain ⟨t, rest, isFinal⟩ := ih _ (bound ▸ less) (falls.keeps s between inv first) rfl
      exact ⟨t, .head first rest, isFinal⟩

/-- A bound for the measure and the goal of every final state of the invariant. -/
theorem Falls.completes (falls : Falls step Inv measure) (inv : Inv s) (small : measure s ≤ bound)
    (final : ∀ t, Inv t → Final step t → goal t) : Completes step bound goal s where
  length_le k t run := by
    have total := falls.length_add_le inv run
    omega
  reached t reaches isFinal := final t (inv_of_reaches falls.keeps inv reaches) isFinal

/-! ## Sums over threads -/

variable {ι α M : Type*} [Fintype ι] [DecidableEq ι]

/-- One thread moves. -/
theorem sum_update_add [AddCommMonoid M] (f : α → M) (threads : ι → α) (i : ι) (moved : α) :
    ∑ k, f (Function.update threads i moved k) + f (threads i) = ∑ k, f (threads k) + f moved := by
  have others : ∑ k ∈ Finset.univ.erase i, f (Function.update threads i moved k) =
      ∑ k ∈ Finset.univ.erase i, f (threads k) := by
    apply Finset.sum_congr rfl
    intro k member
    rw [Function.update_of_ne (Finset.ne_of_mem_erase member)]
  have before := Finset.add_sum_erase Finset.univ (fun k => f (threads k)) (Finset.mem_univ i)
  have after := Finset.add_sum_erase Finset.univ (fun k => f (Function.update threads i moved k)) (Finset.mem_univ i)
  rw [← before, ← after, others, Function.update_self]
  ac_rfl

theorem sum_update_lt {f : α → ℕ} {threads : ι → α} {i : ι} {moved : α} (less : f moved < f (threads i)) :
    ∑ k, f (Function.update threads i moved k) < ∑ k, f (threads k) := by
  have total := sum_update_add f threads i moved
  omega

end FiniteRuns
