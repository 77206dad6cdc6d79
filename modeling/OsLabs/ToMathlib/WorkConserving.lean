import Mathlib.Algebra.BigOperators.Ring.Finset
import Mathlib.Algebra.Order.BigOperators.Group.Finset
import Mathlib.Combinatorics.Enumerative.DoubleCounting

/-! # Work-conserving schedules

Jobs run in time units on `m` machines. If no machine is idle while a job waits, the job waits only for
work that is done, so the time to its completion is bounded by the work of all jobs.
-/

namespace WorkConserving

variable {ι τ : Type*} [DecidableEq τ] {jobs : Finset ι} {units : ι → Finset τ} {window : Finset τ} {m : ℕ} {job : ι}

/-- The jobs that run in a time unit. -/
def running (jobs : Finset ι) (units : ι → Finset τ) (t : τ) : Finset ι := jobs.filter fun k => t ∈ units k

/-- While the job does not run, `m` jobs do. -/
def Busy (jobs : Finset ι) (units : ι → Finset τ) (m : ℕ) (window : Finset τ) (job : ι) : Prop :=
  ∀ t ∈ window, t ∉ units job → m ≤ (running jobs units t).card

theorem sum_running_le (jobs : Finset ι) (units : ι → Finset τ) (window : Finset τ) :
    ∑ t ∈ window, (running jobs units t).card ≤ ∑ k ∈ jobs, (units k).card := by
  have both := Finset.sum_card_bipartiteAbove_eq_sum_card_bipartiteBelow (s := window) (t := jobs) fun t k => t ∈ units k
  refine both.trans_le (Finset.sum_le_sum fun k _ => Finset.card_le_card fun t member => ?_)
  exact (Finset.mem_filter.mp member).2

theorem sum_own_le (units : Finset τ) (window : Finset τ) (n : ℕ) :
    ∑ t ∈ window, (if t ∈ units then n else 0) ≤ n * units.card := by
  rw [← Finset.sum_filter, Finset.sum_const_nat fun _ _ => rfl, Nat.mul_comm]
  exact Nat.mul_le_mul_left n (Finset.card_le_card fun t member => (Finset.mem_filter.mp member).2)

/-- In each unit of the window all machines work, or the job itself is on one of them. -/
theorem Busy.window_le (busy : Busy jobs units m window job) (member : job ∈ jobs) :
    m * window.card ≤ ∑ k ∈ jobs, (units k).card + (m - 1) * (units job).card := by
  have each (t : τ) (inside : t ∈ window) :
      m ≤ (running jobs units t).card + if t ∈ units job then m - 1 else 0 := by
    by_cases runs : t ∈ units job
    · have some : 0 < (running jobs units t).card := Finset.card_pos.mpr ⟨job, Finset.mem_filter.mpr ⟨member, runs⟩⟩
      rw [if_pos runs]
      omega
    · rw [if_neg runs]
      exact busy t inside runs
  calc
    m * window.card = ∑ _t ∈ window, m := by rw [Finset.sum_const_nat fun _ _ => rfl, Nat.mul_comm]
    _ ≤ ∑ t ∈ window, ((running jobs units t).card + if t ∈ units job then m - 1 else 0) := Finset.sum_le_sum each
    _ = ∑ t ∈ window, (running jobs units t).card + ∑ t ∈ window, (if t ∈ units job then m - 1 else 0) :=
      Finset.sum_add_distrib
    _ ≤ ∑ k ∈ jobs, (units k).card + (m - 1) * (units job).card :=
      Nat.add_le_add (sum_running_le jobs units window) (sum_own_le (units job) window (m - 1))

end WorkConserving
