import Mathlib.Data.Fintype.Sum
import OsLabs.Soundness.Pthreads.InitialCounters
import OsLabs.ToMathlib.MonitorRuns

/-! # The threads come to their ends

Every item that is produced or consumed brings a counter nearer to its maximum, and a thread that waits
is woken at most once for each of them. So every run in which threads wake up only when they are notified
is finite. Whether it ends with the threads at their ends or asleep is decided by the counters that
`main` hands to them.
-/

namespace OsLabs.Pthreads

open Monitor FiniteRuns

variable {pros cons : ℕ} {buf : ℕ → ℤ} {procount concount : ℤ} {s : Shared} {t : System pros cons}

/-- The threads, numbered by their kinds. -/
def Thread.kinds (pros cons : ℕ) : Fin pros ⊕ Fin cons ≃ Thread pros cons where
  toFun
    | .inl tid => .producer tid
    | .inr tid => .consumer tid
  invFun
    | .producer tid => .inl tid
    | .consumer tid => .inr tid
  left_inv kind := by cases kind <;> rfl
  right_inv thread := by cases thread <;> rfl

instance : Fintype (Thread pros cons) := Fintype.ofEquiv _ (Thread.kinds pros cons)

theorem card_thread : Fintype.card (Thread pros cons) = pros + cons := by
  rw [Fintype.ofEquiv_card, Fintype.card_sum, Fintype.card_fin, Fintype.card_fin]

def exitsLeft : Point → ℕ
  | .working => 1
  | .exited => 0

/-- The items to produce and to consume, and the threads to exit. -/
def potential (s : Shared) (points : Thread pros cons → Point) : ℕ :=
  left s.totalProduced + left s.totalConsumed + ∑ i, exitsLeft (points i)

/-- A thread that leaves the mutex has exited or changed a counter. -/
theorem potential_lt {points : Thread pros cons → Point} {i : Thread pros cons} {s' : Shared} {point' : Point}
    {ns : List (Notification Cond)} (leaves : (program pros cons).run i (points i) s = .leave s' point' ns) :
    potential s' (Function.update points i point') < potential s points := by
  have working : points i = .working := by
    cases here : points i with
    | working => rfl
    | exited =>
      rw [here] at leaves
      cases i <;> cases leaves
  rw [working] at leaves
  have counted : (point' = .exited ∧ s' = s) ∨
      (point' = .working ∧ left s'.totalProduced + left s'.totalConsumed < left s.totalProduced + left s.totalConsumed) := by
    cases i with
    | producer =>
      rcases producer_leave leaves with ⟨exits, same, _⟩ | ⟨stays, rfl, _, _, below⟩
      · exact .inl ⟨exits, same⟩
      · refine .inr ⟨stays, ?_⟩
        change left (s.totalProduced + 1) + left s.totalConsumed < _
        rw [left, left, left]
        omega
    | consumer =>
      rcases consumer_leave leaves with ⟨exits, same, _⟩ | ⟨stays, rfl, _, _, below⟩
      · exact .inl ⟨exits, same⟩
      · refine .inr ⟨stays, ?_⟩
        change left s.totalProduced + left (s.totalConsumed + 1) < _
        rw [left, left, left]
        omega
  rcases counted with ⟨rfl, rfl⟩ | ⟨rfl, less⟩
  · apply Nat.add_lt_add_left
    apply sum_update_lt
    rw [working]
    exact Nat.zero_lt_one
  · rw [← working, Function.update_eq_self]
    exact Nat.add_lt_add_right less _

theorem stepsLeft_falls : Falls (CodeStep (program pros cons))
    (Reachable (program pros cons) (initial pros cons buf procount concount)) (stepsLeft potential) := by
  apply falls_of_potential potential
  · exact fun t t' reached step => reached.tail step.step
  · intro t i point s' point' ns _ ready leaves
    have here : t.points i = point := Place.point_of_ready ready
    rw [← here] at leaves
    exact potential_lt leaves

/-- When no thread can move, a thread that sleeps has counters that cannot be reached from the ones given. -/
theorem exited_of_final (somePros : 0 < pros) (someCons : 0 < cons) (can : CanEnd procount concount)
    (reached : Reachable (program pros cons) (initial pros cons buf procount concount) t)
    (final : Final (CodeStep (program pros cons)) t) (i : Thread pros cons) : t.place i = .code .exited := by
  have ends : ∀ i point shared shared', (program pros cons).run i point shared = .ended →
      (program pros cons).run i point shared' = .ended := fun _ _ _ _ ended => run_ended_iff.mpr (run_ended_iff.mp ended)
  have exitedOrAsleep (i : Thread pros cons) :
      t.place i = .code .exited ∨ ∃ point cond, t.place i = .asleep point cond :=
    (ended_or_asleep_of_final reached (fun _ => rfl) ends final i).imp_left ended_iff.mp
  have fifo := reachable_fifo reached
  have counted := reachable_counted reached
  have lengths := fifo.removed_le
  have produced := counted.produced
  have consumed := counted.consumed
  have producedLe := counted.produced_le
  have consumedLe := counted.consumed_le
  have positive := queueSize_pos
  obtain ⟨enough, fits, seen⟩ := can
  rw [left, left] at enough fits
  rw [left] at seen
  rcases exitedOrAsleep i with exited | ⟨_, _, sleeps⟩
  · exact exited
  · cases i with
    | producer =>
      obtain ⟨full, unfinished⟩ := producer_asleep reached sleeps
      have whole := fifo.full.mp full
      rcases exitedOrAsleep (.consumer ⟨0, someCons⟩) with exited | ⟨_, _, sleeps'⟩
      · have done : workMax ≤ t.shared.totalConsumed := reachable_exited reached exited
        have some : t.shared.added ≠ [] := by
          rw [← List.length_pos_iff]
          omega
        have below := producedLe some
        by_cases none : t.shared.removed = []
        · rw [none, List.length_nil] at lengths consumed
          omega
        · have most := consumedLe none
          omega
      · have empty := fifo.empty.mp (consumer_asleep reached sleeps').1
        omega
    | consumer =>
      obtain ⟨empty, unfinished⟩ := consumer_asleep reached sleeps
      have none := fifo.empty.mp empty
      rcases exitedOrAsleep (.producer ⟨0, somePros⟩) with exited | ⟨_, _, sleeps'⟩
      · have done : workMax ≤ t.shared.totalProduced := reachable_exited reached exited
        by_cases nothing : t.shared.added = []
        · rw [nothing, List.length_nil] at lengths produced
          omega
        · have most := producedLe nothing
          have some : t.shared.removed ≠ [] := by
            rw [← List.length_pos_iff]
            have items := List.length_pos_iff.mpr nothing
            omega
          have below := consumedLe some
          omega
      · have full := fifo.full.mp (producer_asleep reached sleeps').1
        omega

/-- What is left at the start. -/
theorem stepsLeft_initial_le (pros cons : ℕ) (buf : ℕ → ℤ) (procount concount : ℤ) :
    stepsLeft potential (initial pros cons buf procount concount) ≤
      (left procount + left concount + (pros + cons)) * (pros + cons + 1) + (pros + cons) := by
  have each (i : Thread pros cons) : exitsLeft ((initial pros cons buf procount concount).points i) = 1 := rfl
  have working : ∑ i, exitsLeft ((initial pros cons buf procount concount).points i) = pros + cons := by
    rw [Finset.sum_congr rfl fun i _ => each i, Finset.sum_const, Finset.card_univ, card_thread]
    exact Nat.mul_one _
  have small : potential (initial pros cons buf procount concount).shared
      (initial pros cons buf procount concount).points ≤ left procount + left concount + (pros + cons) := by
    rw [potential, working]
    rfl
  have bound := stepsLeft_le small
  rwa [card_thread] at bound

/-- Every run of the threads ends. If the counters that `main` hands to them allow it, every run that cannot
be continued has all threads at their ends, and otherwise no run has. -/
theorem exits_iff (somePros : 0 < pros) (someCons : 0 < cons) (buf : ℕ → ℤ) (procount concount : ℤ) :
    (∀ k t, Steps (CodeStep (program pros cons)) k (initial pros cons buf procount concount) t →
      k ≤ (left procount + left concount + (pros + cons)) * (pros + cons + 1) + (pros + cons)) ∧
    (Completes (CodeStep (program pros cons))
      ((left procount + left concount + (pros + cons)) * (pros + cons + 1) + (pros + cons))
      (fun t => ∀ i, t.place i = .code .exited) (initial pros cons buf procount concount) ↔
        CanEnd procount concount) ∧
    (¬ CanEnd procount concount → ∀ t, Relation.ReflTransGen (CodeStep (program pros cons))
      (initial pros cons buf procount concount) t → ¬ ∀ i, t.place i = .code .exited) := by
  have bound := stepsLeft_initial_le pros cons buf procount concount
  have start : Reachable (program pros cons) (initial pros cons buf procount concount) _ := .refl
  have allows (t : System pros cons) (reaches : Relation.ReflTransGen (CodeStep (program pros cons))
      (initial pros cons buf procount concount) t) (ended : ∀ i, t.place i = .code .exited) :
      CanEnd procount concount :=
    canEnd_of_ended somePros someCons (inv_of_reaches stepsLeft_falls.keeps start reaches) ended
  refine ⟨fun k t run => ?_, ⟨fun completes => ?_, fun can => ?_⟩, fun cannot t reaches ended => ?_⟩
  · have total := stepsLeft_falls.length_add_le start run
    omega
  · obtain ⟨t, reaches, final⟩ := stepsLeft_falls.exists_final start
    exact allows t reaches (completes.reached t reaches final)
  · exact stepsLeft_falls.completes start bound fun _ reached final =>
      exited_of_final somePros someCons can reached final
  · exact cannot (allows t reaches ended)

/-- One producer and one consumer, with a counter that says that everything was produced before the
queue has an item. -/
theorem exits_iff_stuck :
    (∀ k t, Steps (CodeStep (program 1 1)) k (initial 1 1 (fun _ => 7) 30 0) t → k ≤ 98) ∧
    (Completes (CodeStep (program 1 1)) 98 (fun t => ∀ i, t.place i = .code .exited)
      (initial 1 1 (fun _ => 7) 30 0) ↔ CanEnd 30 0) ∧
    (¬ CanEnd 30 0 → ∀ t, Relation.ReflTransGen (CodeStep (program 1 1)) (initial 1 1 (fun _ => 7) 30 0) t →
      ¬ ∀ i, t.place i = .code .exited) :=
  exits_iff (by decide) (by decide) (fun _ => 7) 30 0

end OsLabs.Pthreads
