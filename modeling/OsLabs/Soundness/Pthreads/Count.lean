import OsLabs.Proofs.Pthreads.Count

/-! # No addition is lost

Every run of `ptcount_mutex.c` comes to its end, all threads finished, and then `count` is what the
threads say they have counted. On the way it is a run of `ptcount_atomic.c`.
-/

namespace OsLabs.Pthreads.Count.Mutex

open FiniteRuns Relation

variable {n : ℕ} {args : ThreadArgs} {t t' : System n} {id : Fin n} {thread : Thread}

/-- The steps that a thread still takes. -/
def stepsLeft (args : ThreadArgs) (thread : Thread) : ℕ :=
  let rounds := (args.loop - thread.i).toNat
  match thread.point with
  | .test => 6 * rounds + 1
  | .lock => 6 * rounds
  | .load => 6 * rounds - 1
  | .store => 6 * rounds - 2
  | .unlock => 6 * rounds - 3
  | .addLoc => 6 * rounds - 4
  | .finished => 0

structure Inv (args : ThreadArgs) (t : System n) : Prop where
  excluded : Excluded t
  counted : Atomic.Counted args t.atomic

theorem Inv.step (inv : Inv args t) (step : Step args t t') : Inv args t' := by
  refine ⟨inv.excluded.step step, ?_⟩
  rcases atomic_step inv.excluded step with same | taken
  · rw [same]
    exact inv.counted
  · exact inv.counted.step taken

/-- A thread that adds to `count` has a round left. -/
theorem Inv.round_left (inv : Inv args t) (is : t.thread id = thread)
    (here : thread.point.atomic = .add ∨ thread.point.atomic = .addLoc) : thread.i < args.loop := by
  subst is
  exact (inv.counted.thread id).inside here

theorem stepsLeft_lt (inv : Inv args t) (step : Step args t t') :
    ∑ id, stepsLeft args (t'.thread id) < ∑ id, stepsLeft args (t.thread id) := by
  cases step with
  | @test id thread is here =>
    rcases Int.lt_or_le thread.i args.loop with more | done
    · rw [if_pos more]
      apply sum_update_lt
      rw [is, stepsLeft, stepsLeft, here]
      exact Nat.lt_succ_self _
    · rw [if_neg (Int.not_lt.mpr done)]
      apply sum_update_lt
      rw [is, stepsLeft, stepsLeft, here]
      exact Nat.zero_lt_succ _
  | @lock id thread is here =>
    have left := inv.round_left is (.inl (by rw [here]; rfl))
    apply sum_update_lt
    rw [is, stepsLeft, stepsLeft, here]
    dsimp only
    omega
  | @load id thread is here =>
    have left := inv.round_left is (.inl (by rw [here]; rfl))
    apply sum_update_lt
    rw [is, stepsLeft, stepsLeft, here]
    dsimp only
    omega
  | @store id thread is here =>
    have left := inv.round_left is (.inl (by rw [here]; rfl))
    apply sum_update_lt
    rw [is, stepsLeft, stepsLeft, here]
    dsimp only
    omega
  | @unlock id thread is here =>
    have left := inv.round_left is (.inr (by rw [here]; rfl))
    apply sum_update_lt
    rw [is, stepsLeft, stepsLeft, here]
    dsimp only
    omega
  | @addLoc id thread is here =>
    have left := inv.round_left is (.inr (by rw [here]; rfl))
    apply sum_update_lt
    rw [is, stepsLeft, stepsLeft, here]
    dsimp only
    omega

theorem stepsLeft_falls : Falls (Step args) (Inv args (n := n)) fun t => ∑ id, stepsLeft args (t.thread id) where
  keeps _ _ inv step := inv.step step
  lowers _ _ inv step := stepsLeft_lt inv step

/-- Who has the mutex can go on. -/
theorem not_critical_of_final (final : Final (Step args) t) : ¬ (t.thread id).point.Critical := by
  intro critical
  cases here : (t.thread id).point with
  | load => exact final _ (.load rfl here)
  | store => exact final _ (.store rfl here)
  | unlock => exact final _ (.unlock rfl here)
  | test | lock | addLoc | finished => exact (here ▸ critical : Point.Critical _)

theorem finished_of_final (inv : Inv args t) (final : Final (Step args) t) (id : Fin n) :
    (t.thread id).point = .finished := by
  have free : t.countMutex = false := by
    rw [← Bool.not_eq_true, inv.excluded.locked]
    rintro ⟨k, critical⟩
    exact not_critical_of_final final critical
  cases here : (t.thread id).point with
  | test => exact absurd (.test rfl here) (final _)
  | lock => exact absurd (.lock rfl here free) (final _)
  | addLoc => exact absurd (.addLoc rfl here) (final _)
  | finished => rfl
  | load | store | unlock =>
    have critical : ¬ (t.thread id).point.Critical := not_critical_of_final final
    rw [here] at critical
    exact absurd trivial critical

end OsLabs.Pthreads.Count.Mutex
