import Mathlib.Algebra.Order.BigOperators.Group.Finset
import OsLabs.ToMathlib.FiniteRuns
import OsLabs.ToMathlib.Monitor

/-! # Runs of monitors that come to an end

A run of the threads alone, in which a thread wakes up only when it is notified, is finite when a
potential falls at every step that leaves the mutex: between two such steps every thread waits at most
once more.
-/

namespace Monitor

open FiniteRuns

variable {ι σ ρ κ : Type*} {program : Program ι σ ρ κ} {s s' s₀ : State ι σ ρ κ}

/-! ## Places -/

theorem Place.point_of_ready {place : Place ρ κ} {point : ρ} (ready : place.ready? = some point) :
    place.point = point := by
  cases place with
  | code | woken => exact Option.some.inj ready
  | asleep => cases ready

/-- A thread that is not asleep counts once. -/
def Place.awake : Place ρ κ → ℕ
  | .code _ | .woken _ => 1
  | .asleep _ _ => 0

theorem Place.awake_le (place : Place ρ κ) : place.awake ≤ 1 := by
  cases place with
  | code | woken => exact Nat.le_refl 1
  | asleep => exact Nat.zero_le 1

theorem Place.awake_of_ready {place : Place ρ κ} {point : ρ} (ready : place.ready? = some point) : place.awake = 1 := by
  cases place with
  | code | woken => rfl
  | asleep => cases ready

theorem sum_awake_le [Fintype ι] (place : ι → Place ρ κ) : ∑ i, (place i).awake ≤ Fintype.card ι := by
  have most := Finset.sum_le_card_nsmul Finset.univ (fun i => (place i).awake) 1 fun i _ => (place i).awake_le
  rwa [Nat.nsmul_eq_mul, Nat.mul_one, Finset.card_univ] at most

/-- Where the threads stand, awake or not. -/
def State.points (s : State ι σ ρ κ) (i : ι) : ρ := (s.place i).point

theorem points_update [DecidableEq ι] {place : ι → Place ρ κ} {i : ι} {new : Place ρ κ}
    (others : ∀ k, (place k).point = s.points k) :
    (fun k => (Function.update place i new k).point) = Function.update s.points i new.point := by
  funext k
  cases eq_or_ne k i with
  | inl same => rw [same, Function.update_self, Function.update_self]
  | inr ne => rw [Function.update_of_ne ne, Function.update_of_ne ne, others]

/-- How many steps are left: every step that leaves the mutex may wake all threads. -/
def stepsLeft [Fintype ι] (potential : σ → (ι → ρ) → ℕ) (s : State ι σ ρ κ) : ℕ :=
  potential s.shared s.points * (Fintype.card ι + 1) + ∑ i, (s.place i).awake

theorem stepsLeft_le [Fintype ι] {potential : σ → (ι → ρ) → ℕ} {bound : ℕ} (small : potential s.shared s.points ≤ bound) :
    stepsLeft potential s ≤ bound * (Fintype.card ι + 1) + Fintype.card ι :=
  Nat.add_le_add (Nat.mul_le_mul_right _ small) (sum_awake_le s.place)

/-! ## Steps of the threads -/

variable [DecidableEq ι] [DecidableEq κ]

/-- A thread takes a step of its code. -/
inductive CodeStep (program : Program ι σ ρ κ) : State ι σ ρ κ → State ι σ ρ κ → Prop
  | wait {s : State ι σ ρ κ} {i : ι} {point : ρ} {cond : κ} (ready : (s.place i).ready? = some point)
      (waits : program.run i point s.shared = .wait cond) :
      CodeStep program s ⟨s.shared, Function.update s.place i (.asleep point cond)⟩
  | leave {s : State ι σ ρ κ} {i : ι} {point point' : ρ} {shared : σ} {ns : List (Notification κ)}
      {place : ι → Place ρ κ} (ready : (s.place i).ready? = some point)
      (leaves : program.run i point s.shared = .leave shared point' ns) (wakes : WakesAll ns s.place place) :
      CodeStep program s ⟨shared, Function.update place i (.code point')⟩

theorem CodeStep.step (step : CodeStep program s s') : Step program s s' := by
  cases step with
  | wait ready waits => exact .wait ready waits
  | leave ready leaves wakes => exact .leave ready leaves wakes

theorem State.CanStep.exists_codeStep {i : ι} (can : s.CanStep program i) : ∃ s', CodeStep program s s' := by
  obtain ⟨point, ready, notEnded⟩ := can
  cases ran : program.run i point s.shared with
  | ended => exact absurd ran notEnded
  | wait cond => exact ⟨_, .wait ready ran⟩
  | leave shared point' ns =>
    obtain ⟨place, wakes⟩ := exists_wakesAll ns s.place
    exact ⟨_, .leave ready ran wakes⟩

/-- When no thread can take a step, each is at its end or asleep. -/
theorem ended_or_asleep_of_final (reached : Reachable program s₀ s) (start : ∀ i, (s₀.place i).inWait = false)
    (ends : ∀ i point shared shared', program.run i point shared = .ended → program.run i point shared' = .ended)
    (final : Final (CodeStep program) s) (i : ι) :
    s.Ended program i ∨ ∃ point cond, s.place i = .asleep point cond := by
  rcases reached.ended_or_canStep start ends i with ended | can | sleeps
  · exact .inl ended
  · obtain ⟨s', step⟩ := can.exists_codeStep
    exact absurd step (final s')
  · exact .inr sleeps

/-! ## Potentials -/

theorem WakesAll.point {ns : List (Notification κ)} {place place' : ι → Place ρ κ}
    (wakes : WakesAll ns place place') (i : ι) : (place' i).point = (place i).point := by
  rcases wakes.place i with same | ⟨_, _, sleeps, woken⟩
  · rw [same]
  · rw [sleeps, woken]
    rfl

/-- A potential that falls at every step that leaves the mutex. -/
theorem falls_of_potential [Fintype ι] {Inv : State ι σ ρ κ → Prop} (potential : σ → (ι → ρ) → ℕ)
    (keeps : ∀ s s', Inv s → CodeStep program s s' → Inv s')
    (lowers : ∀ s i point shared point' ns, Inv s → (s.place i).ready? = some point →
      program.run i point s.shared = .leave shared point' ns →
        potential shared (Function.update s.points i point') < potential s.shared s.points) :
    Falls (CodeStep program) Inv (stepsLeft potential) where
  keeps := keeps
  lowers s s' inv step := by
    cases step with
    | @wait i point cond ready waits =>
      have points : State.points ⟨s.shared, Function.update s.place i (.asleep point cond)⟩ = s.points := by
        have moved : State.points ⟨s.shared, Function.update s.place i (.asleep point cond)⟩ =
            Function.update s.points i (Place.asleep point cond : Place ρ κ).point := points_update fun _ => rfl
        have same : (Place.asleep point cond : Place ρ κ).point = s.points i := (Place.point_of_ready ready).symm
        rwa [same, Function.update_eq_self] at moved
      rw [stepsLeft, stepsLeft, points]
      apply Nat.add_lt_add_left
      apply sum_update_lt
      rw [Place.awake_of_ready ready]
      exact Nat.zero_lt_one
    | @leave i point point' shared ns place ready leaves wakes =>
      have points : State.points ⟨shared, Function.update place i (.code point')⟩ =
          Function.update s.points i point' := points_update fun k => wakes.point k
      have less := lowers s i point shared point' ns inv ready leaves
      have others := sum_awake_le (Function.update place i (.code point'))
      rw [stepsLeft, stepsLeft, points]
      have product := Nat.mul_le_mul_right (Fintype.card ι + 1) (Nat.succ_le_of_lt less)
      rw [Nat.succ_mul] at product
      dsimp only
      omega

end Monitor
