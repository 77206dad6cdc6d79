import OsLabs.Soundness.Pthreads.Waiter
import OsLabs.ToMathlib.MonitorRuns

/-! # The waiter solution gets through its joins

Once `Stop` is set every philosopher goes around once more at most, and whoever waits for a chopstick is
signalled by the neighbour that has it. So the joins of `main` come to an end, and they do after a number
of steps that depends on the number of philosophers only, as long as waits end by signals.
-/

namespace OsLabs.Pthreads.Waiter

open Monitor FiniteRuns

variable {n : ℕ} {t t' : System n} {id : Fin n}

/-- How often a philosopher still leaves the mutex once `Stop` is set. -/
def leavesLeft : Point → ℕ
  | .hungry => 3
  | .eating => 2
  | .loop => 1
  | .finished => 0

def potential (_ : Shared n) (points : Fin n → Point) : ℕ := ∑ id, leavesLeft (points id)

theorem stop_of_codeStep (stopped : t.shared.stop = true) (step : CodeStep (program n) t t') :
    t'.shared.stop = true := by
  cases step with
  | wait => exact stopped
  | @leave id point point' shared ns place ready leaves =>
    cases point with
    | finished => cases leaves
    | loop =>
      cases leaves
      exact stopped
    | hungry =>
      obtain ⟨rfl, rfl, _⟩ := take_leave leaves
      exact stopped
    | eating =>
      cases leaves
      exact stopped

theorem leavesLeft_lt {id : Fin n} {point point' : Point} {s s' : Shared n} {ns : List (Notification (Fin n))}
    (stopped : s.stop = true) (leaves : (program n).run id point s = .leave s' point' ns) :
    leavesLeft point' < leavesLeft point := by
  cases point with
  | finished => cases leaves
  | loop =>
    have next := (Outcome.leave.inj leaves).2.1
    rw [if_pos stopped] at next
    rw [← next]
    exact Nat.zero_lt_one
  | hungry =>
    obtain ⟨rfl, _, _⟩ := take_leave leaves
    exact Nat.lt_succ_self 2
  | eating =>
    have next := (Outcome.leave.inj leaves).2.1
    rw [← next]
    exact Nat.lt_succ_self 1

/-- The states after `Stop`. -/
structure Stopped (t : System n) : Prop where
  reached : Reachable (program n) (setTable n) t
  stop : t.shared.stop = true

theorem stepsLeft_falls : Falls (CodeStep (program n)) Stopped (stepsLeft potential) := by
  apply falls_of_potential potential
  · exact fun t t' stopped step => ⟨stopped.reached.tail step.step, stop_of_codeStep stopped.stop step⟩
  · intro t id point shared point' ns stopped ready leaves
    apply sum_update_lt
    have here : t.points id = point := Place.point_of_ready ready
    rw [here]
    exact leavesLeft_lt stopped.stop leaves

/-- When nobody can move, nobody is asleep: it would miss a chopstick that somebody eats with. -/
theorem finished_of_final (reached : Reachable (program n) (setTable n) t) (final : Final (CodeStep (program n)) t)
    (id : Fin n) : t.place id = .code .finished := by
  have ends (id : Fin n) (point : Point) (s s' : Shared n) (ended : (program n).run id point s = .ended) :
      (program n).run id point s' = .ended := by
    cases point with
    | finished => rfl
    | hungry =>
      change take id s = .ended at ended
      rw [take] at ended
      split at ended <;> cases ended
    | loop | eating => cases ended
  have endedOrAsleep := ended_or_asleep_of_final reached (fun _ => rfl) ends final
  rcases endedOrAsleep id with ⟨point, here, ended⟩ | ⟨point, cond, sleeps⟩
  · cases point with
    | finished => exact here
    | hungry =>
      change take id t.shared = .ended at ended
      rw [take] at ended
      split at ended <;> cases ended
    | loop | eating => cases ended
  · obtain ⟨c, _, missing⟩ := asleep_misses reached sleeps
    obtain ⟨other, _, eats⟩ := ((reachable_seated reached).unavailable c).mp missing
    rcases endedOrAsleep other with ⟨_, here, ended⟩ | ⟨_, _, sleeps'⟩
    · obtain rfl := Place.code.inj (here.symm.trans eats)
      cases ended
    · cases eats.symm.trans sleeps'

/-- From any state after `Stop` every run of the philosophers ends, and it ends with all of them finished. -/
theorem waiter_completes (reached : Reachable (program n) (setTable n) t) (stopped : t.shared.stop = true) :
    Completes (CodeStep (program n)) (n * 3 * (n + 1) + n) (fun t => ∀ id, t.place id = .code .finished) t := by
  have small : potential t.shared t.points ≤ n * 3 := by
    have most := Finset.sum_le_card_nsmul Finset.univ (fun id => leavesLeft (t.points id)) 3 fun id _ => by
      cases t.points id <;> decide
    rwa [Nat.nsmul_eq_mul, Finset.card_univ, Fintype.card_fin] at most
  have bound := stepsLeft_le small
  rw [Fintype.card_fin] at bound
  exact stepsLeft_falls.completes ⟨reached, stopped⟩ bound fun _ after final => finished_of_final after.reached final

/-- `main` stops a table of five where philosopher 0 eats and philosopher 1 sleeps until it is signalled. -/
theorem waiter_completes_five :
    let hungry : System 5 := ⟨(setTable 5).shared, Function.update (setTable 5).place 0 (.code .hungry)⟩
    let both : System 5 := ⟨hungry.shared, Function.update hungry.place 1 (.code .hungry)⟩
    let eats : System 5 := ⟨both.shared.setChopsticks 0 false, Function.update both.place 0 (.code .eating)⟩
    let sleeps : System 5 := ⟨eats.shared, Function.update eats.place 1 (.asleep .hungry 1)⟩
    let stopped : System 5 := ⟨{ sleeps.shared with stop := true }, sleeps.place⟩
    Completes (CodeStep (program 5)) 95 (fun t => ∀ id, t.place id = .code .finished) stopped := by
  intro hungry both eats sleeps stopped
  have first : Step (program 5) (setTable 5) hungry := .leave (i := 0) rfl rfl rfl
  have second : Step (program 5) hungry both := .leave (i := 1) rfl rfl rfl
  have third : Step (program 5) both eats := .leave (i := 0) rfl rfl rfl
  have fourth : Step (program 5) eats sleeps := .wait (i := 1) rfl rfl
  have reached : Reachable (program 5) (setTable 5) sleeps :=
    (((Relation.ReflTransGen.single first).tail second).tail third).tail fourth
  exact waiter_completes (reached.tail (.environment rfl)) rfl

end OsLabs.Pthreads.Waiter
