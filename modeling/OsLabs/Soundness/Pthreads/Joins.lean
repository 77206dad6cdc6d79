import OsLabs.Proofs.Pthreads.Asymmetric
import OsLabs.Proofs.Pthreads.OrderedTable

/-! # The asymmetric program gets through its joins

`main` unlocks every chopstick "so philosophers can exit even if they are deadlocked", and then waits for
them. With the locks in the asymmetric order it never waits in vain, whatever it unlocked: a
philosopher that waits for its second chopstick has an even id, and the one before it does so too.
-/

namespace OsLabs.Pthreads.Asymmetric

open FiniteRuns Relation

variable {n : ℕ} {t t' : System n} {id other : Fin n}

theorem isOrder_asymmetric : IsOrder (firstChop (n := n)) secondChop := fun _ _ => uses_iff

/-- When all wait, only a philosopher with an even id waits for its second chopstick. -/
theorem even_of_waits (held : LockedHeld firstChop t) (waits : ∀ id, Waits firstChop secondChop t id)
    (here : t.point id = .second) : id.val % 2 = 0 := by
  by_contra odd
  have isLocked : t.locked (leftChop id) = true := by
    rcases waits id with there | ⟨there, _⟩ | ⟨_, isLocked⟩
    · cases here.symm.trans there
    · cases here.symm.trans there
    · rwa [secondChop, if_pos (by omega)] at isLocked
  obtain ⟨other, _, first⟩ := held.second_of_waits waits isLocked
  rw [firstChop] at first
  split at first
  · next even =>
    change other = id at first
    exact odd (first ▸ even)
  · next odd' =>
    rw [rightChop_eq_iff, leftChop, leftPhil] at first
    split at first
    · rw [first] at odd'
      exact odd' rfl
    · rw [first] at odd'
      change ¬ (id.val + 1) % 2 = 0 at odd'
      omega

/-- Then the one before it waits for its second chopstick too. -/
theorem second_before (held : LockedHeld firstChop t) (waits : ∀ id, Waits firstChop secondChop t id)
    (here : t.point id = .second) : t.point (before id) = .second := by
  have even := even_of_waits held waits here
  have isLocked : t.locked (rightChop id) = true := by
    rcases waits id with there | ⟨there, _⟩ | ⟨_, isLocked⟩
    · cases here.symm.trans there
    · cases here.symm.trans there
    · rwa [secondChop, if_neg (by omega)] at isLocked
  obtain ⟨other, there, first⟩ := held.second_of_waits waits isLocked
  rw [firstChop, if_pos (even_of_waits held waits there)] at first
  change other = before id at first
  rwa [← first]

theorem no_second (many : 2 ≤ n) (held : LockedHeld firstChop t)
    (waits : ∀ id, Waits firstChop secondChop t id) : t.point id ≠ .second := by
  intro here
  have even := even_of_waits held waits here
  have there := second_before held waits here
  have even' := even_of_waits held waits there
  have even'' := even_of_waits held waits (second_before held waits there)
  rw [before] at even'
  split at even'
  · next first =>
    change (n - 1) % 2 = 0 at even'
    have last : before id = ⟨n - 1, by omega⟩ := by rw [before, if_pos first]
    rw [last, before, if_neg (by change ¬ n - 1 = 0; omega)] at even''
    change (n - 1 - 1) % 2 = 0 at even''
    omega
  · change (id.val - 1) % 2 = 0 at even'
    omega

theorem finished_of_waits (many : 2 ≤ n) (held : LockedHeld firstChop t)
    (waits : ∀ id, Waits firstChop secondChop t id) (id : Fin n) : t.point id = .finished := by
  rcases waits id with here | ⟨_, isLocked⟩ | ⟨here, _⟩
  · exact here
  · obtain ⟨other, there, _⟩ := held.second_of_waits waits isLocked
    exact absurd there (no_second many held waits)
  · exact absurd here (no_second many held waits)

theorem reachable_kept (reached : Reachable n t) : Kept firstChop t :=
  kept_of_reaches isOrder_asymmetric kept_setTable (ReflTransGen.mono (fun _ _ => step_iff.mp) _ _ reached)

/-- From any state after `Stop` every run ends, after at most so many steps, and it ends with all
philosophers finished and `main` at its joins. -/
theorem shutdown_completes (many : 2 ≤ n) (reached : Reachable n t) (stopped : t.stop = true) :
    Completes Step (6 * n + 1) Finished t := by
  have same : Step (n := n) = OrderedStep firstChop secondChop := by
    funext t t'
    exact propext step_iff
  rw [same]
  have kept := reachable_kept reached
  apply (work_falls isOrder_asymmetric).completes ⟨stopped, kept⟩ (work_le stopped kept)
  intro t' inv final
  refine ⟨joining_of_final inv.2 final, ?_⟩
  exact finished_of_waits many inv.2.held (waits_of_final final)

/-- `main` unlocks a chopstick that philosopher 0 eats with and that philosopher 1 waits for. -/
theorem shutdown_completes_two : ∃ t : System 2, Reachable 2 t ∧ t.point 0 = .eating ∧ t.point 1 = .first ∧
    t.main = .unlocking 1 ∧ Completes Step 13 Finished t := by
  have hungry := (Relation.ReflTransGen.single (@Step.test 2 (setTable 2) 0 rfl)).tail (@Step.test 2 _ 1 rfl)
  have eats := (hungry.tail (@Step.lockFirst 2 _ 0 rfl rfl)).tail (@Step.lockSecond 2 _ 0 rfl rfl)
  have unlocked := (eats.tail (.setStop rfl)).tail (@Step.mainUnlock 2 _ 0 rfl)
  exact ⟨_, unlocked, rfl, rfl, rfl, shutdown_completes (Nat.le_refl 2) unlocked rfl⟩

end OsLabs.Pthreads.Asymmetric
