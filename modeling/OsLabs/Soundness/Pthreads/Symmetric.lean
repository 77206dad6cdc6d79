import OsLabs.Proofs.Pthreads.Symmetric

/-! # The deadlock of the symmetric table, and what the shutdown makes of it

The only deadlock is the ring in which everybody has the left chopstick and waits for the right one.
`main` then unlocks every chopstick, and whoever takes the right one of a neighbour eats, finds `Stop`
set and finishes. A shutdown can leave the philosophers in the ring only if none of them has a
chopstick when `Stop` is set and all have tested `Stop` before: then they may all take the left one
after `main` has unlocked it.
-/

namespace OsLabs.Pthreads.Symmetric

open Asymmetric (System Point Main leftChop_ne_rightChop)
open Relation FiniteRuns

variable {n : ℕ} {t t' : System n} {id : Fin n}

/-! ## The deadlock -/

/-- Before `Stop` all philosophers are blocked exactly when each stands before its second lock, and this
state of the table can be reached. -/
theorem deadlock_iff (many : 2 ≤ n) :
    (∀ t, Reachable n t → t.main = .serving → ((∀ id, Blocked t id) ↔ ∀ id, t.point id = .second)) ∧
      ∃ t, Reachable n t ∧ t.main = .serving ∧ ∀ id, Blocked t id := by
  refine ⟨fun t reached serving => ⟨fun blocked => ?_, fun ring id => ?_⟩, ?_⟩
  · have unfinished : t.point ⟨0, by omega⟩ ≠ .finished := by
      intro finished
      rcases blocked ⟨0, by omega⟩ with ⟨here, _⟩ | ⟨here, _⟩
      · cases here.symm.trans finished
      · cases here.symm.trans finished
    exact second_of_waits (reachable_kept reached).held (fun id => .inr (blocked id)) unfinished
  · have holds : HoldsAt leftChop (rightChop id) (rightChop id) (t.point (rightChop id)) := by
      rw [ring]
      rfl
    exact .inr ⟨ring id, (reachable_guarded many reached serving).taken _ holds⟩
  · exact ⟨_, takingLeft_reachable n, rfl, takingLeft_blocked false .serving⟩

theorem deadlock_iff_five :
    (∀ t, Reachable 5 t → t.main = .serving → ((∀ id, Blocked t id) ↔ ∀ id, t.point id = .second)) ∧
      ∃ t, Reachable 5 t ∧ t.main = .serving ∧ ∀ id, Blocked t id :=
  deadlock_iff (by decide)

/-! ## The shutdown -/

/-- `main` unlocks the chopstick of the philosopher while it stands before its second lock; or it is past
that lock. -/
def Freed (id : Fin n) (t : System n) : Prop :=
  t.point id = .eating ∨ t.point id = .putDown ∨ t.point id = .loop ∨ t.point id = .finished ∨
    (t.point id = .second ∧ ((∃ chop ≤ id.val, t.main = .unlocking chop) ∨ t.locked id = false ∨
      t.point (leftPhil id) = .eating))

/-- Another philosopher moves and does not lock the chopstick. -/
theorem Freed.elsewhere {other : Fin n} {point : Point} (freed : Freed id t) (ne : other ≠ id)
    (points : t'.point = Function.update t.point other point) (main : t'.main = t.main)
    (locked : t.locked id = false → t'.locked id = false ∨ t'.point (leftPhil id) = .eating)
    (eats : t.point (leftPhil id) = .eating → t'.locked id = false ∨ t'.point (leftPhil id) = .eating) :
    Freed id t' := by
  have here : t'.point id = t.point id := by rw [points, Function.update_of_ne ne.symm]
  rw [Freed, here, main]
  rcases freed with done | done | done | done | ⟨waits, unlocks | free | neighbour⟩
  · exact .inl done
  · exact .inr (.inl done)
  · exact .inr (.inr (.inl done))
  · exact .inr (.inr (.inr (.inl done)))
  · exact .inr (.inr (.inr (.inr ⟨waits, .inl unlocks⟩)))
  · exact .inr (.inr (.inr (.inr ⟨waits, .inr (locked free)⟩)))
  · exact .inr (.inr (.inr (.inr ⟨waits, .inr (eats neighbour)⟩)))

theorem eating_of_update {k other : Fin n} {point : Point} (eats : t.point k = .eating)
    (notEating : t.point other ≠ .eating) : Function.update t.point other point k = .eating := by
  have ne : k ≠ other := by
    rintro rfl
    exact notEating eats
  rw [Function.update_of_ne ne, eats]

/-- The philosopher itself gets to the next point. -/
theorem freed_of_point {point : Point} (points : t'.point = Function.update t.point id point)
    (past : point = .eating ∨ point = .putDown ∨ point = .loop ∨ point = .finished) : Freed id t' := by
  have here : t'.point id = point := by rw [points, Function.update_self]
  rw [Freed, here]
  rcases past with past | past | past | past
  · exact .inl past
  · exact .inr (.inl past)
  · exact .inr (.inr (.inl past))
  · exact .inr (.inr (.inr (.inl past)))

/-- Only `main` moves. -/
theorem Freed.main_moves (freed : Freed id t) (points : t'.point = t.point)
    (main : (∃ chop ≤ id.val, t.main = .unlocking chop) →
      (∃ chop ≤ id.val, t'.main = .unlocking chop) ∨ t'.locked id = false)
    (locked : t.locked id = false → t'.locked id = false) : Freed id t' := by
  rw [Freed, points]
  rcases freed with done | done | done | done | ⟨waits, unlocks | free | neighbour⟩
  · exact .inl done
  · exact .inr (.inl done)
  · exact .inr (.inr (.inl done))
  · exact .inr (.inr (.inr (.inl done)))
  · exact .inr (.inr (.inr (.inr ⟨waits, (main unlocks).imp_right .inl⟩)))
  · exact .inr (.inr (.inr (.inr ⟨waits, .inr (.inl (locked free))⟩)))
  · exact .inr (.inr (.inr (.inr ⟨waits, .inr (.inr neighbour)⟩)))

theorem Freed.not_first (freed : Freed id t) : t.point id ≠ .first := by
  intro here
  rw [Freed, here] at freed
  simp at freed

theorem Freed.step (stopped : t.stop = true) (freed : Freed id t) (step : Step t t') (kept : Kept leftChop t) :
    Freed id t' := by
  cases step with
  | @test other here =>
    cases eq_or_ne other id with
    | inl same =>
      subst same
      exact freed_of_point rfl (.inr (.inr (.inr (if_pos stopped))))
    | inr ne =>
      refine freed.elsewhere ne rfl rfl ?_ ?_
      · exact .inl
      · exact fun eats => .inr (eating_of_update eats (here ▸ Point.noConfusion))
  | @lockFirst other here free =>
    have ne : other ≠ id := by
      rintro rfl
      exact freed.not_first here
    refine freed.elsewhere ne rfl rfl ?_ ?_
    · exact fun free => .inl ((Function.update_of_ne ne.symm ..).trans free)
    · exact fun eats => .inr (eating_of_update eats (here ▸ Point.noConfusion))
  | @lockSecond other here free =>
    cases eq_or_ne other id with
    | inl same =>
      subst same
      exact freed_of_point rfl (.inl rfl)
    | inr ne =>
      have eating : (t.act other (rightChop other) true .eating).point other = .eating := Function.update_self ..
      refine freed.elsewhere ne rfl rfl ?_ ?_
      · intro free
        cases eq_or_ne other (leftPhil id) with
        | inl neighbour => exact .inr (neighbour ▸ eating)
        | inr far =>
          have apart : id ≠ rightChop other := fun same => far (rightChop_eq_iff.mp same.symm)
          exact .inl ((Function.update_of_ne apart ..).trans free)
      · exact fun eats => .inr (eating_of_update eats (here ▸ Point.noConfusion))
  | @unlockRight other here =>
    cases eq_or_ne other id with
    | inl same =>
      subst same
      exact freed_of_point rfl (.inr (.inl rfl))
    | inr ne =>
      have still (free : t.locked id = false) : Function.update t.locked (rightChop other) false id = false := by
        cases eq_or_ne id (rightChop other) with
        | inl same => rw [same, Function.update_self]
        | inr apart => exact (Function.update_of_ne apart ..).trans free
      refine freed.elsewhere ne rfl rfl ?_ ?_
      · exact fun free => .inl (still free)
      · intro eats
        cases eq_or_ne (leftPhil id) other with
        | inl neighbour =>
          have released : rightChop other = id := rightChop_eq_iff.mpr neighbour.symm
          refine .inl ?_
          change Function.update t.locked (rightChop other) false id = false
          rw [released, Function.update_self]
        | inr far => exact .inr ((Function.update_of_ne far ..).trans eats)
  | @unlockLeft other here =>
    cases eq_or_ne other id with
    | inl same =>
      subst same
      exact freed_of_point rfl (.inr (.inr (.inl rfl)))
    | inr ne =>
      refine freed.elsewhere ne rfl rfl ?_ ?_
      · exact fun free => .inl ((Function.update_of_ne ne.symm ..).trans free)
      · exact fun eats => .inr (eating_of_update eats (here ▸ Point.noConfusion))
  | setStop here => exact absurd (kept.serving.mpr here) (Bool.not_eq_false _ ▸ stopped)
  | @mainUnlock chop here =>
    refine freed.main_moves rfl ?_ ?_
    · rintro ⟨k, le, isMain⟩
      rw [here, Main.unlocking.injEq] at isMain
      subst isMain
      cases eq_or_ne chop id with
      | inl same => exact .inr (same ▸ Function.update_self ..)
      | inr ne =>
        have other : chop.val ≠ id.val := fun same => ne (Fin.ext same)
        exact .inl ⟨chop + 1, by omega, rfl⟩
    · intro free
      cases eq_or_ne id chop with
      | inl same => exact same ▸ Function.update_self ..
      | inr ne => exact (Function.update_of_ne ne ..).trans free
  | mainJoin here =>
    refine freed.main_moves rfl ?_ ?_
    · rintro ⟨k, le, isMain⟩
      rw [here, Main.unlocking.injEq] at isMain
      have small := id.isLt
      omega
    · exact fun free => free

/-- Nobody is left in the ring when a chopstick of one of them was freed. -/
theorem finished_of_freed (freed : Freed id t) (kept : Kept leftChop t) (final : Final Step t) (other : Fin n) :
    t.point other = .finished := by
  by_contra unfinished
  have waits := waits_of_final final
  have ring := second_of_waits kept.held waits unfinished
  have joining := joining_of_final kept final
  have isLocked : t.locked id = true := by
    rcases waits (leftPhil id) with there | ⟨there, _⟩ | ⟨_, isLocked⟩
    · cases (ring _).symm.trans there
    · cases (ring _).symm.trans there
    · rwa [show rightChop (leftPhil id) = id from rightPhil_leftPhil id] at isLocked
  rw [Freed, ring, ring, joining, isLocked] at freed
  simp at freed

/-- Where nobody has taken a chopstick yet, all may take the left one behind the back of `main`. -/
theorem hangs_of_first (hungry : ∀ id, t.point id = .first) :
    ∃ t', ReflTransGen Step (setStop t) t' ∧ Final Step t' ∧ ∀ id, t'.point id = .second := by
  have begun : setStop t = unlocking t 0 := by
    have points : t.point = fun _ => .first := funext hungry
    rw [setStop, unlocking, points]
    congr 1
  have unlocked : ReflTransGen Step (unlocking t 0) (unlocking t n) := reaches_of_steps (unlocking_step t)
  have joins : Step (unlocking t n) (takingLeft n true .joining 0) := by
    have step : Step (unlocking t n) _ := .mainJoin rfl
    convert step using 1
    rw [takingLeft, unlocking]
    congr 1
    funext c
    exact (if_pos c.isLt).symm
  refine ⟨takingLeft n true .joining n, ?_, ?_, fun id => if_pos id.isLt⟩
  · rw [begun]
    exact (unlocked.tail joins).trans (takingLeft_reaches true .joining)
  · intro t' step
    have ring (id : Fin n) : (takingLeft n true .joining n).point id = .second := if_pos id.isLt
    cases step with
    | @test id here => cases (ring id).symm.trans here
    | @lockFirst id here => cases (ring id).symm.trans here
    | @lockSecond id here free =>
      have isLocked : (takingLeft n true .joining n).locked (rightChop id) = true := decide_eq_true (rightChop id).isLt
      cases isLocked.symm.trans free
    | @unlockRight id here => cases (ring id).symm.trans here
    | @unlockLeft id here => cases (ring id).symm.trans here
    | setStop here => cases here
    | mainUnlock here => cases here
    | mainJoin here => cases here

/-- When `main` sets `Stop`, every run ends with all philosophers finished if and only if one of them is
not between its test of `Stop` and its first lock. In particular the shutdown gets everybody out of a
deadlock. -/
theorem shutdown_completes_iff (many : 2 ≤ n) (reached : Reachable n t) (serving : t.main = .serving) :
    Completes Step (6 * n + 1) Finished (setStop t) ↔ ∃ id, t.point id ≠ .first := by
  have kept := reachable_kept (reached.tail (.setStop serving))
  constructor
  · intro completes
    by_contra hungry
    obtain ⟨t', reaches, final, ring⟩ := hangs_of_first fun id => by_contra fun other => hungry ⟨id, other⟩
    have finished := (completes.reached t' reaches final).2 ⟨0, by omega⟩
    rw [ring] at finished
    cases finished
  · rintro ⟨id, notFirst⟩
    have freed : Freed id (setStop t) := by
      cases here : t.point id with
      | first => exact absurd here notFirst
      | second => exact .inr (.inr (.inr (.inr ⟨here, .inl ⟨0, Nat.zero_le _, rfl⟩⟩)))
      | eating => exact .inl here
      | putDown => exact .inr (.inl here)
      | loop => exact .inr (.inr (.inl here))
      | finished => exact .inr (.inr (.inr (.inl here)))
    have falls : Falls Step (fun t => (t.stop = true ∧ Kept leftChop t) ∧ Freed id t) work := by
      have falls := work_falls (isOrder_symmetric (n := n))
      refine ⟨fun t t' inv step => ?_, fun t t' inv step => falls.lowers t t' inv.1 step⟩
      exact ⟨falls.keeps t t' inv.1 step, inv.2.step inv.1.1 step inv.1.2⟩
    apply falls.completes ⟨⟨rfl, kept⟩, freed⟩ (work_le rfl kept)
    intro t' inv final
    exact ⟨joining_of_final inv.1.2 final, finished_of_freed inv.2 inv.1.2 final⟩

/-- `main` stops a table of five in its deadlock. -/
theorem shutdown_completes_iff_ring : ∃ t : System 5, Reachable 5 t ∧ (∀ id, Blocked t id) ∧
    (Completes Step 31 Finished (setStop t) ↔ ∃ id, t.point id ≠ .first) :=
  ⟨_, takingLeft_reachable 5, takingLeft_blocked false .serving,
    shutdown_completes_iff (by decide) (takingLeft_reachable 5) rfl⟩

end OsLabs.Pthreads.Symmetric
