import Mathlib.Algebra.BigOperators.Fin
import Mathlib.Algebra.Order.BigOperators.Group.Finset
import OsLabs.Model.Pthreads.Symmetric
import OsLabs.ToMathlib.FiniteRuns

/-! # What every order of the locks keeps

A locked chopstick is held by a philosopher, also after `main` has unlocked chopsticks that are held:
nobody but a philosopher locks one. So when nobody can move, a chopstick that somebody waits for is the
first one of a philosopher that waits for its second. Once `Stop` is set every step brings a thread
nearer to its end.
-/

namespace OsLabs.Pthreads

open Asymmetric (System Point Main)
open FiniteRuns

variable {n : ℕ} {firstChop secondChop : Fin n → Fin n} {t t' : System n} {id other c : Fin n} {point : Point}

/-- The chopsticks that a philosopher holds at a point. -/
def HoldsAt (firstChop : Fin n → Fin n) (id c : Fin n) : Point → Prop
  | .loop | .first | .finished => False
  | .second => c = firstChop id
  | .eating => Uses id c
  | .putDown => c = leftChop id

/-- A locked chopstick is held by somebody. -/
def LockedHeld (firstChop : Fin n → Fin n) (t : System n) : Prop :=
  ∀ c, t.locked c = true → ∃ id, HoldsAt firstChop id c (t.point id)

/-- The two locks are those of the chopsticks that the philosopher uses. -/
def IsOrder (firstChop secondChop : Fin n → Fin n) : Prop :=
  ∀ id c, Uses id c ↔ c = firstChop id ∨ c = secondChop id

theorem isOrder_symmetric : IsOrder (leftChop (n := n)) rightChop := by
  intro id c
  rw [Uses, eq_comm, @eq_comm _ (rightChop id)]

/-- One philosopher moves. -/
theorem LockedHeld.move (held : LockedHeld firstChop t) (points : t'.point = Function.update t.point id point)
    (locked : ∀ c, t'.locked c = true → t.locked c = true ∨ HoldsAt firstChop id c point)
    (keeps : ∀ c, t'.locked c = true → HoldsAt firstChop id c (t.point id) → HoldsAt firstChop id c point) :
    LockedHeld firstChop t' := by
  intro c isLocked
  have mover (holds : HoldsAt firstChop id c point) : ∃ k, HoldsAt firstChop k c (t'.point k) := by
    refine ⟨id, ?_⟩
    rw [points, Function.update_self]
    exact holds
  rcases locked c isLocked with before | holds
  · obtain ⟨k, holds⟩ := held c before
    cases eq_or_ne k id with
    | inl same => exact mover (keeps c isLocked (same ▸ holds))
    | inr ne =>
      refine ⟨k, ?_⟩
      rw [points, Function.update_of_ne ne]
      exact holds
  · exact mover holds

/-- `main` takes no chopstick. -/
theorem LockedHeld.less (held : LockedHeld firstChop t) (points : t'.point = t.point)
    (locked : ∀ c, t'.locked c = true → t.locked c = true) : LockedHeld firstChop t' := by
  intro c isLocked
  rw [points]
  exact held c (locked c isLocked)

theorem locked_of_unlocked {chop : Fin n} (isLocked : Function.update t.locked chop false c = true) :
    c ≠ chop ∧ t.locked c = true := by
  cases eq_or_ne c chop with
  | inl same =>
    rw [same, Function.update_self] at isLocked
    cases isLocked
  | inr ne =>
    rw [Function.update_of_ne ne] at isLocked
    exact ⟨ne, isLocked⟩

theorem locked_of_locked {chop : Fin n} (isLocked : Function.update t.locked chop true c = true) :
    t.locked c = true ∨ c = chop := by
  cases eq_or_ne c chop with
  | inl same => exact .inr same
  | inr ne =>
    rw [Function.update_of_ne ne] at isLocked
    exact .inl isLocked

theorem LockedHeld.step (order : IsOrder firstChop secondChop) (held : LockedHeld firstChop t)
    (step : OrderedStep firstChop secondChop t t') : LockedHeld firstChop t' := by
  cases step with
  | test here =>
    apply held.move rfl
    · exact fun c isLocked => .inl isLocked
    · intro c _ holds
      rw [here] at holds
      exact holds.elim
  | lockFirst here =>
    apply held.move rfl
    · exact fun c isLocked => locked_of_locked isLocked
    · intro c _ holds
      rw [here] at holds
      exact holds.elim
  | @lockSecond id here =>
    apply held.move rfl
    · exact fun c isLocked => (locked_of_locked isLocked).imp_right fun same => (order id c).mpr (.inr same)
    · intro c _ holds
      rw [here] at holds
      exact (order id c).mpr (.inl holds)
  | unlockRight here =>
    apply held.move rfl
    · exact fun c isLocked => .inl (locked_of_unlocked isLocked).2
    · intro c isLocked holds
      rw [here] at holds
      exact (holds.resolve_right (locked_of_unlocked isLocked).1.symm).symm
  | unlockLeft here =>
    apply held.move rfl
    · exact fun c isLocked => .inl (locked_of_unlocked isLocked).2
    · intro c isLocked holds
      rw [here] at holds
      exact absurd holds (locked_of_unlocked isLocked).1
  | setStop => exact held.less rfl fun c isLocked => isLocked
  | mainUnlock => exact held.less rfl fun c isLocked => (locked_of_unlocked isLocked).2
  | mainJoin => exact held.less rfl fun c isLocked => isLocked

/-! ## Runs -/

/-- What holds in every state of a run. -/
structure Kept (firstChop : Fin n → Fin n) (t : System n) : Prop where
  held : LockedHeld firstChop t
  serving : t.stop = false ↔ t.main = .serving
  unlocking : ∀ chop, t.main = .unlocking chop → chop ≤ n

theorem kept_setTable : Kept firstChop (Asymmetric.setTable n) where
  held _ isLocked := absurd isLocked Bool.false_ne_true
  serving := iff_of_true rfl rfl
  unlocking _ isMain := Main.noConfusion isMain

theorem Kept.step (order : IsOrder firstChop secondChop) (kept : Kept firstChop t)
    (step : OrderedStep firstChop secondChop t t') : Kept firstChop t' := by
  have held := kept.held.step order step
  cases step with
  | setStop =>
    refine ⟨held, iff_of_false Bool.true_eq_false.mp Main.noConfusion, ?_⟩
    intro chop isMain
    cases isMain
    exact Nat.zero_le n
  | @mainUnlock chop here =>
    refine ⟨held, kept.serving.trans (iff_of_false ?_ Main.noConfusion), ?_⟩
    · rw [here]
      exact Main.noConfusion
    · intro chop isMain
      cases isMain
      exact Fin.isLt _
  | mainJoin here =>
    refine ⟨held, kept.serving.trans (iff_of_false ?_ Main.noConfusion), ?_⟩
    · rw [here]
      exact Main.noConfusion
    · exact fun chop isMain => Main.noConfusion isMain
  | _ => exact ⟨held, kept.serving, kept.unlocking⟩

theorem kept_of_reaches (order : IsOrder firstChop secondChop) (kept : Kept firstChop t)
    (reaches : Relation.ReflTransGen (OrderedStep firstChop secondChop) t t') : Kept firstChop t' :=
  inv_of_reaches (fun _ _ => Kept.step order) kept reaches

/-! ## Nobody can move -/

/-- A philosopher that has not finished stands before a lock that is taken. -/
def Waits (firstChop secondChop : Fin n → Fin n) (t : System n) (id : Fin n) : Prop :=
  t.point id = .finished ∨ (t.point id = .first ∧ t.locked (firstChop id) = true) ∨
    (t.point id = .second ∧ t.locked (secondChop id) = true)

theorem waits_of_final (final : Final (OrderedStep firstChop secondChop) t) (id : Fin n) :
    Waits firstChop secondChop t id := by
  cases here : t.point id with
  | loop => exact absurd (.test here) (final _)
  | first =>
    refine .inr (.inl ⟨here, ?_⟩)
    by_contra free
    exact final _ (.lockFirst here (Bool.not_eq_true _ ▸ free))
  | second =>
    refine .inr (.inr ⟨here, ?_⟩)
    by_contra free
    exact final _ (.lockSecond here (Bool.not_eq_true _ ▸ free))
  | eating => exact absurd (.unlockRight here) (final _)
  | putDown => exact absurd (.unlockLeft here) (final _)
  | finished => exact .inl here

/-- `main` is never kept from its joins. -/
theorem joining_of_final (kept : Kept firstChop t) (final : Final (OrderedStep firstChop secondChop) t) :
    t.main = .joining := by
  cases isMain : t.main with
  | serving => exact absurd (.setStop isMain) (final _)
  | unlocking chop =>
    rcases Nat.lt_or_eq_of_le (kept.unlocking chop isMain) with small | rfl
    · have unlocks : t.main = .unlocking (⟨chop, small⟩ : Fin n) := isMain
      exact absurd (.mainUnlock unlocks) (final _)
    · exact absurd (.mainJoin isMain) (final _)
  | joining => rfl

/-- When all wait, a locked chopstick is the first one of a philosopher that waits for its second. -/
theorem LockedHeld.second_of_waits (held : LockedHeld firstChop t) (waits : ∀ id, Waits firstChop secondChop t id)
    (isLocked : t.locked c = true) : ∃ id, t.point id = .second ∧ firstChop id = c := by
  obtain ⟨id, holds⟩ := held c isLocked
  rcases waits id with here | ⟨here, _⟩ | ⟨here, _⟩
  · rw [here] at holds
    exact holds.elim
  · rw [here] at holds
    exact holds.elim
  · rw [here] at holds
    exact ⟨id, here, holds.symm⟩

/-! ## The work that is left after `Stop` -/

/-- The steps that a philosopher may still take once `Stop` is set. -/
def philosopherStepsLeft : Point → ℕ
  | .first => 5
  | .second => 4
  | .eating => 3
  | .putDown => 2
  | .loop => 1
  | .finished => 0

def mainStepsLeft (n : ℕ) : Main → ℕ
  | .serving => n + 2
  | .unlocking chop => n + 1 - chop
  | .joining => 0

def work (t : System n) : ℕ := ∑ id, philosopherStepsLeft (t.point id) + mainStepsLeft n t.main

/-- A step after `Stop`. -/
theorem work_lt (stopped : t.stop = true) (kept : Kept firstChop t)
    (step : OrderedStep firstChop secondChop t t') : work t' < work t := by
  cases step with
  | test here =>
    apply Nat.add_lt_add_right
    rw [if_pos stopped]
    exact sum_update_lt (by rw [here]; decide)
  | lockFirst here => exact Nat.add_lt_add_right (sum_update_lt (by rw [here]; decide)) _
  | lockSecond here => exact Nat.add_lt_add_right (sum_update_lt (by rw [here]; decide)) _
  | unlockRight here => exact Nat.add_lt_add_right (sum_update_lt (by rw [here]; decide)) _
  | unlockLeft here => exact Nat.add_lt_add_right (sum_update_lt (by rw [here]; decide)) _
  | setStop here => exact absurd (kept.serving.mpr here) (Bool.not_eq_false _ ▸ stopped)
  | @mainUnlock chop here =>
    apply Nat.add_lt_add_left
    have small := chop.isLt
    rw [here, mainStepsLeft, mainStepsLeft]
    omega
  | mainJoin here =>
    apply Nat.add_lt_add_left
    rw [here, mainStepsLeft, mainStepsLeft]
    omega

theorem OrderedStep.stop_mono (step : OrderedStep firstChop secondChop t t') (stopped : t.stop = true) :
    t'.stop = true := by
  cases step with
  | setStop => rfl
  | _ => exact stopped

theorem work_falls (order : IsOrder firstChop secondChop) :
    Falls (OrderedStep firstChop secondChop) (fun t => t.stop = true ∧ Kept firstChop t) work where
  keeps _ _ inv step := ⟨step.stop_mono inv.1, inv.2.step order step⟩
  lowers _ _ inv step := work_lt inv.1 inv.2 step

/-- A philosopher takes at most five more steps, and `main` one for each chopstick and one more. -/
theorem work_le (stopped : t.stop = true) (kept : Kept firstChop t) : work t ≤ 6 * n + 1 := by
  have philosophers : ∑ id, philosopherStepsLeft (t.point id) ≤ n * 5 := by
    have most := Finset.sum_le_card_nsmul Finset.univ (fun id => philosopherStepsLeft (t.point id)) 5 fun id _ => by
      cases t.point id <;> decide
    rwa [Finset.card_univ, Fintype.card_fin, smul_eq_mul] at most
  have ofMain : mainStepsLeft n t.main ≤ n + 1 := by
    cases isMain : t.main with
    | serving => exact absurd (kept.serving.mpr isMain) (Bool.not_eq_false _ ▸ stopped)
    | unlocking chop => exact Nat.sub_le ..
    | joining => exact Nat.zero_le _
  rw [work]
  omega

end OsLabs.Pthreads
