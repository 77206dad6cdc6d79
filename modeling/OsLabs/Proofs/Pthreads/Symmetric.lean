import OsLabs.Proofs.Pthreads.Asymmetric
import OsLabs.Proofs.Pthreads.OrderedTable

/-! # Who holds what at the symmetric table

Until `main` unlocks chopsticks, one that is held is locked and held by one philosopher only. When all
wait and not all have finished, everybody has the left chopstick: whoever waits for the right one waits
for the neighbour, which waits for its own right one.
-/

namespace OsLabs.Pthreads.Symmetric

open Asymmetric (System Point Main leftChop_ne_rightChop)
open Relation FiniteRuns

variable {n : ℕ} {t t' : System n} {id other c : Fin n} {point : Point}

/-- The chopstick is locked while it is held, and held by one philosopher at most. -/
structure Guarded (t : System n) (c : Fin n) : Prop where
  taken : ∀ id, HoldsAt leftChop id c (t.point id) → t.locked c = true
  exclusive : ∀ id other, HoldsAt leftChop id c (t.point id) → HoldsAt leftChop other c (t.point other) → id = other

/-- One philosopher moves: it takes the chopstick only when it is free, and only who holds it unlocks it. -/
theorem Guarded.move (guarded : Guarded t c) (points : t'.point = Function.update t.point id point)
    (still : HoldsAt leftChop id c point → t'.locked c = true)
    (fresh : HoldsAt leftChop id c point → HoldsAt leftChop id c (t.point id) ∨ t.locked c = false)
    (unlocks : t.locked c = true → t'.locked c = true ∨ HoldsAt leftChop id c (t.point id)) : Guarded t' c := by
  have elsewhere {k : Fin n} (ne : k ≠ id) (holds : HoldsAt leftChop k c (t'.point k)) :
      HoldsAt leftChop k c (t.point k) ∧ ¬ HoldsAt leftChop id c point := by
    rw [points, Function.update_of_ne ne] at holds
    refine ⟨holds, fun moved => ?_⟩
    rcases fresh moved with before | free
    · exact ne (guarded.exclusive k id holds before)
    · exact Bool.false_ne_true (free.symm.trans (guarded.taken k holds))
  have mover (holds : HoldsAt leftChop id c (t'.point id)) : HoldsAt leftChop id c point := by
    rwa [points, Function.update_self] at holds
  constructor
  · intro k holds
    cases eq_or_ne k id with
    | inl same =>
      subst same
      exact still (mover holds)
    | inr ne =>
      obtain ⟨before, _⟩ := elsewhere ne holds
      rcases unlocks (guarded.taken k before) with isLocked | own
      · exact isLocked
      · exact absurd (guarded.exclusive k id before own) ne
  · intro k other holds holds'
    cases eq_or_ne k id with
    | inl same =>
      subst same
      by_contra ne
      exact (elsewhere (Ne.symm ne) holds').2 (mover holds)
    | inr ne =>
      cases eq_or_ne other id with
      | inl same =>
        subst same
        exact absurd (mover holds') (elsewhere ne holds).2
      | inr ne' => exact guarded.exclusive k other (elsewhere ne holds).1 (elsewhere ne' holds').1

theorem locked_update_true {chop : Fin n} (isLocked : t.locked c = true) :
    Function.update t.locked chop true c = true := by
  cases eq_or_ne c chop with
  | inl same => rw [same, Function.update_self]
  | inr ne => rwa [Function.update_of_ne ne]

theorem Guarded.step (many : 2 ≤ n) (guarded : Guarded t c) (serving : t.main = .serving) (step : Step t t') :
    Guarded t' c := by
  cases step with
  | @test id here =>
    have empty : ¬ HoldsAt leftChop id c (if t.stop then .finished else .first) := by split <;> exact not_false
    apply guarded.move rfl
    · exact fun holds => absurd holds empty
    · exact fun holds => absurd holds empty
    · exact .inl
  | @lockFirst id here free =>
    apply guarded.move rfl
    · intro holds
      change c = leftChop id at holds
      rw [holds, Asymmetric.System.act_locked_self]
    · intro holds
      change c = leftChop id at holds
      exact .inr (holds ▸ free)
    · exact fun isLocked => .inl (locked_update_true isLocked)
  | @lockSecond id here free =>
    apply guarded.move rfl
    · intro holds
      rcases (isOrder_symmetric id c).mp holds with isLeft | isRight
      · exact locked_update_true (guarded.taken id (here ▸ isLeft))
      · rw [isRight, Asymmetric.System.act_locked_self]
    · intro holds
      rcases (isOrder_symmetric id c).mp holds with isLeft | isRight
      · exact .inl (here ▸ isLeft)
      · exact .inr (isRight ▸ free)
    · exact fun isLocked => .inl (locked_update_true isLocked)
  | @unlockRight id here =>
    have before (isLeft : c = leftChop id) : HoldsAt leftChop id c (t.point id) := here ▸ .inl isLeft.symm
    apply guarded.move rfl
    · intro isLeft
      have ne : c ≠ rightChop id := isLeft ▸ leftChop_ne_rightChop many id
      exact (Function.update_of_ne ne ..).trans (guarded.taken id (before isLeft))
    · exact fun isLeft => .inl (before isLeft)
    · intro isLocked
      cases eq_or_ne c (rightChop id) with
      | inl same => exact .inr (here ▸ .inr same.symm)
      | inr ne => exact .inl ((Function.update_of_ne ne ..).trans isLocked)
  | @unlockLeft id here =>
    apply guarded.move rfl
    · exact False.elim
    · exact False.elim
    · intro isLocked
      cases eq_or_ne c (leftChop id) with
      | inl same => exact .inr (here ▸ same)
      | inr ne => exact .inl ((Function.update_of_ne ne ..).trans isLocked)
  | setStop => exact ⟨guarded.taken, guarded.exclusive⟩
  | mainUnlock here => cases serving.symm.trans here
  | mainJoin here => cases serving.symm.trans here

theorem guarded_setTable : Guarded (setTable n) c := ⟨fun _ holds => holds.elim, fun _ _ holds => holds.elim⟩

theorem serving_of_step (step : Step t t') (serving : t'.main = .serving) : t.main = .serving := by
  cases step with
  | setStop => cases serving
  | mainUnlock => cases serving
  | mainJoin => cases serving
  | _ => exact serving

/-- Until `main` sets `Stop` every chopstick is guarded. -/
theorem reachable_guarded (many : 2 ≤ n) (reached : Reachable n t) (serving : t.main = .serving) : Guarded t c := by
  induction reached with
  | refl => exact guarded_setTable
  | tail _ step ih =>
    have before := serving_of_step step serving
    exact (ih before).step many before step

theorem reachable_kept (reached : Reachable n t) : Kept leftChop t :=
  kept_of_reaches isOrder_symmetric kept_setTable reached

/-! ## Around the table -/

theorem forall_le_of_before {P : Fin n → Prop} (back : ∀ id, P id → P (before id)) (m : ℕ) (small : m < n)
    (here : P ⟨m, small⟩) (k : ℕ) (le : k ≤ m) : P ⟨k, Nat.lt_of_le_of_lt le small⟩ := by
  induction m with
  | zero =>
    obtain rfl := Nat.le_zero.mp le
    exact here
  | succ m ih =>
    rcases Nat.lt_or_eq_of_le le with less | rfl
    · have next := back _ here
      rw [before, if_neg (Nat.succ_ne_zero m)] at next
      exact ih (Nat.lt_of_succ_lt small) next (Nat.le_of_lt_succ less)
    · exact here

/-- What passes from a philosopher to the one before it passes to all. -/
theorem forall_of_before {P : Fin n → Prop} (back : ∀ id, P id → P (before id)) (here : P id) (other : Fin n) :
    P other := by
  have positive : 0 < n := Nat.lt_of_le_of_lt (Nat.zero_le _) id.isLt
  have first : P ⟨0, positive⟩ := forall_le_of_before back id.val id.isLt here 0 (Nat.zero_le _)
  have last := back _ first
  rw [before, if_pos rfl] at last
  exact forall_le_of_before back (n - 1) (Nat.sub_lt positive Nat.one_pos) last other.val (Nat.le_sub_one_of_lt other.isLt)

/-- All philosophers wait: all have finished, or everybody waits for its right chopstick. -/
theorem second_of_waits (held : LockedHeld leftChop t) (waits : ∀ id, Waits leftChop rightChop t id)
    (unfinished : t.point id ≠ .finished) : ∀ other, t.point other = .second := by
  have isSecond : t.point id = .second := by
    rcases waits id with here | ⟨here, isLocked⟩ | ⟨here, _⟩
    · exact absurd here unfinished
    · obtain ⟨other, there, first⟩ := held.second_of_waits waits isLocked
      change other = id at first
      exact first ▸ there
    · exact here
  refine forall_of_before (P := fun k => t.point k = .second) (fun k here => ?_) isSecond
  rcases waits k with there | ⟨there, _⟩ | ⟨_, isLocked⟩
  · cases here.symm.trans there
  · cases here.symm.trans there
  · obtain ⟨other, there, first⟩ := held.second_of_waits waits isLocked
    change other = before k at first
    exact first ▸ there

/-! ## Runs into the deadlock -/

/-- The first `k` philosophers have taken their left chopsticks. -/
def takingLeft (n : ℕ) (stop : Bool) (main : Main) (k : ℕ) : System n where
  locked c := decide (c.val < k)
  point id := if id.val < k then .second else .first
  stop
  main

/-- The first `k` philosophers have tested `Stop`. -/
def testing (n k : ℕ) : System n where
  locked _ := false
  point id := if id.val < k then .first else .loop
  stop := false
  main := .serving

/-- `Stop` is set, nobody has a chopstick, and `main` has unlocked `k` of them. -/
def unlocking (t : System n) (k : ℕ) : System n where
  locked c := if c.val < k then false else t.locked c
  point _ := .first
  stop := true
  main := .unlocking k

theorem reaches_of_steps {step : System n → System n → Prop} {states : ℕ → System n} {k : ℕ}
    (steps : ∀ i < k, step (states i) (states (i + 1))) : ReflTransGen step (states 0) (states k) := by
  induction k with
  | zero => exact .refl
  | succ k ih => exact (ih fun i less => steps i (Nat.lt_succ_of_lt less)).tail (steps k (Nat.lt_succ_self k))

theorem update_lt_succ {α : Type*} {k : ℕ} (small : k < n) (done todo : Fin n → α) :
    Function.update (fun i : Fin n => if i.val < k then done i else todo i) ⟨k, small⟩ (done ⟨k, small⟩) =
      fun i => if i.val < k + 1 then done i else todo i := by
  funext i
  cases eq_or_ne i ⟨k, small⟩ with
  | inl same => rw [same, Function.update_self, if_pos (Nat.lt_succ_self k)]
  | inr ne =>
    have other : i.val ≠ k := fun same => ne (Fin.ext same)
    rw [Function.update_of_ne ne]
    by_cases before : i.val < k
    · rw [if_pos before, if_pos (Nat.lt_succ_of_lt before)]
    · rw [if_neg before, if_neg (by omega)]

theorem takingLeft_step (stop : Bool) (main : Main) (k : ℕ) (small : k < n) :
    Step (takingLeft n stop main k) (takingLeft n stop main (k + 1)) := by
  have first : (takingLeft n stop main k).point ⟨k, small⟩ = .first := if_neg (Nat.lt_irrefl k)
  have free : (takingLeft n stop main k).locked (leftChop ⟨k, small⟩) = false := decide_eq_false (Nat.lt_irrefl k)
  have step : Step (takingLeft n stop main k) _ := .lockFirst first free
  convert step using 1
  rw [takingLeft, System.act, takingLeft]
  congr 1
  · have locks := update_lt_succ small (fun _ => true) (fun _ => false)
    simpa only [Bool.if_true_left, Bool.or_false, leftChop] using locks.symm
  · exact (update_lt_succ small (fun _ => Point.second) (fun _ => .first)).symm

theorem testing_step (k : ℕ) (small : k < n) : Step (testing n k) (testing n (k + 1)) := by
  have loops : (testing n k).point ⟨k, small⟩ = .loop := if_neg (Nat.lt_irrefl k)
  have step : Step (testing n k) _ := .test loops
  convert step using 1
  rw [testing, testing]
  congr 1
  exact (update_lt_succ small (fun _ => Point.first) (fun _ => .loop)).symm

theorem unlocking_step (t : System n) (k : ℕ) (small : k < n) : Step (unlocking t k) (unlocking t (k + 1)) := by
  have unlocks : (unlocking t k).main = .unlocking (⟨k, small⟩ : Fin n) := rfl
  have step : Step (unlocking t k) _ := .mainUnlock unlocks
  convert step using 1
  rw [unlocking, unlocking]
  congr 1
  exact (update_lt_succ small (fun _ => false) t.locked).symm

/-- Everybody may take the left chopstick when nobody has one. -/
theorem takingLeft_reaches (stop : Bool) (main : Main) :
    ReflTransGen Step (takingLeft n stop main 0) (takingLeft n stop main n) :=
  reaches_of_steps fun k small => takingLeft_step stop main k small

theorem takingLeft_blocked (stop : Bool) (main : Main) (id : Fin n) : Blocked (takingLeft n stop main n) id :=
  .inr ⟨if_pos id.isLt, decide_eq_true (rightChop id).isLt⟩

/-- A table of blocked philosophers can be reached. -/
theorem takingLeft_reachable (n : ℕ) : Reachable n (takingLeft n false .serving n) := by
  have tested : ReflTransGen Step (testing n 0) (testing n n) := reaches_of_steps testing_step
  have begun : testing n 0 = setTable n := by
    rw [testing, setTable, Asymmetric.setTable]
    congr 1
  have hungry : testing n n = takingLeft n false .serving 0 := by
    rw [testing, takingLeft]
    congr 1
    funext id
    rw [if_pos id.isLt, if_neg (Nat.not_lt_zero _)]
  rw [Reachable, ← begun]
  exact (hungry ▸ tested).trans (takingLeft_reaches false .serving)

end OsLabs.Pthreads.Symmetric
