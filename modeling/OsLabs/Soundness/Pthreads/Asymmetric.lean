import OsLabs.Proofs.Pthreads.Asymmetric

/-! # The asymmetric solution has no deadlock

As long as `Stop` is not set, a chopstick is locked exactly when one philosopher holds it. If everybody
were blocked, whoever holds a chopstick would hold only its first one. A philosopher with an odd id
never does: its second chopstick is the first one of nobody. So philosopher 1 waits for philosopher 0,
which waits for the last one, which waits for the one before it; the last two would both be even.
-/

namespace OsLabs.Pthreads.Asymmetric

variable {n : ℕ} {t : System n} {id other c : Fin n} {point : Point} {chop : Fin n}

/-- Before `Stop` the mutexes agree with the philosophers. -/
structure Served (t : System n) : Prop where
  main : t.main = .serving
  locked : ∀ c, t.locked c = true ↔ ∃ id, Holds t id c
  exclusive : ∀ c id other, Holds t id c → Holds t other c → id = other

theorem served_setTable : Served (setTable n) where
  main := rfl
  locked _ := iff_of_false Bool.false_ne_true fun ⟨_, impossible⟩ => impossible
  exclusive _ _ _ impossible := impossible.elim

theorem Served.guarded (served : Served t) (c : Fin n) : Guarded t c :=
  ⟨served.locked c, fun id other => served.exclusive c id other⟩

/-- One step before `Stop`. -/
theorem Served.step {t' : System n} (many : 2 ≤ n) (served : Served t) (step : Step t t')
    (serving : t'.stop = false) : Served t' := by
  have guarded (c : Fin n) : Guarded t' c := by
    apply (served.guarded c).step many step
    rintro ⟨unlocking, _⟩
    rw [served.main] at unlocking
    cases unlocking
  refine ⟨?_, fun c => (guarded c).locked, fun c id other => (guarded c).exclusive id other⟩
  cases step with
  | setStop => cases serving
  | mainUnlock here =>
    rw [served.main] at here
    cases here
  | mainJoin here =>
    rw [served.main] at here
    cases here
  | _ => exact served.main

theorem Step.stop_mono {t' : System n} (step : Step t t') (serving : t'.stop = false) : t.stop = false := by
  cases step with
  | setStop => cases serving
  | _ => exact serving

theorem reachable_served (many : 2 ≤ n) (reached : Reachable n t) (serving : t.stop = false) : Served t := by
  induction reached with
  | refl => exact served_setTable
  | tail _ step ih => exact (ih (step.stop_mono serving)).step many step serving

/-! ## Deadlock -/

/-- The chopstick that a philosopher waits for when everybody is blocked. -/
def wanted (t : System n) (id : Fin n) : Fin n :=
  if t.point id = .first then firstChop id else secondChop id

/-- When everybody is blocked, a wanted chopstick is the first one of a philosopher that waits for its
second. -/
theorem wanted_held (many : 2 ≤ n) (served : Served t) (stuck : ∀ id, Blocked t id) (id : Fin n) :
    ∃ other, other ≠ id ∧ t.point other = .second ∧ firstChop other = wanted t id := by
  have taken : t.locked (wanted t id) = true := by
    rw [wanted]
    rcases stuck id with ⟨here, locked⟩ | ⟨here, locked⟩
    · rw [if_pos here]
      exact locked
    · rw [here, if_neg Point.noConfusion]
      exact locked
  obtain ⟨other, held⟩ := (served.locked _).mp taken
  rcases stuck other with ⟨here, _⟩ | ⟨here, _⟩
  · rw [Holds, here] at held
    exact held.elim
  · rw [Holds, here] at held
    refine ⟨other, ?_, here, held.symm⟩
    rintro rfl
    change wanted t other = firstChop other at held
    rw [wanted, here, if_neg Point.noConfusion, firstChop, secondChop] at held
    have ne := leftChop_ne_rightChop many other
    by_cases even : other.val % 2 = 0
    · rw [if_pos even, if_neg (by omega)] at held
      exact ne held.symm
    · rw [if_neg even, if_pos (by omega)] at held
      exact ne held

/-- Then a philosopher that waits for its second chopstick has an even id. -/
theorem even_of_second (many : 2 ≤ n) (served : Served t) (stuck : ∀ id, Blocked t id)
    (here : t.point id = .second) : id.val % 2 = 0 := by
  by_contra odd
  obtain ⟨other, ne, _, first⟩ := wanted_held many served stuck id
  rw [wanted, here, if_neg Point.noConfusion, secondChop, if_pos (by omega), firstChop] at first
  split at first
  · exact ne first
  · next odd' =>
    rw [rightChop_eq_iff, leftChop, leftPhil] at first
    split at first
    · rw [first] at odd'
      exact odd' rfl
    · rw [first] at odd'
      change ¬ (id.val + 1) % 2 = 0 at odd'
      omega

/-- Then the philosopher with the number of a wanted chopstick is even and waits for its second. -/
theorem wanted_second (many : 2 ≤ n) (served : Served t) (stuck : ∀ id, Blocked t id) (id : Fin n) :
    (wanted t id).val % 2 = 0 ∧ t.point (wanted t id) = .second := by
  obtain ⟨other, _, here, first⟩ := wanted_held many served stuck id
  have even := even_of_second many served stuck here
  rw [firstChop, if_pos even] at first
  rw [← first]
  exact ⟨even, here⟩

/-- An even philosopher that waits for its second chopstick wants the one with the number before its
own. -/
theorem wanted_of_second (many : 2 ≤ n) (served : Served t) (stuck : ∀ id, Blocked t id)
    (here : t.point id = .second) : wanted t id = before id := by
  have even := even_of_second many served stuck here
  rw [wanted, here, if_neg Point.noConfusion, secondChop, if_neg (by omega), rightChop]

/-- Until `main` sets `Stop`, some philosopher is not blocked. -/
theorem asymmetric_deadlock_free (many : 2 ≤ n) (reached : Reachable n t) (serving : t.stop = false) :
    ∃ id, ¬ Blocked t id := by
  by_contra allBlocked
  have stuck (id : Fin n) : Blocked t id := by
    by_contra free
    exact allBlocked ⟨id, free⟩
  have served := reachable_served many reached serving
  let zero : Fin n := ⟨0, by omega⟩
  let one : Fin n := ⟨1, many⟩
  have oneFirst : t.point one = .first := by
    rcases stuck one with ⟨here, _⟩ | ⟨here, _⟩
    · exact here
    · have even := even_of_second many served stuck here
      cases even
  have wantsZero : wanted t one = zero := by
    rw [wanted, if_pos oneFirst]
    rfl
  obtain ⟨_, zeroSecond⟩ := wantsZero ▸ wanted_second many served stuck one
  have wantsLast := wanted_of_second many served stuck zeroSecond
  obtain ⟨lastEven, lastSecond⟩ := wantsLast ▸ wanted_second many served stuck zero
  have wantsNext := wanted_of_second many served stuck lastSecond
  obtain ⟨nextEven, _⟩ := wantsNext ▸ wanted_second many served stuck (before zero)
  change (n - 1) % 2 = 0 at lastEven
  rw [before, if_neg (by change ¬ n - 1 = 0; omega)] at nextEven
  change (n - 1 - 1) % 2 = 0 at nextEven
  omega

/-- The first of two philosophers has its first chopstick. -/
theorem asymmetric_deadlock_free_two :
    let hungry : System 2 := { setTable 2 with point := Function.update (setTable 2).point 0 .first }
    let held : System 2 := hungry.act 0 (firstChop 0) true .second
    Reachable 2 held ∧ ∃ id, ¬ Blocked held id := by
  intro hungry held
  have first : Step (setTable 2) hungry := @Step.test 2 (setTable 2) 0 rfl
  have second : Step hungry held := .lockFirst rfl rfl
  have reached : Reachable 2 held := (Relation.ReflTransGen.single first).tail second
  exact ⟨reached, asymmetric_deadlock_free (Nat.le_refl 2) reached rfl⟩

end OsLabs.Pthreads.Asymmetric
