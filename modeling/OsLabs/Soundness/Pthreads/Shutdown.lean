import OsLabs.Proofs.Pthreads.Asymmetric

/-! # Eating through the shutdown of the asymmetric solution

At the end `main` unlocks every chopstick, also those that philosophers hold. A philosopher that waits
for such a chopstick then gets it while its neighbour eats. This is the only way for two neighbours to
eat at the same time: if nobody else is to lock the chopstick, or who holds it has eaten already, at
most one of the two can still come to eat, because `Stop` ends everybody's next test.
-/

namespace OsLabs.Pthreads.Asymmetric

variable {n : ℕ} {t t' : System n} {c : Fin n}

/-- `main` unlocks a chopstick that a philosopher holds and still eats with, and that another one is
still to lock. -/
def Disturbs (c : Fin n) (t t' : System n) : Prop :=
  MainUnlocks c t t' ∧ ∃ id other, other ≠ id ∧ Holds t id c ∧ t.point id ≠ .putDown ∧
    Uses other c ∧ (t.point other = .first ∨ t.point other = .second)

/-- The states of the runs in which `main` does not unlock a chopstick in that way. -/
def Undisturbed (c : Fin n) : System n → Prop :=
  Relation.ReflTransGen (fun t t' => Step t t' ∧ ¬ Disturbs c t t') (setTable n)

/-- The philosopher eats, or it will before it tests `Stop` again. -/
def Point.Eats : Point → Prop
  | .first | .second | .eating => True
  | .loop | .putDown | .finished => False

/-- `Stop` is set, and at most one philosopher still comes to eat with the chopstick. -/
structure Settled (t : System n) (c : Fin n) : Prop where
  stop : t.stop = true
  last : ∃ p, ∀ id, Uses id c → (t.point id).Eats → id = p

theorem Settled.move {id : Fin n} {point : Point} (settled : Settled t c) (stop : t'.stop = t.stop)
    (points : t'.point = Function.update t.point id point) (still : point.Eats → (t.point id).Eats) :
    Settled t' c := by
  obtain ⟨p, last⟩ := settled.last
  refine ⟨stop.trans settled.stop, p, fun k uses eats => ?_⟩
  rw [points] at eats
  cases eq_or_ne k id with
  | inl same =>
    subst same
    rw [Function.update_self] at eats
    exact last k uses (still eats)
  | inr ne =>
    rw [Function.update_of_ne ne] at eats
    exact last k uses eats

theorem Settled.step (settled : Settled t c) (step : Step t t') : Settled t' c := by
  cases step with
  | test here =>
    apply Settled.move settled
    · rfl
    · rfl
    · rw [if_pos settled.stop]
      exact False.elim
  | lockFirst here =>
    apply Settled.move settled
    · rfl
    · rfl
    · rw [here]
      exact fun _ => trivial
  | lockSecond here =>
    apply Settled.move settled
    · rfl
    · rfl
    · rw [here]
      exact fun _ => trivial
  | unlockRight =>
    apply Settled.move settled
    · rfl
    · rfl
    · exact False.elim
  | unlockLeft =>
    apply Settled.move settled
    · rfl
    · rfl
    · exact False.elim
  | setStop => exact ⟨rfl, settled.last⟩
  | mainUnlock => exact ⟨settled.stop, settled.last⟩
  | mainJoin => exact ⟨settled.stop, settled.last⟩

/-- Who holds a chopstick that is unlocked without a disturbance, or who is to lock it, eats last. -/
theorem Guarded.settled (guarded : Guarded t c) (stop : t.stop = true) {id : Fin n} (held : Holds t id c)
    (calm : ¬ ∃ id other, other ≠ id ∧ Holds t id c ∧ t.point id ≠ .putDown ∧ Uses other c ∧
      (t.point other = .first ∨ t.point other = .second)) : Settled t c := by
  have alone (other : Fin n) (ne : other ≠ id) (eating : t.point other = .eating) : ¬ Uses other c := by
    intro uses
    apply ne
    apply guarded.exclusive other id _ held
    rw [Holds, eating]
    exact uses
  cases eq_or_ne (t.point id) .putDown with
  | inr before =>
    refine ⟨stop, id, fun other uses eats => ?_⟩
    by_contra ne
    cases here : t.point other with
    | first => exact calm ⟨id, other, ne, held, before, uses, .inl here⟩
    | second => exact calm ⟨id, other, ne, held, before, uses, .inr here⟩
    | eating => exact alone other ne here uses
    | loop => exact (here ▸ eats : Point.loop.Eats)
    | putDown => exact (here ▸ eats : Point.putDown.Eats)
    | finished => exact (here ▸ eats : Point.finished.Eats)
  | inl putDown =>
    -- the other user of the chopstick is the only one left
    have isLeft : c = id := by
      rw [Holds, putDown] at held
      exact held
    refine ⟨stop, leftPhil c, fun other uses eats => ?_⟩
    rcases uses with same | isRight
    · change other = c at same
      rw [same, isLeft, putDown] at eats
      exact eats.elim
    · exact rightChop_eq_iff.mp isRight

/-- The mutex is still to be trusted, or nobody needs it any more. -/
structure Safe (t : System n) (c : Fin n) : Prop where
  stop : t.main = .serving ∨ t.stop = true
  chop : Guarded t c ∨ Settled t c

theorem Safe.step (many : 2 ≤ n) (safe : Safe t c) (step : Step t t') (calm : ¬ Disturbs c t t') : Safe t' c where
  stop := by
    cases step with
    | setStop => exact .inr rfl
    | mainUnlock here => exact .inr (safe.stop.resolve_left (here ▸ Main.noConfusion))
    | mainJoin here => exact .inr (safe.stop.resolve_left (here ▸ Main.noConfusion))
    | _ => exact safe.stop
  chop := by
    rcases safe.chop with guarded | settled
    · by_cases unlocks : MainUnlocks c t t'
      · have stop : t.stop = true := safe.stop.resolve_left (unlocks.1 ▸ Main.noConfusion)
        by_cases held : ∃ id, Holds t id c
        · obtain ⟨id, held⟩ := held
          exact .inr ((guarded.settled stop held fun both => calm ⟨unlocks, both⟩).step step)
        · exact .inl (guarded.mainUnlock unlocks step (not_exists.mp held))
      · exact .inl (guarded.step many step unlocks)
    · exact .inr (settled.step step)

theorem Undisturbed.safe (many : 2 ≤ n) (run : Undisturbed c t) : Safe t c := by
  induction run with
  | refl => exact ⟨.inl rfl, .inl (.setTable n c)⟩
  | tail _ step ih => exact ih.step many step.1 step.2

/-- Two neighbours never eat at the same time, unless `main` unlocked the chopstick between them while one
of them held it and ate, or was to eat, and the other was still to lock it. -/
theorem neighbours_exclude (many : 2 ≤ n) {id : Fin n} (run : Undisturbed id t) :
    ¬ (t.point id = .eating ∧ t.point (leftPhil id) = .eating) := by
  rintro ⟨here, there⟩
  have ne := leftPhil_ne many id
  have uses := uses_leftPhil id
  rcases (run.safe many).chop with guarded | settled
  · apply ne
    apply guarded.exclusive
    · rw [Holds, there]
      exact uses
    · rw [Holds, here]
      exact .inl rfl
  · obtain ⟨p, last⟩ := settled.last
    apply ne
    rw [last (leftPhil id) uses (there ▸ trivial), last id (.inl rfl) (here ▸ trivial)]

/-- `main` unlocks a chopstick that philosopher 0 eats with, and the other one has yet to test `Stop`. -/
theorem neighbours_exclude_two : ∃ t : System 2, Undisturbed 0 t ∧ t.point 0 = .eating ∧ t.locked 0 = false ∧
    ¬ (t.point 0 = .eating ∧ t.point (leftPhil 0) = .eating) := by
  have calm {t t' : System 2} (serving : t.main = .serving) : ¬ Disturbs 0 t t' := by
    rintro ⟨⟨unlocks, _⟩, _⟩
    cases serving.symm.trans unlocks
  have hungry : Undisturbed (0 : Fin 2) _ := .single ⟨@Step.test 2 (setTable 2) 0 rfl, calm rfl⟩
  have eats := (hungry.tail ⟨@Step.lockFirst 2 _ 0 rfl rfl, calm rfl⟩).tail ⟨@Step.lockSecond 2 _ 0 rfl rfl, calm rfl⟩
  have stopped := eats.tail ⟨.setStop rfl, calm rfl⟩
  have unlocked := stopped.tail ⟨@Step.mainUnlock 2 _ 0 rfl, ?_⟩
  · exact ⟨_, unlocked, rfl, rfl, neighbours_exclude (Nat.le_refl 2) unlocked⟩
  · rintro ⟨_, _, other, -, -, -, -, wants⟩
    revert other
    decide

/-- Philosopher 0 eats when `main` unlocks both chopsticks; philosopher 1 locks them and eats too. -/
theorem neighbours_eat_together :
    ∃ t, Reachable 2 t ∧ t.point 0 = .eating ∧ t.point (leftPhil 0) = .eating := by
  have hungry := (Relation.ReflTransGen.single (@Step.test 2 (setTable 2) 0 rfl)).tail (@Step.test 2 _ 1 rfl)
  have eats := (hungry.tail (@Step.lockFirst 2 _ 0 rfl rfl)).tail (@Step.lockSecond 2 _ 0 rfl rfl)
  have stopped := eats.tail (.setStop rfl)
  have unlocked := (stopped.tail (@Step.mainUnlock 2 _ 0 rfl)).tail (@Step.mainUnlock 2 _ 1 rfl)
  have both := (unlocked.tail (@Step.lockFirst 2 _ 1 rfl rfl)).tail (@Step.lockSecond 2 _ 1 rfl rfl)
  exact ⟨_, both, rfl, rfl⟩

end OsLabs.Pthreads.Asymmetric
