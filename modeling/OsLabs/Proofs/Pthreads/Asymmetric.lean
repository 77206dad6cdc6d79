import OsLabs.Model.Pthreads.Asymmetric

/-! # Chopsticks and their mutexes

A mutex is guarded when it is locked exactly while one philosopher holds the chopstick. Every lock and
unlock of a philosopher keeps this; only `main` can break it, when it unlocks a chopstick that is held.
-/

namespace OsLabs.Pthreads.Asymmetric

variable {n : ℕ} {t t' : System n} {id other c chop : Fin n} {point : Point}

/-- The chopsticks that a philosopher holds. -/
def Point.Holds (id c : Fin n) : Point → Prop
  | .loop | .first | .finished => False
  | .second => c = firstChop id
  | .eating => Uses id c
  | .putDown => c = leftChop id

def Holds (t : System n) (id c : Fin n) : Prop := (t.point id).Holds id c

theorem uses_iff : Uses id c ↔ c = firstChop id ∨ c = secondChop id := by
  rw [Uses, firstChop, secondChop, eq_comm, @eq_comm _ (rightChop id)]
  split
  · next even => rw [if_neg (by omega)]
  · next odd =>
    rw [if_pos (by omega)]
    exact or_comm

theorem leftChop_ne_rightChop (many : 2 ≤ n) (id : Fin n) : leftChop id ≠ rightChop id :=
  (rightPhil_ne many id).symm

/-- The philosopher moves; the others hold what they have held. -/
theorem holds_update_iff {points : Fin n → Point} :
    (Function.update points id point other).Holds other c ↔
      (other = id ∧ point.Holds id c) ∨ (other ≠ id ∧ (points other).Holds other c) := by
  cases eq_or_ne other id with
  | inl same =>
    rw [same, Function.update_self]
    exact ⟨fun held => .inl ⟨rfl, held⟩, fun held => held.elim And.right fun ne => absurd rfl ne.1⟩
  | inr ne =>
    rw [Function.update_of_ne ne]
    exact ⟨fun held => .inr ⟨ne, held⟩, fun held => held.elim (fun same => absurd same.1 ne) And.right⟩

@[simp] theorem System.act_locked_self (locked : Bool) : (t.act id c locked point).locked c = locked :=
  Function.update_self ..

/-! ## Guarded chopsticks -/

structure Guarded (t : System n) (c : Fin n) : Prop where
  locked : t.locked c = true ↔ ∃ id, Holds t id c
  exclusive : ∀ id other, Holds t id c → Holds t other c → id = other

namespace Guarded

theorem setTable (n : ℕ) (c : Fin n) : Guarded (setTable n) c where
  locked := iff_of_false Bool.false_ne_true fun ⟨_, impossible⟩ => impossible
  exclusive _ _ impossible := impossible.elim

/-- Nobody takes or puts down the chopstick. -/
theorem stay (guarded : Guarded t c) (locked : t'.locked c = t.locked c)
    (points : t'.point = Function.update t.point id point) (same : point.Holds id c ↔ Holds t id c) :
    Guarded t' c := by
  have holds (k : Fin n) : Holds t' k c ↔ Holds t k c := by
    rw [Holds, points, holds_update_iff, same]
    constructor
    · rintro (⟨rfl, held⟩ | held)
      · exact held
      · exact held.2
    · intro held
      cases eq_or_ne k id with
      | inl here => exact .inl ⟨here, here ▸ held⟩
      | inr ne => exact .inr ⟨ne, held⟩
  constructor
  · rw [locked, guarded.locked]
    exact exists_congr fun k => (holds k).symm
  · intro k other held held'
    exact guarded.exclusive k other ((holds k).mp held) ((holds other).mp held')

/-- A philosopher takes the chopstick. -/
theorem acquire (guarded : Guarded t c) (free : t.locked c = false) (takes : point.Holds id c) :
    Guarded (t.act id c true point) c := by
  have notHeld (k : Fin n) : ¬ Holds t k c := by
    intro held
    rw [guarded.locked.mpr ⟨k, held⟩] at free
    cases free
  have holds (k : Fin n) : Holds (t.act id c true point) k c ↔ k = id := by
    change (Function.update t.point id point k).Holds k c ↔ k = id
    rw [holds_update_iff]
    constructor
    · rintro (⟨same, _⟩ | held)
      · exact same
      · exact absurd held.2 (notHeld k)
    · exact fun same => .inl ⟨same, takes⟩
  constructor
  · rw [System.act_locked_self]
    exact iff_of_true rfl ⟨id, (holds id).mpr rfl⟩
  · intro k other held held'
    exact ((holds k).mp held).trans ((holds other).mp held').symm

/-- The philosopher that holds the chopstick puts it down. -/
theorem release (guarded : Guarded t c) (held : Holds t id c) (puts : ¬ point.Holds id c) :
    Guarded (t.act id c false point) c := by
  have holds (k : Fin n) : ¬ Holds (t.act id c false point) k c := by
    change ¬ (Function.update t.point id point k).Holds k c
    rw [holds_update_iff]
    rintro (⟨_, still⟩ | ⟨ne, before⟩)
    · exact puts still
    · exact ne (guarded.exclusive k id before held)
  constructor
  · rw [System.act_locked_self]
    exact iff_of_false Bool.false_ne_true fun ⟨k, still⟩ => holds k still
  · exact fun k _ still => absurd still (holds k)

/-- What `main` does to other chopsticks is of no consequence. -/
theorem elsewhere (guarded : Guarded t c) (locked : t'.locked c = t.locked c) (points : t'.point = t.point) :
    Guarded t' c := by
  have holds (k : Fin n) : Holds t' k c ↔ Holds t k c := by
    rw [Holds, points]
    rfl
  constructor
  · rw [locked, guarded.locked]
    exact exists_congr fun k => (holds k).symm
  · intro k other held held'
    exact guarded.exclusive k other ((holds k).mp held) ((holds other).mp held')

/-- A philosopher takes a chopstick, this one or another. -/
theorem take (guarded : Guarded t c) (free : t.locked chop = false) (takes : point.Holds id chop)
    (same : c ≠ chop → (point.Holds id c ↔ Holds t id c)) : Guarded (t.act id chop true point) c := by
  cases eq_or_ne c chop with
  | inl here =>
    subst here
    exact guarded.acquire free takes
  | inr ne => exact guarded.stay (Function.update_of_ne ne ..) rfl (same ne)

theorem put (guarded : Guarded t c) (held : Holds t id chop) (puts : ¬ point.Holds id chop)
    (same : c ≠ chop → (point.Holds id c ↔ Holds t id c)) : Guarded (t.act id chop false point) c := by
  cases eq_or_ne c chop with
  | inl here =>
    subst here
    exact guarded.release held puts
  | inr ne => exact guarded.stay (Function.update_of_ne ne ..) rfl (same ne)

end Guarded

/-- `main` unlocks the chopstick in this step. -/
def MainUnlocks (c : Fin n) (t t' : System n) : Prop :=
  t.main = .unlocking c ∧ t'.main = .unlocking (c + 1)

theorem MainUnlocks.unlocked (unlocks : MainUnlocks c t t') (step : Step t t') :
    t'.locked c = false ∧ t'.point = t.point := by
  obtain ⟨before, after⟩ := unlocks
  have moved : t'.main ≠ t.main := by
    rw [before, after]
    simp
  cases step with
  | setStop here =>
    rw [here] at before
    cases before
  | @mainUnlock chop here =>
    rw [here, Main.unlocking.injEq] at before
    obtain rfl := Fin.ext before
    exact ⟨Function.update_self .., rfl⟩
  | mainJoin => cases after
  | _ => exact absurd rfl moved

/-- Nobody holds the chopstick that `main` unlocks. -/
theorem Guarded.mainUnlock (guarded : Guarded t c) (unlocks : MainUnlocks c t t') (step : Step t t')
    (nobody : ∀ id, ¬ Holds t id c) : Guarded t' c := by
  obtain ⟨unlocked, points⟩ := unlocks.unlocked step
  apply guarded.elsewhere _ points
  rw [unlocked, eq_comm, Bool.eq_false_iff, Ne, guarded.locked]
  rintro ⟨id, held⟩
  exact nobody id held

/-- Every other step keeps the chopstick guarded. -/
theorem Guarded.step (many : 2 ≤ n) (guarded : Guarded t c) (step : Step t t')
    (notMain : ¬ MainUnlocks c t t') : Guarded t' c := by
  cases step with
  | @test id here =>
    apply Guarded.stay guarded
    · rfl
    · rfl
    · rw [Holds, here]
      split <;> rfl
  | @lockFirst id here free =>
    apply guarded.take free
    · rfl
    · intro ne
      rw [Holds, here]
      exact iff_of_false ne not_false
  | @lockSecond id here free =>
    apply guarded.take free
    · exact uses_iff.mpr (.inr rfl)
    · intro ne
      rw [Holds, here]
      exact uses_iff.trans (or_iff_left ne)
  | @unlockRight id here =>
    apply guarded.put
    · rw [Holds, here]
      exact .inr rfl
    · exact (leftChop_ne_rightChop many id).symm
    · intro ne
      rw [Holds, here]
      exact eq_comm.trans (or_iff_left ne.symm).symm
  | @unlockLeft id here =>
    apply guarded.put
    · rw [Holds, here]
      rfl
    · exact not_false
    · intro ne
      rw [Holds, here]
      exact iff_of_false not_false ne
  | setStop => exact guarded.elsewhere rfl rfl
  | @mainUnlock chop here =>
    have ne : c ≠ chop := by
      rintro rfl
      exact notMain ⟨here, rfl⟩
    exact guarded.elsewhere (Function.update_of_ne ne ..) rfl
  | mainJoin => exact guarded.elsewhere rfl rfl

end OsLabs.Pthreads.Asymmetric
