import OsLabs.Model.Pthreads.Waiter

/-! # The waiter solution is safe and cannot get stuck

A chopstick is unavailable exactly while one of its two philosophers eats. A philosopher that
gives chopsticks back signals everyone who shares one of them, so a philosopher that sleeps without a
signal misses a chopstick, and then somebody eats.
-/

namespace OsLabs.Pthreads.Waiter

open Monitor

variable {n : ℕ} {s s' : Shared n} {t : System n} {id : Fin n} {point : Point}

/-- Between taking and releasing the chopsticks. -/
def Eating (t : System n) (id : Fin n) : Prop := t.place id = .code .eating

theorem setChopsticks_apply (id : Fin n) (available : Bool) (s : Shared n) (c : Fin n) :
    (s.setChopsticks id available).availableChopsticks c =
      if Uses id c then available else s.availableChopsticks c := by
  change Function.update (Function.update s.availableChopsticks (leftChop id) available) (rightChop id)
    available c = _
  by_cases isRight : rightChop id = c
  · rw [if_pos (.inr isRight), isRight, Function.update_self]
  · rw [Function.update_of_ne (Ne.symm isRight)]
    by_cases isLeft : leftChop id = c
    · rw [if_pos (.inl isLeft), isLeft, Function.update_self]
    · rw [Function.update_of_ne (Ne.symm isLeft), if_neg fun uses => uses.elim isLeft isRight]

theorem take_wait_iff {cond : Fin n} : take id s = .wait cond ↔
    cond = id ∧ ∃ c, Uses id c ∧ s.availableChopsticks c = false := by
  rw [take]
  split
  · next both =>
    rw [Bool.and_eq_true] at both
    constructor
    · intro impossible
      cases impossible
    · rintro ⟨_, c, rfl | rfl, missing⟩
      · rw [both.1] at missing
        cases missing
      · rw [both.2] at missing
        cases missing
  · next missing =>
    rw [Bool.not_eq_true, Bool.and_eq_false_iff] at missing
    constructor
    · intro same
      refine ⟨(Outcome.wait.inj same).symm, ?_⟩
      rcases missing with left | right
      · exact ⟨_, .inl rfl, left⟩
      · exact ⟨_, .inr rfl, right⟩
    · rintro ⟨rfl, _⟩
      rfl

theorem take_leave {ns : List (Notification (Fin n))} (leaves : take id s = .leave s' point ns) :
    point = .eating ∧ s' = s.setChopsticks id false ∧ ∀ c, Uses id c → s.availableChopsticks c = true := by
  rw [take] at leaves
  split at leaves
  · next both =>
    rw [Bool.and_eq_true] at both
    cases leaves
    refine ⟨rfl, rfl, ?_⟩
    rintro c (rfl | rfl)
    · exact both.1
    · exact both.2
  · cases leaves

/-- Chopsticks and philosophers agree. -/
structure Seated (t : System n) : Prop where
  unavailable : ∀ c, t.shared.availableChopsticks c = false ↔ ∃ id, Uses id c ∧ Eating t id
  exclusive : ∀ c id other, Uses id c → Uses other c → Eating t id → Eating t other → id = other

theorem seated_setTable : Seated (setTable n) where
  unavailable c := by
    constructor
    · intro impossible
      cases impossible
    · rintro ⟨_, _, impossible⟩
      cases impossible
  exclusive c id other _ _ impossible := by cases impossible

/-- A step in which nobody starts or stops eating. -/
theorem Seated.congr {t' : System n} (seated : Seated t)
    (same : t'.shared.availableChopsticks = t.shared.availableChopsticks)
    (eating : ∀ id, Eating t' id ↔ Eating t id) : Seated t' where
  unavailable c := by
    rw [same, seated.unavailable]
    simp only [eating]
  exclusive c id other uses uses' eats eats' :=
    seated.exclusive c id other uses uses' ((eating _).mp eats) ((eating _).mp eats')

theorem Seated.take {place : Fin n → Place Point (Fin n)} (seated : Seated t)
    (both : ∀ c, Uses id c → t.shared.availableChopsticks c = true)
    (eating : ∀ k, place k = .code .eating ↔ k = id ∨ Eating t k) :
    Seated ⟨t.shared.setChopsticks id false, place⟩ where
  unavailable c := by
    change (t.shared.setChopsticks id false).availableChopsticks c = false ↔ ∃ k, Uses k c ∧ place k = .code .eating
    rw [setChopsticks_apply]
    split
    · next uses => exact iff_of_true rfl ⟨id, uses, (eating id).mpr (.inl rfl)⟩
    · next notUsed =>
      rw [seated.unavailable]
      constructor
      · rintro ⟨k, uses, eats⟩
        exact ⟨k, uses, (eating k).mpr (.inr eats)⟩
      · rintro ⟨k, uses, eats⟩
        rcases (eating k).mp eats with rfl | before
        · exact absurd uses notUsed
        · exact ⟨k, uses, before⟩
  exclusive c k other uses uses' eats eats' := by
    have free {k : Fin n} (mine : Uses id c) (uses : Uses k c) : ¬ Eating t k := by
      intro eats
      have taken := (seated.unavailable c).mpr ⟨k, uses, eats⟩
      rw [both c mine] at taken
      cases taken
    rcases (eating k).mp eats with rfl | before
    · rcases (eating other).mp eats' with rfl | before'
      · rfl
      · exact absurd before' (free uses uses')
    · rcases (eating other).mp eats' with rfl | before'
      · exact absurd before (free uses' uses)
      · exact seated.exclusive c k other uses uses' before before'

theorem Seated.release {place : Fin n → Place Point (Fin n)} (seated : Seated t) (eats : Eating t id)
    (eating : ∀ k, place k = .code .eating ↔ k ≠ id ∧ Eating t k) :
    Seated ⟨t.shared.setChopsticks id true, place⟩ where
  unavailable c := by
    change (t.shared.setChopsticks id true).availableChopsticks c = false ↔ ∃ k, Uses k c ∧ place k = .code .eating
    rw [setChopsticks_apply]
    split
    · next uses =>
      apply iff_of_false Bool.noConfusion
      rintro ⟨k, uses', eats'⟩
      obtain ⟨other, before⟩ := (eating k).mp eats'
      exact other (seated.exclusive c k id uses' uses before eats)
    · next notUsed =>
      rw [seated.unavailable]
      constructor
      · rintro ⟨k, uses, before⟩
        refine ⟨k, uses, (eating k).mpr ⟨?_, before⟩⟩
        rintro rfl
        exact notUsed uses
      · rintro ⟨k, uses, eats'⟩
        exact ⟨k, uses, ((eating k).mp eats').2⟩
  exclusive c k other uses uses' eats₁ eats₂ :=
    seated.exclusive c k other uses uses' ((eating k).mp eats₁).2 ((eating other).mp eats₂).2

/-- A philosopher that is about to put its chopsticks back is not in a wait. -/
theorem eating_of_ready (reached : Reachable (program n) (setTable n) t)
    (ready : (t.place id).ready? = some .eating) : Eating t id := by
  have waited := reached.waited (fun _ => rfl) id
  cases here : t.place id with
  | asleep =>
    rw [here] at ready
    cases ready
  | code point =>
    rw [here] at ready
    obtain rfl := Option.some.inj ready
    exact here
  | woken point =>
    rw [here] at ready waited
    obtain rfl := Option.some.inj ready
    obtain ⟨_, _, impossible⟩ := waited rfl
    cases impossible

theorem not_eating_of_ready (ready : (t.place id).ready? = some point) (other : point ≠ .eating) :
    ¬ Eating t id := by
  intro eats
  rw [eats] at ready
  exact other (Option.some.inj ready).symm

/-- A philosopher moves between places other than eating. -/
theorem Seated.move {place : Fin n → Place Point (Fin n)} {new : Place Point (Fin n)} (seated : Seated t)
    (notEating : ¬ Eating t id) (other : new ≠ .code .eating)
    (still : ∀ k, place k = .code .eating ↔ Eating t k)
    (same : s.availableChopsticks = t.shared.availableChopsticks) :
    Seated ⟨s, Function.update place id new⟩ := by
  apply seated.congr same
  intro k
  change Function.update place id new k = .code .eating ↔ _
  rw [update_eq_iff, still]
  constructor
  · rintro (⟨_, impossible⟩ | ⟨_, eats⟩)
    · exact absurd impossible other
    · exact eats
  · intro eats
    refine .inr ⟨?_, eats⟩
    rintro rfl
    exact notEating eats

theorem reachable_seated (reached : Reachable (program n) (setTable n) t) : Seated t := by
  apply reached.inv Seated seated_setTable
  intro t t' before seated step
  cases step with
  | @wait id point cond ready waits =>
    apply seated.move (not_eating_of_ready ready _) _ (fun _ => Iff.rfl) rfl
    · rintro rfl
      cases waits
    · intro impossible
      cases impossible
  | @leave id point point' shared ns place ready leaves wakes =>
    have still (k : Fin n) : place k = .code .eating ↔ Eating t k := wakes.code_iff k _
    cases point with
    | finished => cases leaves
    | loop =>
      cases leaves
      apply seated.move (not_eating_of_ready ready _) _ still rfl
      · intro impossible
        cases impossible
      · intro impossible
        have same := Place.code.inj impossible
        split at same <;> cases same
    | hungry =>
      obtain ⟨rfl, rfl, both⟩ := take_leave leaves
      apply seated.take both
      intro k
      rw [update_eq_iff, still]
      constructor
      · rintro (⟨same, _⟩ | ⟨_, eats⟩)
        · exact .inl same
        · exact .inr eats
      · intro eats
        cases eq_or_ne k id with
        | inl same => exact .inl ⟨same, rfl⟩
        | inr other => exact .inr ⟨other, eats.resolve_left other⟩
    | eating =>
      cases leaves
      apply seated.release (eating_of_ready before ready)
      intro k
      rw [update_eq_iff, still]
      constructor
      · rintro (⟨_, impossible⟩ | eats)
        · cases impossible
        · exact eats
      · exact .inr
  | spurious sleeps =>
    apply seated.move _ _ (fun _ => Iff.rfl) rfl
    · intro eats
      rw [eats] at sleeps
      cases sleeps
    · intro impossible
      cases impossible
  | environment moves =>
    obtain rfl := moves
    exact seated.congr rfl fun _ => Iff.rfl

/-- A philosopher that sleeps without a signal misses a chopstick. -/
theorem asleep_misses (reached : Reachable (program n) (setTable n) t) {cond : Fin n}
    (sleeps : t.place id = .asleep point cond) :
    ∃ c, Uses id c ∧ t.shared.availableChopsticks c = false := by
  have waitsOnly {k cond : Fin n} {point : Point} {s : Shared n}
      (waits : (program n).run k point s = .wait cond) : point = .hungry ∧ cond = k := by
    cases point with
    | hungry => exact ⟨rfl, (take_wait_iff.mp waits).1⟩
    | _ => cases waits
  have waits : (program n).run id point t.shared = .wait cond := by
    apply reached.asleep_waits (fun _ => rfl) _ _ sleeps
    · intro i from_ s s' point' ns leaves k point₁ cond other waits
      obtain ⟨rfl, rfl⟩ := waitsOnly waits
      obtain ⟨_, c, uses, missing⟩ := take_wait_iff.mp waits
      cases from_ with
      | finished => cases leaves
      | loop =>
        cases leaves
        exact .inl waits
      | hungry =>
        obtain ⟨rfl, rfl, _⟩ := take_leave leaves
        refine .inl (take_wait_iff.mpr ⟨rfl, c, uses, ?_⟩)
        rw [setChopsticks_apply, missing, ite_self]
      | eating =>
        cases leaves
        by_cases shared : Uses i c
        · apply Or.inr
          refine .inr ⟨?_, fun _ _ _ waits' => (waitsOnly waits').2.symm⟩
          rcases shared.neighbours uses other with left | right
          · rw [left]
            exact List.mem_cons_self
          · rw [right]
            exact List.mem_cons_of_mem _ List.mem_cons_self
        · refine .inl (take_wait_iff.mpr ⟨rfl, c, uses, ?_⟩)
          rw [setChopsticks_apply, if_neg shared]
          exact missing
    · rintro s s' rfl k point₁ cond waits
      obtain ⟨rfl, rfl⟩ := waitsOnly waits
      obtain ⟨_, missing⟩ := take_wait_iff.mp waits
      exact take_wait_iff.mpr ⟨rfl, missing⟩
  obtain ⟨rfl, rfl⟩ := waitsOnly waits
  exact (take_wait_iff.mp waits).2

/-- In every reachable state the flags tell who eats, neighbours never eat at the same time, a sleeping
philosopher misses a chopstick, and the unfinished philosophers do not all sleep. -/
theorem waiter_safe (many : 2 ≤ n) (reached : Reachable (program n) (setTable n) t) :
    (∀ c, t.shared.availableChopsticks c = false ↔ ∃ id, Uses id c ∧ Eating t id) ∧
    (∀ c id other, Uses id c → Uses other c → Eating t id → Eating t other → id = other) ∧
    (∀ id, Eating t id → ¬ Eating t (leftPhil id) ∧ ¬ Eating t (rightPhil id)) ∧
    (∀ id point cond, t.place id = .asleep point cond →
      t.shared.availableChopsticks (leftChop id) = false ∨
        t.shared.availableChopsticks (rightChop id) = false) ∧
    ¬ ((∃ id, ¬ t.Ended (program n) id) ∧
      ∀ id, ¬ t.Ended (program n) id → ∃ point cond, t.place id = .asleep point cond) := by
  have seated := reachable_seated reached
  refine ⟨seated.unavailable, seated.exclusive, fun id eats => ⟨fun eats' => ?_, fun eats' => ?_⟩,
    fun id point cond sleeps => ?_, ?_⟩
  · apply leftPhil_ne many id
    exact seated.exclusive id _ _ (uses_leftPhil id) (.inl rfl) eats' eats
  · apply rightPhil_ne many id
    exact seated.exclusive (rightChop id) _ _ (.inl rfl) (.inr rfl) eats' eats
  · obtain ⟨c, rfl | rfl, missing⟩ := asleep_misses reached sleeps
    · exact .inl missing
    · exact .inr missing
  · rintro ⟨⟨id, unfinished⟩, allAsleep⟩
    obtain ⟨point, cond, sleeps⟩ := allAsleep id unfinished
    obtain ⟨c, _, missing⟩ := asleep_misses reached sleeps
    obtain ⟨other, _, eats⟩ := (seated.unavailable c).mp missing
    have busy : ¬ t.Ended (program n) other := by
      rintro ⟨point, here, ended⟩
      obtain rfl := Place.code.inj (here.symm.trans eats)
      cases ended
    obtain ⟨_, _, sleeps'⟩ := allAsleep other busy
    rw [eats] at sleeps'
    cases sleeps'

/-- The first of two philosophers takes both chopsticks. -/
theorem waiter_safe_two :
    let hungry : System 2 := ⟨(setTable 2).shared, Function.update (setTable 2).place 0 (.code .hungry)⟩
    let eats : System 2 := ⟨hungry.shared.setChopsticks 0 false, Function.update hungry.place 0 (.code .eating)⟩
    Reachable (program 2) (setTable 2) eats ∧ ¬ Eating eats 1 ∧ eats.shared.availableChopsticks 1 = false := by
  intro hungry eats
  have first : Step (program 2) (setTable 2) hungry := .leave (i := 0) rfl rfl rfl
  have second : Step (program 2) hungry eats := .leave (i := 0) rfl rfl rfl
  have reached : Reachable (program 2) (setTable 2) eats := (Relation.ReflTransGen.single first).tail second
  obtain ⟨unavailable, _, neighbours, _⟩ := waiter_safe (Nat.le_refl 2) reached
  exact ⟨reached, (neighbours 0 rfl).1, (unavailable 1).mpr ⟨0, .inr rfl, rfl⟩⟩

end OsLabs.Pthreads.Waiter
