import Mathlib.Logic.Function.Basic
import Mathlib.Logic.Relation

/-! # Monitors

Threads share a state under one mutex and wait on condition variables. One step of a thread is what it
does from taking the mutex to the next wait or to giving the mutex up. A wait stands in a loop that
tests its condition again, so a woken thread takes the step from the same point. A wait may end
without a notification, and `environment` may change the shared state at any time.

A thread that sleeps without having been notified finds its condition as it was when it went to
sleep, provided that every step that changes the condition notifies the thread
(`asleep_waits`).
-/

namespace Monitor

variable {ι σ ρ κ : Type*}

/-- Where a thread stands: at a point of its code, or in a wait, before or after it is woken. -/
inductive Place (ρ κ : Type*) where
  | code (point : ρ)
  | asleep (point : ρ) (cond : κ)
  | woken (point : ρ)

/-- The point from which the thread can take a step. -/
def Place.ready? : Place ρ κ → Option ρ
  | .code point | .woken point => some point
  | .asleep _ _ => none

def Place.point : Place ρ κ → ρ
  | .code point | .asleep point _ | .woken point => point

def Place.inWait : Place ρ κ → Bool
  | .code _ => false
  | .asleep _ _ | .woken _ => true

/-- `pthread_cond_signal` or `pthread_cond_broadcast`. -/
inductive Notification (κ : Type*) where
  | signal (cond : κ)
  | broadcast (cond : κ)

/-- The end of a step: the thread is at its end, or waits, or leaves the mutex. -/
inductive Outcome (σ ρ κ : Type*) where
  | ended
  | wait (cond : κ)
  | leave (shared : σ) (point : ρ) (notifications : List (Notification κ))

structure Program (ι σ ρ κ : Type*) where
  run : ι → ρ → σ → Outcome σ ρ κ
  environment : σ → σ → Prop

structure State (ι σ ρ κ : Type*) where
  shared : σ
  place : ι → Place ρ κ

/-! ## Notifications -/

def Place.wakeOn [DecidableEq κ] (cond : κ) : Place ρ κ → Place ρ κ
  | .asleep point cond' => if cond' = cond then .woken point else .asleep point cond'
  | .code point => .code point
  | .woken point => .woken point

theorem Place.wakeOn_spec [DecidableEq κ] (cond : κ) (place : Place ρ κ) :
    place.wakeOn cond = place ∨ ∃ point, place = .asleep point cond ∧ place.wakeOn cond = .woken point := by
  cases place with
  | code | woken => exact .inl rfl
  | asleep point cond' =>
    rw [wakeOn]
    split
    · next same => exact .inr ⟨point, same ▸ rfl, rfl⟩
    · exact .inl rfl

theorem Place.wakeOn_ne_asleep [DecidableEq κ] (cond : κ) (place : Place ρ κ) (point : ρ) :
    place.wakeOn cond ≠ .asleep point cond := by
  intro sleeps
  rcases place.wakeOn_spec cond with same | ⟨_, _, woken⟩
  · rw [same] at sleeps
    rw [sleeps, wakeOn, if_pos rfl] at same
    cases same
  · rw [woken] at sleeps
    cases sleeps

variable [DecidableEq ι] [DecidableEq κ]

/-- A broadcast wakes every thread that waits on the variable, a signal one of them. -/
inductive Wakes : Notification κ → (ι → Place ρ κ) → (ι → Place ρ κ) → Prop
  | broadcast (cond : κ) (place : ι → Place ρ κ) :
      Wakes (.broadcast cond) place fun i => (place i).wakeOn cond
  | signal {cond : κ} {place : ι → Place ρ κ} {i : ι} {point : ρ} (sleeps : place i = .asleep point cond) :
      Wakes (.signal cond) place (Function.update place i (.woken point))
  | nobody {cond : κ} {place : ι → Place ρ κ} (alone : ∀ i point, place i ≠ .asleep point cond) :
      Wakes (.signal cond) place place

def WakesAll : List (Notification κ) → (ι → Place ρ κ) → (ι → Place ρ κ) → Prop
  | [], place, place' => place' = place
  | n :: ns, place, place' => ∃ between, Wakes n place between ∧ WakesAll ns between place'

theorem wakesAll_broadcast (cond : κ) (place : ι → Place ρ κ) :
    WakesAll [.broadcast cond] place fun i => (place i).wakeOn cond := ⟨_, .broadcast cond place, rfl⟩

theorem exists_wakes (n : Notification κ) (place : ι → Place ρ κ) : ∃ place', Wakes n place place' := by
  cases n with
  | broadcast cond => exact ⟨_, .broadcast cond place⟩
  | signal cond =>
    by_cases sleeper : ∃ i point, place i = .asleep point cond
    · obtain ⟨i, point, sleeps⟩ := sleeper
      exact ⟨_, .signal sleeps⟩
    · exact ⟨place, .nobody fun i point sleeps => sleeper ⟨i, point, sleeps⟩⟩

theorem exists_wakesAll (ns : List (Notification κ)) (place : ι → Place ρ κ) :
    ∃ place', WakesAll ns place place' := by
  induction ns generalizing place with
  | nil => exact ⟨place, rfl⟩
  | cons n ns ih =>
    obtain ⟨between, wakes⟩ := exists_wakes n place
    obtain ⟨place', rest⟩ := ih between
    exact ⟨place', between, wakes, rest⟩

/-- A notification leaves a thread where it is, or wakes it. -/
theorem Wakes.place {n : Notification κ} {place place' : ι → Place ρ κ} (wakes : Wakes n place place') (i : ι) :
    place' i = place i ∨ ∃ point cond, place i = .asleep point cond ∧ place' i = .woken point := by
  cases wakes with
  | broadcast cond =>
    rcases (place i).wakeOn_spec cond with same | ⟨point, sleeps, woken⟩
    · exact .inl same
    · exact .inr ⟨point, cond, sleeps, woken⟩
  | @signal cond _ k point sleeps =>
    by_cases same : i = k
    · rw [same, Function.update_self]
      exact .inr ⟨point, cond, sleeps, rfl⟩
    · rw [Function.update_of_ne same]
      exact .inl rfl
  | nobody => exact .inl rfl

theorem WakesAll.place {ns : List (Notification κ)} {place place' : ι → Place ρ κ}
    (wakes : WakesAll ns place place') (i : ι) :
    place' i = place i ∨ ∃ point cond, place i = .asleep point cond ∧ place' i = .woken point := by
  induction ns generalizing place with
  | nil =>
    rw [WakesAll] at wakes
    exact .inl (congrFun wakes i)
  | cons n ns ih =>
    obtain ⟨between, first, rest⟩ := wakes
    rcases ih rest with same | ⟨point, cond, sleeps, woken⟩
    · rw [same]
      exact first.place i
    · rcases first.place i with same | ⟨_, _, _, already⟩
      · exact .inr ⟨point, cond, same ▸ sleeps, woken⟩
      · rw [already] at sleeps
        cases sleeps

/-- A thread at a point of its code stays there. -/
theorem WakesAll.code_iff {ns : List (Notification κ)} {place place' : ι → Place ρ κ}
    (wakes : WakesAll ns place place') (i : ι) (point : ρ) :
    place' i = .code point ↔ place i = .code point := by
  rcases wakes.place i with same | ⟨_, _, sleeps, woken⟩
  · rw [same]
  · rw [sleeps, woken]
    constructor <;> intro impossible <;> cases impossible

/-- A thread that still sleeps has slept before. -/
theorem WakesAll.of_asleep {ns : List (Notification κ)} {place place' : ι → Place ρ κ}
    (wakes : WakesAll ns place place') {i : ι} {point : ρ} {cond : κ} (sleeps : place' i = .asleep point cond) :
    place i = .asleep point cond := by
  rcases wakes.place i with same | ⟨_, _, _, woken⟩
  · rw [← same, sleeps]
  · rw [woken] at sleeps
    cases sleeps

/-- Nobody sleeps on a variable after a broadcast on it. -/
theorem WakesAll.of_broadcast {ns : List (Notification κ)} {place place' : ι → Place ρ κ}
    (wakes : WakesAll ns place place') {cond : κ} (notified : .broadcast cond ∈ ns) (i : ι) (point : ρ) :
    place' i ≠ .asleep point cond := by
  intro sleeps
  induction ns generalizing place with
  | nil => exact absurd notified List.not_mem_nil
  | cons n ns ih =>
    obtain ⟨between, first, rest⟩ := wakes
    cases notified with
    | tail _ later => exact ih rest later
    | head =>
      have still := rest.of_asleep sleeps
      cases first with
      | broadcast => exact (place i).wakeOn_ne_asleep cond point still

/-- A signal on the variable of a single thread wakes that thread. -/
theorem WakesAll.of_signal {ns : List (Notification κ)} {place place' : ι → Place ρ κ}
    (wakes : WakesAll ns place place') {cond : κ} (notified : .signal cond ∈ ns) {i : ι}
    (single : ∀ k point, place k = .asleep point cond → k = i) (point : ρ) :
    place' i ≠ .asleep point cond := by
  intro sleeps
  induction ns generalizing place with
  | nil => exact absurd notified List.not_mem_nil
  | cons n ns ih =>
    obtain ⟨between, first, rest⟩ := wakes
    have before : ∀ k point, between k = .asleep point cond → place k = .asleep point cond := by
      intro k point' sleeps'
      have all : WakesAll [n] place between := ⟨between, first, rfl⟩
      exact all.of_asleep sleeps'
    cases notified with
    | tail _ later => exact ih rest later fun k point' sleeps' => single k point' (before k point' sleeps')
    | head =>
      have still := rest.of_asleep sleeps
      cases first with
      | @signal _ _ k point' sleeper =>
        obtain rfl := single k point' sleeper
        rw [Function.update_self] at still
        cases still
      | nobody alone => exact alone i point still

/-- While every thread is in its code, notifications change nothing. -/
theorem wakesAll_code {place : ι → Place ρ κ} (awake : ∀ i, ∃ point, place i = .code point)
    (ns : List (Notification κ)) : WakesAll ns place place := by
  induction ns with
  | nil => rfl
  | cons n ns ih =>
    refine ⟨place, ?_, ih⟩
    cases n with
    | broadcast cond =>
      have same : (fun i => (place i).wakeOn cond) = place := by
        funext i
        obtain ⟨point, here⟩ := awake i
        rw [here, Place.wakeOn]
      have wakes := Wakes.broadcast cond place
      rwa [same] at wakes
    | signal cond =>
      apply Wakes.nobody
      intro i point sleeps
      obtain ⟨point', here⟩ := awake i
      rw [here] at sleeps
      cases sleeps

/-! ## Runs -/

omit [DecidableEq κ] in
theorem update_eq_iff {place : ι → Place ρ κ} {i k : ι} {new found : Place ρ κ} :
    Function.update place i new k = found ↔ (k = i ∧ new = found) ∨ (k ≠ i ∧ place k = found) := by
  cases eq_or_ne k i with
  | inl same =>
    rw [same, Function.update_self]
    exact ⟨fun here => .inl ⟨rfl, here⟩, fun here => here.elim And.right fun other => absurd rfl other.1⟩
  | inr other =>
    rw [Function.update_of_ne other]
    exact ⟨fun here => .inr ⟨other, here⟩, fun here => here.elim (fun same => absurd same.1 other) And.right⟩

inductive Step (program : Program ι σ ρ κ) : State ι σ ρ κ → State ι σ ρ κ → Prop
  | wait {s : State ι σ ρ κ} {i : ι} {point : ρ} {cond : κ} (ready : (s.place i).ready? = some point)
      (waits : program.run i point s.shared = .wait cond) :
      Step program s ⟨s.shared, Function.update s.place i (.asleep point cond)⟩
  | leave {s : State ι σ ρ κ} {i : ι} {point point' : ρ} {shared : σ} {ns : List (Notification κ)}
      {place : ι → Place ρ κ} (ready : (s.place i).ready? = some point)
      (leaves : program.run i point s.shared = .leave shared point' ns) (wakes : WakesAll ns s.place place) :
      Step program s ⟨shared, Function.update place i (.code point')⟩
  | spurious {s : State ι σ ρ κ} {i : ι} {point : ρ} {cond : κ} (sleeps : s.place i = .asleep point cond) :
      Step program s ⟨s.shared, Function.update s.place i (.woken point)⟩
  | environment {s : State ι σ ρ κ} {shared : σ} (moves : program.environment s.shared shared) :
      Step program s ⟨shared, s.place⟩

def Reachable (program : Program ι σ ρ κ) : State ι σ ρ κ → State ι σ ρ κ → Prop :=
  Relation.ReflTransGen (Step program)

variable {program : Program ι σ ρ κ} {s₀ s : State ι σ ρ κ}

/-- What holds at the start and is kept by every step holds in every reachable state. -/
theorem Reachable.inv (Inv : State ι σ ρ κ → Prop) (reached : Reachable program s₀ s) (start : Inv s₀)
    (kept : ∀ s s', Reachable program s₀ s → Inv s → Step program s s' → Inv s') : Inv s := by
  induction reached with
  | refl => exact start
  | tail before step ih => exact kept _ _ before ih step

/-- The same for the shared state, where waits and wake-ups change nothing. -/
theorem Reachable.shared_inv (Inv : σ → Prop) (reached : Reachable program s₀ s) (start : Inv s₀.shared)
    (left : ∀ i point shared shared' point' ns, Inv shared →
      program.run i point shared = .leave shared' point' ns → Inv shared')
    (moved : ∀ shared shared', Inv shared → program.environment shared shared' → Inv shared') :
    Inv s.shared := by
  apply reached.inv (fun s => Inv s.shared) start
  intro s s' _ inv step
  cases step with
  | wait => exact inv
  | leave _ leaves => exact left _ _ _ _ _ _ inv leaves
  | spurious => exact inv
  | environment moves => exact moved _ _ inv moves

/-- The notifications wake thread `i` out of a wait on `cond`. -/
def Notified (program : Program ι σ ρ κ) (ns : List (Notification κ)) (i : ι) (cond : κ) : Prop :=
  .broadcast cond ∈ ns ∨
    (.signal cond ∈ ns ∧ ∀ k point shared, program.run k point shared = .wait cond → k = i)

/-- No notification is lost: a thread that sleeps would wait again. -/
theorem Reachable.asleep_waits (reached : Reachable program s₀ s)
    (start : ∀ i, (s₀.place i).inWait = false)
    (notifies : ∀ i point shared shared' point' ns, program.run i point shared = .leave shared' point' ns →
      ∀ k point₁ cond, k ≠ i → program.run k point₁ shared = .wait cond →
        program.run k point₁ shared' = .wait cond ∨ Notified program ns k cond)
    (moved : ∀ shared shared', program.environment shared shared' →
      ∀ k point₁ cond, program.run k point₁ shared = .wait cond → program.run k point₁ shared' = .wait cond)
    {k : ι} {point₁ : ρ} {cond : κ} (sleeps : s.place k = .asleep point₁ cond) :
    program.run k point₁ s.shared = .wait cond := by
  apply reached.inv (fun s => ∀ k point₁ cond, s.place k = .asleep point₁ cond →
    program.run k point₁ s.shared = .wait cond) _ _ k point₁ cond sleeps
  · intro k point₁ cond sleeps
    have awake := start k
    rw [sleeps] at awake
    cases awake
  · intro s s' _ inv step k point₁ cond sleeps
    cases step with
    | wait ready waits =>
      rcases update_eq_iff.mp sleeps with ⟨rfl, same⟩ | ⟨_, sleeps⟩
      · obtain ⟨rfl, rfl⟩ := Place.asleep.inj same
        exact waits
      · exact inv k point₁ cond sleeps
    | leave ready leaves wakes =>
      rcases update_eq_iff.mp sleeps with ⟨_, impossible⟩ | ⟨other, sleeps⟩
      · cases impossible
      · have before := inv k point₁ cond (wakes.of_asleep sleeps)
        rcases notifies _ _ _ _ _ _ leaves k point₁ cond other before with
          still | broadcast | ⟨signal, single⟩
        · exact still
        · exact absurd sleeps (wakes.of_broadcast broadcast k point₁)
        · apply absurd sleeps
          apply wakes.of_signal signal
          intro k' point' sleeps'
          exact single k' point' _ (inv k' point' cond sleeps')
    | spurious =>
      rcases update_eq_iff.mp sleeps with ⟨_, impossible⟩ | ⟨_, sleeps⟩
      · cases impossible
      · exact inv k point₁ cond sleeps
    | environment moves => exact moved _ _ moves k point₁ cond (inv k point₁ cond sleeps)

/-- A thread in a wait stands at a point from which the wait was reached. -/
def Waited (program : Program ι σ ρ κ) (i : ι) (place : Place ρ κ) : Prop :=
  place.inWait = true → ∃ shared cond, program.run i place.point shared = .wait cond

omit [DecidableEq κ] in
theorem Waited.update {place : ι → Place ρ κ} {i : ι} {new : Place ρ κ} (here : Waited program i new)
    (others : ∀ k, Waited program k (place k)) (k : ι) :
    Waited program k (Function.update place i new k) := by
  cases eq_or_ne k i with
  | inl same =>
    rw [same, Function.update_self]
    exact here
  | inr other =>
    rw [Function.update_of_ne other]
    exact others k

omit [DecidableEq ι] [DecidableEq κ] in
theorem Waited.woken {i : ι} {point : ρ} {cond : κ} (waited : Waited program i (.asleep point cond)) :
    Waited program i (.woken point) := fun _ => waited rfl

theorem Reachable.waited (reached : Reachable program s₀ s) (start : ∀ i, (s₀.place i).inWait = false) :
    ∀ i, Waited program i (s.place i) := by
  apply reached.inv fun s => ∀ i, Waited program i (s.place i)
  · intro i inWait
    rw [start i] at inWait
    cases inWait
  · intro s s' _ inv step
    cases step with
    | wait _ waits =>
      apply Waited.update _ inv
      exact fun _ => ⟨s.shared, _, waits⟩
    | leave _ _ wakes =>
      apply Waited.update
      · exact fun impossible => absurd impossible Bool.false_ne_true
      · intro k
        rcases wakes.place k with same | ⟨point, cond, sleeps, woken⟩
        · rw [same]
          exact inv k
        · rw [woken]
          exact (sleeps ▸ inv k : Waited program k (.asleep point cond)).woken
    | spurious sleeps =>
      apply Waited.update _ inv
      exact (sleeps ▸ inv _ : Waited program _ (.asleep _ _)).woken
    | environment => exact inv

/-! ## Progress -/

/-- The thread is at the end of its code. -/
def State.Ended (program : Program ι σ ρ κ) (s : State ι σ ρ κ) (i : ι) : Prop :=
  ∃ point, s.place i = .code point ∧ program.run i point s.shared = .ended

/-- The thread can take a step of its code; a wake-up without a notification does not count. -/
def State.CanStep (program : Program ι σ ρ κ) (s : State ι σ ρ κ) (i : ι) : Prop :=
  ∃ point, (s.place i).ready? = some point ∧ program.run i point s.shared ≠ .ended

/-- Every thread is at its end, can take a step, or sleeps, when only the point decides whether it is the
end. -/
theorem Reachable.ended_or_canStep (reached : Reachable program s₀ s)
    (start : ∀ i, (s₀.place i).inWait = false)
    (ends : ∀ i point shared shared', program.run i point shared = .ended → program.run i point shared' = .ended)
    (i : ι) :
    s.Ended program i ∨ s.CanStep program i ∨ ∃ point cond, s.place i = .asleep point cond := by
  have waited := reached.waited start i
  cases here : s.place i with
  | code point =>
    by_cases ended : program.run i point s.shared = .ended
    · exact .inl ⟨point, here, ended⟩
    · exact .inr (.inl ⟨point, here ▸ rfl, ended⟩)
  | woken point =>
    rw [here] at waited
    obtain ⟨shared, cond, waits⟩ := waited rfl
    refine .inr (.inl ⟨point, here ▸ rfl, fun ended => ?_⟩)
    have impossible := (ends i point _ shared ended).symm.trans waits
    cases impossible
  | asleep point cond => exact .inr (.inr ⟨point, cond, rfl⟩)

end Monitor
