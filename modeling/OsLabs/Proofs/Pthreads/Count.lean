import Mathlib.Algebra.Order.BigOperators.Group.Finset
import Mathlib.Algebra.Ring.Int.Defs
import OsLabs.Model.Pthreads.Count
import OsLabs.ToMathlib.FiniteRuns

/-! # The mutex makes the addition one step

While a thread is between its lock and its unlock no other thread is, so the register that it stores from
holds the current `count`. Each step of `ptcount_mutex.c` therefore is a step of `ptcount_atomic.c`,
whose count is the number of additions that have been made times `inc`.
-/

namespace OsLabs.Pthreads.Count

open FiniteRuns Relation

variable {n : ℕ} {args : ThreadArgs}

/-- How often each thread goes around. -/
def ThreadArgs.rounds (args : ThreadArgs) : ℕ := args.loop.toNat

/-- No sum of the threads leaves the range of `int`. -/
def ThreadArgs.Fits (args : ThreadArgs) (n : ℕ) : Prop :=
  -2 ^ 31 ≤ n * args.rounds * args.inc ∧ n * args.rounds * args.inc < 2 ^ 31

instance (args : ThreadArgs) (n : ℕ) : Decidable (args.Fits n) := inferInstanceAs (Decidable (_ ∧ _))

theorem ThreadArgs.Fits.mul_bmod (fits : args.Fits n) {made : ℕ} (le : made ≤ n * args.rounds) :
    (made * args.inc : ℤ).bmod (2 ^ 32) = made * args.inc := by
  obtain ⟨low, high⟩ := fits
  have most : (made : ℤ) ≤ n * args.rounds := by exact_mod_cast le
  rcases Int.le_total 0 args.inc with positive | negative
  · have above := Int.mul_le_mul_of_nonneg_right most positive
    have nonneg := Int.mul_nonneg (Int.natCast_nonneg made) positive
    exact Int.bmod_eq_of_le (by omega) (by omega)
  · have below := Int.mul_le_mul_of_nonpos_right most negative
    have nonpos := Int.mul_nonpos_of_nonneg_of_nonpos (Int.natCast_nonneg made) negative
    exact Int.bmod_eq_of_le (by omega) (by omega)

namespace Atomic

variable {t t' : System n} {id : Fin n} {thread moved : Thread}

/-- The additions that a thread has made. -/
def Thread.additions (thread : Thread) : ℤ := thread.i + if thread.point = .addLoc then 1 else 0

structure Thread.Counts (args : ThreadArgs) (thread : Thread) : Prop where
  nonneg : 0 ≤ thread.i
  le : thread.i ≤ args.rounds
  loc : thread.loc = (thread.i * args.inc).bmod (2 ^ 32)
  inside : thread.point = .add ∨ thread.point = .addLoc → thread.i < args.loop
  behind : thread.point = .finished → args.loop ≤ thread.i

/-- `count` is what the threads have added to it. -/
structure Counted (args : ThreadArgs) (t : System n) : Prop where
  thread : ∀ id, (t.thread id).Counts args
  count : t.count = ((∑ id, (t.thread id).additions) * args.inc).bmod (2 ^ 32)

/-- `count` is an `int`. -/
theorem Counted.count_bmod (counted : Counted args t) : t.count.bmod (2 ^ 32) = t.count := by
  rw [counted.count, Int.bmod_bmod]

theorem Counted.move (counted : Counted args t) (is : t.thread id = thread)
    (threads : t'.thread = Function.update t.thread id moved) (counts : moved.Counts args)
    (count : t'.count = (t.count + (moved.additions - thread.additions) * args.inc).bmod (2 ^ 32)) : Counted args t' := by
  constructor
  · intro k
    rw [threads]
    cases eq_or_ne k id with
    | inl same =>
      rw [same, Function.update_self]
      exact counts
    | inr ne =>
      rw [Function.update_of_ne ne]
      exact counted.thread k
  · have total := sum_update_add Thread.additions t.thread id moved
    rw [is] at total
    rw [count, counted.count, Int.bmod_add_bmod, threads, ← Int.add_mul]
    congr 2
    omega

theorem Counted.step (counted : Counted args t) (step : Step args t t') : Counted args t' := by
  cases step with
  | @test id thread is here =>
    have counts := is ▸ counted.thread id
    by_cases more : thread.i < args.loop
    · rw [if_pos more]
      apply counted.move is rfl
      · exact ⟨counts.nonneg, counts.le, counts.loc, fun _ => more, fun impossible => Point.noConfusion impossible⟩
      · simpa [System.move, Thread.additions, here] using counted.count_bmod.symm
    · rw [if_neg more]
      apply counted.move is rfl
      · refine ⟨counts.nonneg, counts.le, counts.loc, ?_, fun _ => Int.not_lt.mp more⟩
        rintro (impossible | impossible) <;> cases impossible
      · simpa [System.move, Thread.additions, here] using counted.count_bmod.symm
  | @add id thread is here =>
    have counts := is ▸ counted.thread id
    apply counted.move is rfl
    · exact ⟨counts.nonneg, counts.le, counts.loc, fun _ => counts.inside (.inl here),
        fun impossible => Point.noConfusion impossible⟩
    · simp [Thread.additions, here, addInt]
  | @addLoc id thread is here =>
    have counts := is ▸ counted.thread id
    have inside := counts.inside (.inr here)
    have nonneg := counts.nonneg
    apply counted.move is rfl
    · refine ⟨Int.le_add_one nonneg, ?_, ?_, ?_, fun impossible => Point.noConfusion impossible⟩
      · change thread.i + 1 ≤ (args.loop.toNat : ℤ)
        omega
      · change addInt thread.loc args.inc = ((thread.i + 1) * args.inc).bmod (2 ^ 32)
        rw [addInt, counts.loc, Int.bmod_add_bmod, Int.add_mul, Int.one_mul]
      · rintro (impossible | impossible) <;> cases impossible
    · simpa [System.move, Thread.additions, here] using counted.count_bmod.symm

theorem Thread.Counts.additions_le (counts : thread.Counts args) :
    0 ≤ thread.additions ∧ thread.additions ≤ args.rounds := by
  have nonneg := counts.nonneg
  rw [Thread.additions]
  split
  · next here =>
    have inside := counts.inside (.inr here)
    rw [ThreadArgs.rounds]
    omega
  · have le := counts.le
    omega

/-- `count` never leaves the range between 0 and its last value. -/
theorem Counted.range (counted : Counted args t) (fits : args.Fits n) :
    ∃ made : ℕ, made ≤ n * args.rounds ∧ t.count = made * args.inc := by
  have nonneg : 0 ≤ ∑ id, (t.thread id).additions :=
    Finset.sum_nonneg fun id _ => (counted.thread id).additions_le.1
  have le : ∑ id, (t.thread id).additions ≤ (n * args.rounds : ℕ) := by
    have most := Finset.sum_le_card_nsmul Finset.univ (fun id => (t.thread id).additions) args.rounds
      fun id _ => (counted.thread id).additions_le.2
    rwa [Finset.card_univ, Fintype.card_fin, nsmul_eq_mul, ← Int.natCast_mul] at most
  obtain ⟨made, same⟩ := Int.eq_ofNat_of_zero_le nonneg
  rw [same] at le
  have small : made ≤ n * args.rounds := by exact_mod_cast le
  refine ⟨made, small, ?_⟩
  rw [counted.count, same, fits.mul_bmod small]

/-- All threads have finished. -/
theorem Counted.finished (counted : Counted args t) (fits : args.Fits n)
    (finished : ∀ id, (t.thread id).point = .finished) :
    (∀ id, (t.thread id).loc = args.rounds * args.inc) ∧ t.count = n * (args.rounds * args.inc) := by
  have all (id : Fin n) : (t.thread id).i = args.rounds := by
    have counts := counted.thread id
    have behind := counts.behind (finished id)
    have le := counts.le
    have nonneg := counts.nonneg
    rw [ThreadArgs.rounds] at le ⊢
    omega
  constructor
  · intro id
    rw [(counted.thread id).loc, all id, fits.mul_bmod (Nat.le_mul_of_pos_left _ id.pos)]
  · have made (id : Fin n) : (t.thread id).additions = args.rounds := by
      rw [Thread.additions, all id, finished id, if_neg Point.noConfusion, Int.add_zero]
    rw [counted.count, Finset.sum_congr rfl fun id _ => made id, Finset.sum_const, Finset.card_univ,
      Fintype.card_fin, nsmul_eq_mul, ← Int.natCast_mul, fits.mul_bmod (Nat.le_refl _), Int.natCast_mul, Int.mul_assoc]

end Atomic

namespace Mutex

variable {t t' : System n} {id : Fin n} {thread moved : Thread}

/-- The point of the atomic program: the addition is made by the store. -/
def Point.atomic : Point → Atomic.Point
  | .test => .test
  | .lock | .load | .store => .add
  | .unlock | .addLoc => .addLoc
  | .finished => .finished

def Thread.atomic (thread : Thread) : Atomic.Thread := ⟨thread.point.atomic, thread.i, thread.loc⟩

def System.atomic (t : System n) : Atomic.System n := ⟨t.count, fun id => (t.thread id).atomic⟩

/-- Between the lock and the unlock. -/
def Point.Critical : Point → Prop
  | .load | .store | .unlock => True
  | .test | .lock | .addLoc | .finished => False

/-- The mutex is locked while one thread is in its critical section, and what that thread has loaded is
the count. -/
structure Excluded (t : System n) : Prop where
  alone : ∀ id other, (t.thread id).point.Critical → (t.thread other).point.Critical → id = other
  locked : t.countMutex = true ↔ ∃ id, (t.thread id).point.Critical
  register : ∀ id, (t.thread id).point = .store → (t.thread id).register = t.count

theorem critical_update_iff {k : Fin n} :
    (Function.update t.thread id moved k).point.Critical ↔
      (k = id ∧ moved.point.Critical) ∨ (k ≠ id ∧ (t.thread k).point.Critical) := by
  cases eq_or_ne k id with
  | inl same =>
    rw [same, Function.update_self]
    exact ⟨fun critical => .inl ⟨rfl, critical⟩, fun critical => critical.elim And.right fun ne => absurd rfl ne.1⟩
  | inr ne =>
    rw [Function.update_of_ne ne]
    exact ⟨fun critical => .inr ⟨ne, critical⟩, fun critical => critical.elim (fun same => absurd same.1 ne) And.right⟩

/-- A thread stays in its critical section or outside of it. -/
theorem Excluded.stay (excluded : Excluded t) (is : t.thread id = thread)
    (threads : t'.thread = Function.update t.thread id moved) (mutex : t'.countMutex = t.countMutex)
    (same : moved.point.Critical ↔ thread.point.Critical)
    (register : ∀ k, (t'.thread k).point = .store → (t'.thread k).register = t'.count) : Excluded t' := by
  have critical (k : Fin n) : (t'.thread k).point.Critical ↔ (t.thread k).point.Critical := by
    rw [threads, critical_update_iff, same, ← is]
    constructor
    · rintro (⟨rfl, critical⟩ | critical)
      · exact critical
      · exact critical.2
    · intro critical
      cases eq_or_ne k id with
      | inl here => exact .inl ⟨here, here ▸ critical⟩
      | inr ne => exact .inr ⟨ne, critical⟩
  refine ⟨fun k other inside inside' => ?_, ?_, register⟩
  · exact excluded.alone k other ((critical k).mp inside) ((critical other).mp inside')
  · rw [mutex, excluded.locked]
    exact exists_congr fun k => (critical k).symm

/-- No thread other than this one is before a store. -/
theorem register_update {count : ℤ} (others : ∀ k ≠ id, (t.thread k).point = .store → (t.thread k).register = count)
    (own : moved.point = .store → moved.register = count) (k : Fin n)
    (here : (Function.update t.thread id moved k).point = .store) :
    (Function.update t.thread id moved k).register = count := by
  cases eq_or_ne k id with
  | inl same =>
    rw [same, Function.update_self] at here ⊢
    exact own here
  | inr ne =>
    rw [Function.update_of_ne ne] at here ⊢
    exact others k ne here

theorem Excluded.step (excluded : Excluded t) (step : Step args t t') : Excluded t' := by
  cases step with
  | @test id thread is here =>
    refine excluded.stay is rfl rfl ?_ ?_
    · rw [here]
      split <;> rfl
    · apply register_update fun k _ => excluded.register k
      intro impossible
      dsimp only at impossible
      split at impossible <;> cases impossible
  | @lock id thread is here free =>
    have outside (k : Fin n) : ¬ (t.thread k).point.Critical := by
      intro critical
      exact Bool.false_ne_true (free.symm.trans (excluded.locked.mpr ⟨k, critical⟩))
    have own (k : Fin n) (critical : (Function.update t.thread id { thread with point := .load } k).point.Critical) :
        k = id := by
      rcases critical_update_iff.mp critical with inside | inside
      · exact inside.1
      · exact absurd inside.2 (outside k)
    refine ⟨fun k other inside inside' => (own k inside).trans (own other inside').symm, ?_, ?_⟩
    · exact iff_of_true rfl ⟨id, critical_update_iff.mpr (.inl ⟨rfl, trivial⟩)⟩
    · exact register_update (fun k _ => excluded.register k) fun impossible => Point.noConfusion impossible
  | @load id thread is here =>
    refine excluded.stay is rfl rfl ?_ ?_
    · rw [here]
      rfl
    · exact register_update (fun k _ => excluded.register k) fun _ => rfl
  | @store id thread is here =>
    refine excluded.stay is rfl rfl ?_ ?_
    · rw [here]
      rfl
    · apply register_update
      · intro k ne there
        refine absurd (excluded.alone k id ?_ ?_) ne
        · rw [there]
          trivial
        · rw [is, here]
          trivial
      · exact fun impossible => Point.noConfusion impossible
  | @unlock id thread is here =>
    have outside (k : Fin n) : ¬ (Function.update t.thread id { thread with point := .addLoc } k).point.Critical := by
      rw [critical_update_iff]
      rintro (⟨_, critical⟩ | ⟨ne, critical⟩)
      · exact critical
      · refine ne (excluded.alone k id critical ?_)
        rw [is, here]
        trivial
    refine ⟨fun k _ critical => absurd critical (outside k), ?_, ?_⟩
    · exact iff_of_false Bool.false_ne_true fun ⟨k, critical⟩ => outside k critical
    · exact register_update (fun k _ => excluded.register k) fun impossible => Point.noConfusion impossible
  | @addLoc id thread is here =>
    refine excluded.stay is rfl rfl ?_ ?_
    · rw [here]
      rfl
    · exact register_update (fun k _ => excluded.register k) fun impossible => Point.noConfusion impossible

/-! ## Refinement -/

theorem System.atomic_move (t : System n) (id : Fin n) (moved : Thread) :
    (t.move id moved).atomic = t.atomic.move id moved.atomic := by
  rw [atomic, atomic, Atomic.System.move]
  congr 1
  funext k
  exact Function.apply_update (fun _ => Thread.atomic) t.thread id moved k

/-- Nothing happens in the atomic program. -/
theorem System.atomic_move_of_eq (is : t.thread id = thread) (same : moved.atomic = thread.atomic) :
    (t.move id moved).atomic = t.atomic := by
  rw [atomic_move, same, ← is, Atomic.System.move]
  congr 1
  exact Function.update_eq_self id t.atomic.thread

/-- A step of the mutex program is none of the atomic one or one. -/
theorem atomic_step (excluded : Excluded t) (step : Step args t t') :
    t'.atomic = t.atomic ∨ Atomic.Step args t.atomic t'.atomic := by
  cases step with
  | @test id thread is here =>
    right
    have is' : t.atomic.thread id = thread.atomic := congrArg Thread.atomic is
    have here' : thread.atomic.point = .test := congrArg Point.atomic here
    have step : Atomic.Step args t.atomic _ := .test is' here'
    rw [System.atomic_move]
    convert step using 2
    rw [Thread.atomic, Thread.atomic, apply_ite Point.atomic]
    rfl
  | @lock id thread is here free =>
    left
    exact System.atomic_move_of_eq is (by rw [Thread.atomic, Thread.atomic, here]; rfl)
  | @load id thread is here =>
    left
    exact System.atomic_move_of_eq is (by rw [Thread.atomic, Thread.atomic, here]; rfl)
  | @store id thread is here =>
    right
    have loaded : thread.register = t.count := by
      have register := excluded.register id
      rw [is] at register
      exact register here
    have is' : t.atomic.thread id = thread.atomic := congrArg Thread.atomic is
    have here' : thread.atomic.point = .add := congrArg Point.atomic here
    have step : Atomic.Step args t.atomic { t.atomic.move id (Thread.atomic { thread with point := .unlock }) with
        count := addInt thread.register args.inc } := by
      rw [loaded]
      exact .add is' here'
    have moves := System.atomic_move t id { thread with point := .unlock }
    have same := congrArg (fun u : Atomic.System n => { u with count := addInt thread.register args.inc }) moves
    exact Eq.mpr (congrArg (Atomic.Step args t.atomic) same) step
  | @unlock id thread is here =>
    left
    exact System.atomic_move_of_eq is (by rw [Thread.atomic, Thread.atomic, here]; rfl)
  | @addLoc id thread is here =>
    right
    have step : Atomic.Step args t.atomic _ := .addLoc (congrArg Thread.atomic is) (congrArg Point.atomic here)
    rw [System.atomic_move]
    exact step

end Mutex

end OsLabs.Pthreads.Count
