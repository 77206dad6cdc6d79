import OsLabs.Model.Buddy.Search
import OsLabs.Soundness.Buddy.Runs

/-! # Which requests are defined

The loop for the order compares before anything checks the order against `MAX_ORDER`, so a request
of more than 2^30 bytes shifts the 1 out of `int`. Every other request gets through both searches in
whatever state the allocator is, and is refused when it asks for more than the whole memory.
-/

namespace OsLabs.Buddy

open DeterministicRun

variable {s : Memory} {size : ℤ} {neededBlock o : ℕ} {t : Search}

/-- The searches end without a fault, and a request of more than the whole memory gets NULL. -/
structure WellDefined (s : Memory) (size : ℤ) : Prop where
  ends : ∃ n t, run (Search.step s size) n (.order minOrder) = .ok t ∧ t.Final
  refused : 2 ^ 20 < size → buddyAlloc s size = some (s, none)

namespace Search

/-- Both searches from here. -/
def Leads (s : Memory) (size : ℤ) (c t : Search) : Prop := ∃ n, run (step s size) n c = .ok t

theorem Leads.step {c c' : Search} (rest : Leads s size c' t) (taken : Search.step s size c = .ok c') :
    Leads s size c t := by
  obtain ⟨n, ran⟩ := rest
  exact ⟨n + 1, (run_succ taken n).trans ran⟩

theorem step_final (final : t.Final) : Search.step s size t = .ok t := by
  cases t with
  | order neededBlock => exact final.elim
  | list neededBlock o => exact final.elim
  | found neededBlock o => rfl
  | null => rfl

/-- What the search for a list finds, as a state. -/
def opened (neededBlock : ℕ) : Option ℕ → Search
  | some o => .found neededBlock o
  | none => .null

theorem leads_opened (s : Memory) (size : ℤ) (neededBlock above o : ℕ) (total : o + above = maxOrder)
    (low : minOrder ≤ o) :
    Leads s size (.list neededBlock o) (opened neededBlock (openSearch s above o)) := by
  induction above generalizing o with
  | zero =>
    have taken : Search.step s size (.list neededBlock o) = .ok (opened neededBlock (openSearch s 0 o)) := by
      rw [Search.step, openSearch, if_neg (by omega)]
      split
      · rw [if_pos (by omega)]
        rfl
      · rfl
    exact ⟨1, run_succ taken 0⟩
  | succ above ih =>
    rw [openSearch]
    split
    case isTrue empty =>
      apply (ih (o + 1) (by omega) (by omega)).step
      rw [Search.step, if_neg (by omega), if_pos empty, if_neg (by omega)]
    case isFalse nonempty =>
      refine ⟨1, run_succ ?_ 0⟩
      rw [Search.step, if_neg (by omega), if_neg nonempty]
      rfl

theorem leads_order (s : Memory) (bound : size ≤ 2 ^ 30) (shifts n : ℕ) (total : n + shifts = 31)
    (low : minOrder ≤ n) (below : n ≤ orderFor size) :
    Leads s size (.order n) (checked (orderFor size)) := by
  have small : orderFor size ≤ 30 := (orderFor_le_iff size 30).mpr ⟨by decide, bound⟩
  induction shifts generalizing n with
  | zero => omega
  | succ shifts ih =>
    have fits := orderFor_le_iff size n
    have shift : ((1 <<< n : ℕ) : ℤ) = 2 ^ n := by
      rw [Nat.one_shiftLeft]
      norm_cast
    cases Nat.eq_or_lt_of_le below with
    | inl last =>
      refine ⟨1, run_succ ?_ 0⟩
      rw [Search.step, if_neg (by omega), shift, if_neg (not_lt.mpr (fits.mp last.ge).2), last]
    | inr more =>
      have larger : (2 : ℤ) ^ n < size := by
        by_contra enough
        have le := fits.mpr ⟨low, not_lt.mp enough⟩
        omega
      apply (ih (n + 1) (by omega) (by omega) more).step
      rw [Search.step, if_neg (by omega), shift, if_pos larger]

/-- The searches of a request that fits an `int` shift. -/
theorem leads_final (s : Memory) (bound : size ≤ 2 ^ 30) : ∃ t, Leads s size (.order minOrder) t ∧ t.Final ∧
    buddyAlloc s size = splitAndTake s t := by
  have low := minOrder_le_orderFor size
  have search := orderSearch_spec bound (31 - minOrder) minOrder rfl le_rfl low
  obtain ⟨n, ran⟩ := leads_order s bound 19 minOrder rfl le_rfl low
  rw [checked] at ran
  split at ran
  case isTrue large =>
    refine ⟨.null, ⟨n, ran⟩, trivial, ?_⟩
    simp only [buddyAlloc, search, Option.bind_eq_bind, Option.bind_some, if_pos large, Option.pure_def]
    rfl
  case isFalse fits =>
    obtain ⟨m, ran'⟩ := leads_opened s size (orderFor size) (maxOrder - orderFor size) (orderFor size)
      (by omega) low
    refine ⟨opened (orderFor size) (openSearch s (maxOrder - orderFor size) (orderFor size)), ⟨n + m, ?_⟩, ?_, ?_⟩
    · rw [run_add, ran]
      exact ran'
    · cases openSearch s (maxOrder - orderFor size) (orderFor size) <;> exact trivial
    · simp only [buddyAlloc, search, Option.bind_eq_bind, Option.bind_some, if_neg fits, Option.pure_def]
      cases openSearch s (maxOrder - orderFor size) (orderFor size) <;> rfl

/-- What the searches find decides what `buddy_alloc` does. -/
theorem buddyAlloc_eq {n : ℕ} (bound : size ≤ 2 ^ 30) (ran : run (Search.step s size) n (.order minOrder) = .ok t)
    (final : t.Final) : buddyAlloc s size = splitAndTake s t := by
  obtain ⟨t', ⟨n', ran'⟩, final', returned⟩ := leads_final s bound
  have same : t = t' := run_unique ran ran' (step_final final) (step_final final')
  rw [same]
  exact returned

/-- A larger request never leaves the first loop. -/
theorem order_of_large (large : 2 ^ 30 < size) {c : Search} (searching : ∃ k, c = .order k)
    (taken : Search.step s size c = .ok t) : ∃ k, t = .order k := by
  obtain ⟨k, rfl⟩ := searching
  rw [Search.step] at taken
  split at taken
  case isTrue => cases taken
  case isFalse below =>
    have power : 2 ^ k ≤ 2 ^ 30 := Nat.pow_le_pow_right (by decide) (by omega)
    have shift : ((1 <<< k : ℕ) : ℤ) < size := by
      rw [Nat.one_shiftLeft]
      omega
    rw [if_pos shift] at taken
    cases taken
    exact ⟨k + 1, rfl⟩

end Search

open Search

theorem buddyAlloc_of_whole (s : Memory) (more : 2 ^ 20 < size) (bound : size ≤ 2 ^ 30) :
    buddyAlloc s size = some (s, none) := by
  have search := orderSearch_spec bound (31 - minOrder) minOrder rfl le_rfl (minOrder_le_orderFor size)
  have large : orderFor size > maxOrder := by
    by_contra small
    have fits := ((orderFor_le_iff size maxOrder).mp (Nat.le_of_not_lt small)).2
    exact absurd (show size ≤ 2 ^ 20 from fits) (not_le.mpr more)
  simp only [buddyAlloc, search, Option.bind_eq_bind, Option.bind_some, if_pos large, Option.pure_def]

/-- The code meets what it says of NULL, and stays within `int` and `free_area`, for the requests of at
most 2^30 bytes. -/
theorem well_defined_iff (s : Memory) (size : ℤ) : WellDefined s size ↔ size ≤ 2 ^ 30 := by
  constructor
  · rintro ⟨⟨n, t, ran, final⟩, -⟩
    by_contra large
    have kept := run_keeps (fun _ _ taken searching => order_of_large (not_le.mp large) searching taken) n
      ⟨minOrder, rfl⟩ ran
    obtain ⟨k, rfl⟩ := kept
    exact final
  · intro bound
    obtain ⟨t, ⟨n, ran⟩, final, -⟩ := leads_final s bound
    exact ⟨⟨n, t, ran, final⟩, fun more => buddyAlloc_of_whole s more bound⟩

/-- The largest `int` on the initial memory: after nineteen comparisons the 1 is shifted by 31. -/
theorem shift_overflows : ¬ WellDefined (buddyInit zeroed) 2147483647 ∧
    run (Search.step (buddyInit zeroed) 2147483647) 20 (.order minOrder) = .error (.shift 31) :=
  ⟨fun defined => absurd ((well_defined_iff _ _).mp defined) (by decide), rfl⟩

end OsLabs.Buddy
