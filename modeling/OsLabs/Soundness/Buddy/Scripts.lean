import OsLabs.Model.Buddy.Simulator
import OsLabs.Soundness.Buddy.Runs
import OsLabs.ToMathlib.DeterministicRun

/-! # Scripts free live blocks only

A failed allocation leaves a variable that is in use without a block, but its status ends the loop.
So whenever another line is read, the variables in use hold the bases of live blocks, one each, and
what the line frees is one of them.
-/

namespace OsLabs.Buddy

open DyadicTiling DyadicTiling.Block DeterministicRun

namespace Simulator

variable {g : Getline} {before : Memory} {s s' : Simulator} {status : Status} {cmd : List Char} {l l' : Live}

/-- The variables in use hold live blocks, each its own. -/
structure Safe (s : Simulator) : Prop where
  holds : ∀ v, (s.varMap v).inUse = true → ∃ l ∈ s.live, (s.varMap v).mem = some l.addr
  distinct : ∀ v v', (s.varMap v).inUse = true → (s.varMap v').inUse = true →
    (s.varMap v).mem = (s.varMap v').mem → v = v'

/-- The allocator keeps its invariant with the blocks that the program has not freed. -/
def Allocated (s : Simulator) : Prop := ∃ lists free, Inv s.memory s.live lists free

/-- Live blocks at one address are one block. -/
theorem addr_inj {memory : Memory} {live : List Live} {lists : ℕ → List ℕ} {free : Set Block}
    (inv : Inv memory live lists free) (inLive : l ∈ live) (inLive' : l' ∈ live) (same : l.addr = l'.addr) :
    l.block = l'.block := by
  have head : headPage l.block = headPage l'.block := by
    rw [headPage, headPage, inv.starts l inLive, inv.starts l' inLive', same]
  exact eq_of_headPage inv.valid.coalesced.tiling (.inr (.inr (mem_liveSet inLive))) (.inr (.inr (mem_liveSet inLive'))) head

theorem setVar_self (s : Simulator) (v : Char) (var : VarT) : (s.setVar v var).varMap v = var :=
  Function.update_self ..

theorem setVar_of_ne (s : Simulator) {v v' : Char} (var : VarT) (other : v' ≠ v) :
    (s.setVar v var).varMap v' = s.varMap v' := Function.update_of_ne other ..

/-- A command that succeeds keeps the variables safe; one that fails still leaves the allocator whole. -/
structure Kept (s' : Simulator) (status : Status) : Prop where
  allocated : s'.Allocated
  safe : status = .success → s'.Safe

theorem Safe.parseAlloc (safe : s.Safe) (allocated : s.Allocated)
    (ran : s.parseAlloc cmd = .ok (s', status)) : Kept s' status := by
  rw [Simulator.parseAlloc] at ran
  split at ran
  · cases ran
  split at ran
  · cases ran
    exact ⟨allocated, fun _ => safe⟩
  next v size _ =>
  split at ran
  · cases ran
    exact ⟨allocated, fun _ => safe⟩
  obtain ⟨lists, free, inv⟩ := allocated
  split at ran
  · cases ran
  · next memory failure =>
    cases ran
    obtain rfl := inv.outOfMemory failure
    exact ⟨⟨lists, free, inv⟩, fun impossible => by cases impossible⟩
  · next memory addr success =>
    cases ran
    obtain ⟨lists', free', inv', -⟩ := inv.alloc success
    refine ⟨⟨lists', free', inv'⟩, fun _ => ?_⟩
    -- no variable holds the new block: the live blocks are different
    have fresh {v' : Char} (inUse : (s.varMap v').inUse = true) : (s.varMap v').mem ≠ some addr := by
      intro same
      obtain ⟨l, inLive, mem⟩ := safe.holds v' inUse
      have address : l.addr = addr := Option.some.inj (mem.symm.trans same)
      have blocks := addr_inj inv' (List.mem_cons_of_mem _ inLive) List.mem_cons_self address
      have absent := (List.nodup_cons.mp inv'.distinct).1
      exact absent (blocks ▸ List.mem_map_of_mem inLive)
    constructor
    · intro v' inUse
      by_cases is : v' = v
      · subst is
        rw [setVar_self]
        exact ⟨⟨addr, size⟩, List.mem_cons_self, rfl⟩
      · rw [setVar_of_ne _ _ is] at inUse ⊢
        obtain ⟨l, inLive, mem⟩ := safe.holds v' inUse
        exact ⟨l, List.mem_cons_of_mem _ inLive, mem⟩
    · intro v₁ v₂ inUse₁ inUse₂ same
      by_cases first : v₁ = v
      · by_cases second : v₂ = v
        · rw [first, second]
        · subst first
          rw [setVar_of_ne _ _ second] at inUse₂ same
          rw [setVar_self] at same
          exact (fresh inUse₂ same.symm).elim
      · rw [setVar_of_ne _ _ first] at inUse₁ same
        by_cases second : v₂ = v
        · subst second
          rw [setVar_self] at same
          exact (fresh inUse₁ same).elim
        · rw [setVar_of_ne _ _ second] at inUse₂ same
          exact safe.distinct v₁ v₂ inUse₁ inUse₂ same

theorem freeVar_inUse {v : Char} (found : s.freeVar cmd = .ok v) : (s.varMap v).inUse = true := by
  rw [freeVar] at found
  split at found
  · cases found
  · split at found
    · cases found
    · split at found
      · cases found
      · next used =>
        cases found
        simpa using used

theorem Safe.parseFree (safe : s.Safe) (allocated : s.Allocated)
    (ran : s.parseFree cmd = .ok (s', status)) : Kept s' status := by
  rw [Simulator.parseFree] at ran
  split at ran
  · cases ran
    exact ⟨allocated, fun _ => safe⟩
  · next v found =>
    have inUse := freeVar_inUse found
    obtain ⟨lists, free, inv⟩ := allocated
    split at ran
    · cases ran
    · next addr mem =>
      obtain ⟨l, inLive, address⟩ : ∃ l ∈ s.live, l.addr = addr := by
        obtain ⟨l, inLive, holds⟩ := safe.holds v inUse
        exact ⟨l, inLive, Option.some.inj (holds.symm.trans mem)⟩
      obtain ⟨l, first⟩ : ∃ l, s.live.find? (·.addr = addr) = some l := by
        rw [← Option.isSome_iff_exists, List.find?_isSome]
        exact ⟨l, inLive, decide_eq_true address⟩
      have inLive := List.mem_of_find?_eq_some first
      have address : l.addr = addr := by simpa using List.find?_some first
      have forgotten : forget s.live addr = s.live.erase l := by rw [forget, first]; rfl
      have size : (s.memory.gPages (addrToPage addr)).blockSize = orderFor l.size := by
        have head := inv.valid.blockSize l.block (.inr (.inr (mem_liveSet inLive)))
        rwa [headPage, inv.starts l inLive, address] at head
      rw [freeBlock, size] at ran
      split at ran
      · cases ran
      · next defined =>
        have unset : orderFor l.size = maxOrder → (s.memory.gPages nPages).isFree = false := by
          intro whole
          apply eq_false_of_ne_true
          exact fun passes => defined ⟨whole, passes⟩
        obtain ⟨memory, lists', free', freed, inv', -⟩ := inv.release inLive unset
        rw [address] at freed
        rw [freed] at ran
        cases ran
        refine ⟨⟨lists', free', ?_⟩, fun _ => ?_⟩
        · change Inv memory (forget s.live addr) lists' free'
          rwa [forgotten]
        constructor
        · intro v' inUse'
          by_cases is : v' = v
          · subst is
            rw [setVar_self] at inUse'
            cases inUse'
          · rw [setVar_of_ne _ _ is] at inUse' ⊢
            obtain ⟨l', inLive', holds⟩ := safe.holds v' inUse'
            have other : l' ≠ l := by
              rintro rfl
              apply is
              apply safe.distinct v' v inUse' inUse
              rw [holds, mem, address]
            refine ⟨l', ?_, holds⟩
            change l' ∈ forget s.live addr
            rw [forgotten]
            exact (List.mem_erase_of_ne other).mpr inLive'
        · intro v₁ v₂ inUse₁ inUse₂ same
          have ne {v' : Char} (inUse' : ((({ s with memory, live := forget s.live addr } : Simulator).setVar v
              ⟨none, false⟩).varMap v').inUse = true) : v' ≠ v := by
            rintro rfl
            rw [setVar_self] at inUse'
            cases inUse'
          have first := ne inUse₁
          have second := ne inUse₂
          rw [setVar_of_ne _ _ first] at inUse₁ same
          rw [setVar_of_ne _ _ second] at inUse₂ same
          exact safe.distinct v₁ v₂ inUse₁ inUse₂ same

theorem Safe.parseCommand (safe : s.Safe) (allocated : s.Allocated) {buffer : ℕ → Char} {len : ℕ}
    (ran : s.parseCommand buffer len = .ok (s', status)) : Kept s' status := by
  rw [Simulator.parseCommand] at ran
  split at ran
  · cases ran
    exact ⟨allocated, fun _ => safe⟩
  · split at ran
    · exact safe.parseAlloc allocated ran
    · split at ran
      · exact safe.parseFree allocated ran
      · cases ran
        exact ⟨allocated, fun _ => safe⟩

theorem Kept.step (kept : Kept s s.status) (taken : step g s = .ok s') : Kept s' s'.status := by
  rw [Simulator.step] at taken
  split at taken
  · next reads =>
    have safe := kept.safe reads.1
    cases ran : Simulator.parseCommand { s with input := (getline s.input).2, linenum := s.linenum + 1 }
        (buffer (getline s.input).1 (g.stale (s.linenum + 1))) (g.len (s.linenum + 1)) with
    | error fault =>
      simp only [ran, bind, Except.bind] at taken
      cases taken
    | ok r =>
      obtain ⟨t, status⟩ := r
      simp only [ran, bind, Except.bind] at taken
      cases taken
      have read : Safe { s with input := (getline s.input).2, linenum := s.linenum + 1 } :=
        ⟨safe.holds, safe.distinct⟩
      obtain ⟨allocated, safe'⟩ := read.parseCommand kept.allocated ran
      refine ⟨allocated, fun success => ?_⟩
      have after := safe' success
      exact ⟨after.holds, after.distinct⟩
  · cases taken
    exact kept

theorem kept_initial (before : Memory) (script : List Char) : Kept (initial before script) .success where
  allocated := ⟨_, _, inv_init before⟩
  safe _ := ⟨fun _ unused => (Bool.false_ne_true unused).elim, fun _ _ unused => (Bool.false_ne_true unused).elim⟩

theorem Safe.freed (safe : s.Safe) {arg : Option ℕ} (frees : freed g s = some arg) :
    ∃ l ∈ s.live, arg = some l.addr := by
  rw [Simulator.freed] at frees
  split at frees
  · obtain ⟨cmd, -, frees⟩ := Option.bind_eq_some_iff.mp frees
    split at frees
    · cases frees
    · split at frees
      · cases frees
      · next v found =>
        cases frees
        exact safe.holds v (freeVar_inUse found)
  · cases frees

/-- Whenever the program reads another line, each variable in use holds the base of a live block, no two
hold the same, and a block that the line frees is live. -/
theorem script_frees_live (g : Getline) (before : Memory) (script : List Char) {n : ℕ}
    (ran : run (step g) n (initial before script) = .ok s) (reads : s.Reads) :
    s.Safe ∧ ∀ arg, freed g s = some arg → ∃ l ∈ s.live, arg = some l.addr := by
  have step_keeps (s s' : Simulator) (taken : step g s = .ok s') (kept : Kept s s.status) : Kept s' s'.status :=
    kept.step taken
  have kept : Kept s s.status := run_keeps step_keeps n (kept_initial before script) ran
  have safe := kept.safe reads.1
  exact ⟨safe, fun arg frees => safe.freed frees⟩

/-- A page is allocated, and the next line frees it. -/
theorem script_frees_live_page :
    let g : Getline := ⟨fun _ => 32, fun _ _ => 'x'⟩
    let script := "a=alloc(4K)\nfree(a)\n".toList
    ∃ s, run (step g) 1 (initial zeroed script) = .ok s ∧ s.Safe ∧ freed g s = some (some 0) ∧
      ∃ l ∈ s.live, l.addr = 0 := by
  intro g script
  have frees : (run (step g) 1 (initial zeroed script)).toOption.filter
      (fun s => s.Reads ∧ freed g s = some (some 0)) |>.isSome := by decide +kernel
  obtain ⟨s, found⟩ := Option.isSome_iff_exists.mp frees
  obtain ⟨ran, both⟩ := Option.filter_eq_some_iff.mp found
  have ran : run (step g) 1 (initial zeroed script) = .ok s := by
    cases result : run (step g) 1 (initial zeroed script) with
    | error => rw [result] at ran; cases ran
    | ok t => rw [result] at ran; cases ran; rfl
  obtain ⟨reads, first⟩ := of_decide_eq_true both
  obtain ⟨safe, lives⟩ := script_frees_live g zeroed script ran reads
  obtain ⟨l, inLive, address⟩ := lives _ first
  exact ⟨s, ran, safe, first, l, inLive, (Option.some.inj address).symm⟩

end Simulator

end OsLabs.Buddy
