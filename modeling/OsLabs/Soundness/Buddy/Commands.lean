import OsLabs.Model.Buddy.Simulator
import OsLabs.Soundness.Buddy.Placement
import OsLabs.ToMathlib.ScanFormat

/-! # When an allocation command gets what it asks for

`parse_alloc` applies the unit to the `int` that it has read, and `buddy_alloc` sees the product after it
has wrapped around. A command is honoured as long as the number of bytes is at most the whole memory. A
larger request is refused only if the wrapped product is refused as well.
-/

namespace OsLabs.Buddy

open ScanFormat DyadicTiling Simulator

variable {before : Memory} {live : List Live} {s : Simulator} {cmd text rest digits : List Char} {v c : Char}
  {n bytes : ℤ}

/-- The commands `v=alloc(n)` and `v=alloc(nK)` for an `int`, and how many bytes they ask for. -/
inductive AllocCommand : List Char → Char → ℤ → Prop
  | bytes {v : Char} {text : List Char} {n : ℤ} (var : getVar v = true) (numeral : Numeral text n)
      (low : -2 ^ 31 ≤ n) (high : n < 2 ^ 31) :
      AllocCommand (v :: ("=alloc(".toList ++ (text ++ [')']))) v n
  | kibibytes {v k : Char} {text : List Char} {n : ℤ} (var : getVar v = true) (numeral : Numeral text n)
      (low : -2 ^ 31 ≤ n) (high : n < 2 ^ 31) (unit : k = 'k' ∨ k = 'K') :
      AllocCommand (v :: ("=alloc(".toList ++ (text ++ [k, ')']))) v (n * 1024)

/-- The block that a command leaves in its variable holds the bytes, and more than there are get none. -/
structure Honoured (s : Simulator) (cmd : List Char) (v : Char) (bytes : ℤ) : Prop where
  fits : ∀ s', s.parseAlloc cmd = .ok (s', .success) → ∃ addr, (s'.varMap v).mem = some addr ∧
    bytes ≤ 2 ^ (s'.memory.gPages (addrToPage addr)).blockSize
  refused : 2 ^ 20 < bytes → ∃ s', s.parseAlloc cmd = .ok (s', .outOfMemory)

/-! ## The number in a command -/

theorem scanInt_eq (visible : text.dropWhile isSpace = text)
    (split : (if text.head? = some '-' ∨ text.head? = some '+' then text.tail else text) = digits ++ rest)
    (isDigits : Digits digits) (stops : Stops Char.isDigit rest)
    (value : (if text.head? = some '-' then -(digitsValue digits) else digitsValue digits : ℤ) = n)
    (low : -2 ^ 31 ≤ n) (high : n < 2 ^ 31) : scanInt text = some (n, false, rest) := by
  have number := takeWhile_span isDigits.all stops
  have behind := dropWhile_span isDigits.all stops
  have stored : n.bmod (2 ^ 32) = n := Int.bmod_eq_of_le (by omega) (by omega)
  have inRange : decide (n < -2 ^ 63 ∨ 2 ^ 63 ≤ n) = false := decide_eq_false (by omega)
  simp only [scanInt, visible, split, number, behind, if_neg isDigits.nonempty, value, stored,
    inRange]

theorem scanInt_numeral (numeral : Numeral text n) (low : -2 ^ 31 ≤ n) (high : n < 2 ^ 31)
    (stops : Stops Char.isDigit rest) : scanInt (text ++ rest) = some (n, false, rest) := by
  cases numeral with
  | unsigned isDigits =>
    obtain ⟨d, digits, rfl⟩ := List.exists_cons_of_ne_nil isDigits.nonempty
    have digit := isDigits.all d List.mem_cons_self
    have notSpace := not_isSpace_of_isDigit digit
    have notSign := not_isSign_of_isDigit digit
    simp only [isSign, decide_eq_false_iff_not, not_or] at notSign
    apply scanInt_eq _ _ isDigits stops _ low high
    · exact List.dropWhile_cons_of_neg (by rw [show isSpace d = false from notSpace]; exact Bool.false_ne_true)
    · exact if_neg (by simp [notSign])
    · exact if_neg (by simp [notSign])
  | plus isDigits => exact scanInt_eq rfl rfl isDigits stops rfl low high
  | minus isDigits => exact scanInt_eq rfl rfl isDigits stops rfl low high

theorem scanAlloc_numeral (numeral : Numeral text n) (low : -2 ^ 31 ≤ n) (high : n < 2 ^ 31)
    (notDigit : c.isDigit = false) (v : Char) (rest : List Char) :
    scanAlloc (v :: ("=alloc(".toList ++ (text ++ c :: rest))) = some (v, n, false, c) := by
  have literal : scanLiteral "=alloc(".toList ("=alloc(".toList ++ (text ++ c :: rest)) =
      some (text ++ c :: rest) := rfl
  have stops : Stops Char.isDigit (c :: rest) := stops_cons notDigit
  have scanned := scanInt_numeral numeral low high stops
  simp only [scanAlloc, literal, Option.bind_eq_bind, Option.bind_some, scanned]
  rfl

theorem AllocCommand.request (command : AllocCommand cmd v bytes) :
    allocRequest cmd = some (v, bytes.bmod (2 ^ 32)) := by
  cases command with
  | bytes var numeral low high =>
    have stored : bytes.bmod (2 ^ 32) = bytes := Int.bmod_eq_of_le (by omega) (by omega)
    rw [allocRequest, scanAlloc_numeral numeral low high (c := ')') rfl v [], stored]
    rfl
  | @kibibytes _ k text n var numeral low high unit =>
    have notDigit : k.isDigit = false := by rcases unit with rfl | rfl <;> rfl
    rw [allocRequest, scanAlloc_numeral numeral low high notDigit v [')']]
    exact if_pos unit

theorem AllocCommand.accepted (command : AllocCommand cmd v bytes) : cmd ≠ [] ∧ getVar v = true := by
  cases command with
  | bytes var => exact ⟨List.cons_ne_nil _ _, var⟩
  | kibibytes var => exact ⟨List.cons_ne_nil _ _, var⟩

/-- The command goes on to the allocator. -/
theorem AllocCommand.parseAlloc (command : AllocCommand cmd v bytes) (s : Simulator) : s.parseAlloc cmd =
    match buddyAlloc s.memory (bytes.bmod (2 ^ 32)) with
    | none => .error .undefined
    | some (memory, none) =>
      .ok ({ s with memory }.setVar v { s.varMap v with mem := none }, .outOfMemory)
    | some (memory, some addr) =>
      .ok ({ s with memory, live := ⟨addr, bytes.bmod (2 ^ 32)⟩ :: s.live }.setVar v ⟨some addr, true⟩, .success) := by
  obtain ⟨nonempty, var⟩ := command.accepted
  rw [Simulator.parseAlloc, if_neg nonempty, command.request]
  exact if_neg (by rw [var]; exact Bool.false_ne_true)

/-! ## The block -/

/-- The block of a successful allocation is recorded in the page table. -/
theorem Inv.blockSize_of_alloc {m m' : Memory} {lists : ℕ → List ℕ} {free : Set Block} {size : ℤ} {addr : ℕ}
    (inv : Inv m live lists free) (success : buddyAlloc m size = some (m', some addr)) :
    (m'.gPages (addrToPage addr)).blockSize = orderFor size := by
  obtain ⟨lists', free', inv', -⟩ := inv.alloc success
  have extent := liveExtent_eq inv' (l := ⟨addr, size⟩) List.mem_cons_self
  exact congrArg Extent.order extent

theorem Inv.buddyAlloc_cases {m : Memory} {lists : ℕ → List ℕ} {free : Set Block} {size : ℤ}
    (inv : Inv m live lists free) (bound : size ≤ 2 ^ 30) :
    buddyAlloc m size = some (m, none) ∧ (∀ o, orderFor size ≤ o → o ≤ maxOrder → m.freeList o = []) ∨
    (∃ m' addr, buddyAlloc m size = some (m', some addr)) ∧ orderFor size ≤ maxOrder ∧
      ¬ ∀ o, orderFor size ≤ o → o ≤ maxOrder → m.freeList o = [] := by
  have low := minOrder_le_orderFor size
  rcases buddyAlloc_spec inv.valid inv.rings bound with ⟨failed, empty⟩ | ⟨m', b, ran, allocated⟩
  · refine .inl ⟨failed, fun o above high => ?_⟩
    rw [freeList_eq inv (low.trans above) high]
    exact empty o above high
  · obtain ⟨_, rest, o, above, high, first, _⟩ := allocated.result
    refine .inr ⟨⟨m', b.start, ran⟩, above.trans high, fun empty => ?_⟩
    have nothing := empty o above high
    rw [freeList_eq inv (low.trans above) high, first] at nothing
    exact List.cons_ne_nil _ _ nothing

/-- Bytes that fit the whole memory fit the block for the wrapped request. -/
theorem le_two_pow_orderFor (small : bytes ≤ 2 ^ 20) : bytes ≤ 2 ^ orderFor (bytes.bmod (2 ^ 32)) := by
  obtain ⟨low, enough⟩ := (orderFor_le_iff (bytes.bmod (2 ^ 32)) _).mp le_rfl
  have page : (2 : ℤ) ^ minOrder ≤ 2 ^ orderFor (bytes.bmod (2 ^ 32)) := by
    exact_mod_cast Nat.pow_le_pow_right Nat.two_pos low
  rcases le_total bytes 0 with negative | positive
  · exact negative.trans (le_trans (by decide) page)
  · rwa [Int.bmod_eq_of_le (by omega) (by omega)] at enough ⊢

/-- A command is honoured if it asks for at most the whole memory, or if the wrapped request is refused. -/
theorem parse_alloc_honoured_iff (run : DefinedRun before s.memory live) (command : AllocCommand cmd v bytes) :
    Honoured s cmd v bytes ↔ bytes ≤ 2 ^ 20 ∨
      bytes.bmod (2 ^ 32) ≤ 2 ^ 30 ∧
        ∀ o, orderFor (bytes.bmod (2 ^ 32)) ≤ o → o ≤ maxOrder → s.memory.freeList o = [] := by
  obtain ⟨lists, free, inv⟩ := run.inv
  have parse := command.parseAlloc s
  have small : bytes ≤ 2 ^ 20 → _ := le_two_pow_orderFor
  generalize bytes.bmod (2 ^ 32) = size at parse small ⊢
  rcases lt_or_ge (2 ^ 30) size with large | bound
  · -- the searches never end
    have endless : buddyAlloc s.memory size = none := by
      by_contra ended
      obtain ⟨r, ended⟩ := Option.ne_none_iff_exists'.mp ended
      exact absurd (size_le_of_buddyAlloc ended) (not_le.mpr large)
    rw [endless] at parse
    constructor
    · intro honoured
      by_contra more
      obtain ⟨s', ran⟩ := honoured.refused (not_le.mp fun fits => more (.inl fits))
      cases parse.symm.trans ran
    · rintro (fits | ⟨bound, -⟩)
      · refine ⟨fun s' ran => ?_, fun more => absurd more (not_lt.mpr fits)⟩
        cases parse.symm.trans ran
      · exact absurd bound (not_le.mpr large)
  rcases inv.buddyAlloc_cases bound with ⟨failed, empty⟩ | ⟨⟨m', addr, success⟩, high, taken⟩
  · rw [failed] at parse
    refine iff_of_true ⟨fun s' ran => ?_, fun _ => ⟨_, parse⟩⟩ (.inr ⟨bound, empty⟩)
    cases parse.symm.trans ran
  · rw [success] at parse
    constructor
    · intro honoured
      by_contra more
      obtain ⟨s', ran⟩ := honoured.refused (not_le.mp fun fits => more (.inl fits))
      cases parse.symm.trans ran
    · rintro (fits | ⟨-, empty⟩)
      · refine ⟨fun s' ran => ?_, fun more => absurd more (not_lt.mpr fits)⟩
        cases parse.symm.trans ran
        have stored : Function.update s.varMap v ⟨some addr, true⟩ v = ⟨some addr, true⟩ := Function.update_self ..
        refine ⟨addr, congrArg VarT.mem stored, ?_⟩
        rw [← inv.blockSize_of_alloc success] at small
        exact small fits
      · exact absurd empty taken

theorem parse_alloc_honoured_page : Honoured (initial zeroed []) "a=alloc(4K)".toList 'a' (4 * 1024) := by
  have start : DefinedRun zeroed (initial zeroed []).memory [] := .init
  have four : Numeral ['4'] 4 := .unsigned ⟨List.cons_ne_nil _ _, List.all_eq_true.mp rfl⟩
  have command : AllocCommand "a=alloc(4K)".toList 'a' (4 * 1024) :=
    .kibibytes rfl four (by decide) (by decide) (.inr rfl)
  exact (parse_alloc_honoured_iff start command).mpr (.inl (by decide))

/-- 4194304 KiB wrap around to nothing, and a page is handed out. -/
theorem parse_alloc_wraps : ¬ ∀ before s live cmd v bytes, DefinedRun before s.memory live →
    AllocCommand cmd v bytes → Honoured s cmd v bytes := by
  intro all
  have start : DefinedRun zeroed (initial zeroed []).memory [] := .init
  have number : Numeral "4194304".toList 4194304 := .unsigned ⟨List.cons_ne_nil _ _, List.all_eq_true.mp rfl⟩
  have command : AllocCommand "a=alloc(4194304K)".toList 'a' (4194304 * 1024) :=
    .kibibytes rfl number (by decide) (by decide) (.inr rfl)
  have result : ((initial zeroed []).parseAlloc "a=alloc(4194304K)".toList).map (·.2) = .ok .success := by decide
  obtain ⟨s', ran⟩ := (all _ _ _ _ _ _ start command).refused (by decide)
  rw [ran] at result
  cases result

end OsLabs.Buddy
