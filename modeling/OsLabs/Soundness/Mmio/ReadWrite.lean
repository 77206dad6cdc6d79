import OsLabs.Model.Mmio.ReadWrite

/-! # When the buffered copy is exact

A write always writes `bufsz` bytes, so a read that stores fewer makes the output longer than the
input. The copy is exact when every read fills the buffer.
-/

namespace OsLabs.Mmio

open ReadWrite

variable {bufsz : ℕ} {reads : Reads bufsz} {p : ReadWrite} {calls left : ℕ}

/-- From a call on, every read of the bytes left fills the buffer. -/
def Full (reads : Reads bufsz) (calls left : ℕ) : Prop :=
  ∀ k, k * bufsz < left → reads.count (calls + k) (left - k * bufsz) = bufsz

theorem full_zero : Full reads calls 0 := fun _ less => absurd less (Nat.not_lt_zero _)

theorem full_iff (more : 0 < left) : Full reads calls left ↔
    reads.count calls left = bufsz ∧ Full reads (calls + 1) (left - bufsz) := by
  constructor
  · intro full
    have first := full 0 (by omega)
    rw [Nat.zero_mul, Nat.add_zero, Nat.sub_zero] at first
    refine ⟨first, fun k less => ?_⟩
    have later := full (k + 1) (by rw [Nat.succ_mul]; omega)
    rwa [Nat.succ_mul, Nat.add_comm k, ← Nat.add_assoc, Nat.add_comm (k * bufsz), ← Nat.sub_sub] at later
  · rintro ⟨first, full⟩ k less
    cases k with
    | zero => rwa [Nat.zero_mul, Nat.add_zero, Nat.sub_zero]
    | succ k =>
      rw [Nat.succ_mul] at less
      have later := full k (by omega)
      rwa [Nat.succ_mul, Nat.add_comm k, ← Nat.add_assoc, Nat.add_comm (k * bufsz), ← Nat.sub_sub]

/-! ## One iteration -/

/-- The state behind a read and its write. -/
def next (reads : Reads bufsz) (p : ReadWrite) : ReadWrite := (p.read reads).2.write bufsz

theorem length_fdin_next (reads : Reads bufsz) (p : ReadWrite) :
    (next reads p).fdin.length = p.fdin.length - reads.count p.calls p.fdin.length :=
  List.length_drop

theorem length_fdout_next (reads : Reads bufsz) (p : ReadWrite) :
    (next reads p).fdout.length = p.fdout.length + bufsz := by
  simp only [next, ReadWrite.read, write, List.length_append, List.length_map, List.length_range]

/-- A read that fills the buffer is copied. -/
theorem next_full (fills : reads.count p.calls p.fdin.length = bufsz) :
    (next reads p).fdout = p.fdout ++ p.fdin.take bufsz ∧ (next reads p).fdin = p.fdin.drop bufsz := by
  have within := reads.le_left p.calls p.fdin.length
  rw [fills] at within
  constructor
  · simp only [next, ReadWrite.read, write, fills]
    congr 1
    apply List.ext_getElem
    · simp [within]
    · intro i less _
      have inside : i < bufsz := by simpa using less
      have there : i < p.fdin.length := by omega
      simp [inside, there]
  · simp only [next, ReadWrite.read, write, fills]

theorem loop_end (ended : p.fdin = []) : (loop reads p).fdout = p.fdout := by
  have left := reads.le_left p.calls p.fdin.length
  rw [ended] at left
  have nothing : ¬ 0 < (p.read reads).1 := by
    simp only [ReadWrite.read, ended]
    exact Nat.not_lt_of_le left
  rw [loop, if_neg nothing]
  rfl

theorem loop_next (more : 0 < p.fdin.length) : loop reads p = loop reads (next reads p) := by
  have stored : 0 < (p.read reads).1 := reads.pos p.calls more
  rw [loop, if_pos stored]
  rfl

/-- Induction along the loop. -/
theorem loop_induction (reads : Reads bufsz) {P : ReadWrite → Prop}
    (ended : ∀ p, p.fdin = [] → P p) (next : ∀ p, 0 < p.fdin.length → P (next reads p) → P p) :
    ∀ p, P p := by
  intro p
  induction hn : p.fdin.length using Nat.strongRecOn generalizing p with
  | ind n ih =>
    subst hn
    cases left : p.fdin with
    | nil => exact ended p left
    | cons byte rest =>
      have more : 0 < p.fdin.length := by simp [left]
      have taken := reads.pos p.calls more
      have shorter := length_fdin_next reads p
      exact next p more (ih _ (by omega) _ rfl)

/-! ## The copy -/

theorem length_le_loop (reads : Reads bufsz) (p : ReadWrite) :
    p.fdout.length + p.fdin.length ≤ (loop reads p).fdout.length := by
  induction p using loop_induction reads with
  | ended p ended =>
    rw [loop_end ended, ended]
    exact Nat.le_refl _
  | next p more ih =>
    have grown := length_fdout_next reads p
    have shorter := length_fdin_next reads p
    have within := reads.le_bufsz p.calls p.fdin.length
    rw [loop_next more]
    omega

/-- An output no longer than the input was written by full reads. -/
theorem full_of_length (length : (loop reads p).fdout.length = p.fdout.length + p.fdin.length) :
    Full reads p.calls p.fdin.length := by
  induction p using loop_induction reads with
  | ended p ended =>
    rw [ended]
    exact full_zero
  | next p more ih =>
    have grown := length_fdout_next reads p
    have shorter := length_fdin_next reads p
    have within := reads.le_bufsz p.calls p.fdin.length
    have most := length_le_loop reads (next reads p)
    rw [loop_next more] at length
    have fills : reads.count p.calls p.fdin.length = bufsz := by omega
    rw [fills] at shorter
    have left := reads.le_left p.calls p.fdin.length
    have rest := ih (by omega)
    rw [shorter] at rest
    exact (full_iff more).mpr ⟨fills, rest⟩

theorem loop_of_full (full : Full reads p.calls p.fdin.length) : (loop reads p).fdout = p.fdout ++ p.fdin := by
  induction p using loop_induction reads with
  | ended p ended => rw [loop_end ended, ended, List.append_nil]
  | next p more ih =>
    obtain ⟨fills, rest⟩ := (full_iff more).mp full
    obtain ⟨fdout, fdin⟩ := next_full fills
    rw [loop_next more, ih (by rw [length_fdin_next, fills]; exact rest), fdout, fdin, List.append_assoc,
      List.take_append_drop]

/-- The output is the input exactly when every read fills the buffer. -/
theorem read_write_exact_iff (reads : Reads bufsz) (malloc : ℕ → UInt8) (content : List UInt8) :
    main reads malloc content = content ↔
      ∀ k, k * bufsz < content.length → reads.count k (content.length - k * bufsz) = bufsz := by
  have full_eq : Full reads 0 content.length ↔
      ∀ k, k * bufsz < content.length → reads.count k (content.length - k * bufsz) = bufsz := by
    simp only [Full, Nat.zero_add]
  rw [← full_eq]
  constructor
  · intro same
    apply full_of_length (p := ⟨content, [], malloc, 0⟩)
    rw [main] at same
    rw [same, List.length_nil, Nat.zero_add]
  · exact fun full => loop_of_full (p := ⟨content, [], malloc, 0⟩) full

/-- Reads of as many bytes as there are. -/
def Reads.greedy (bufsz : ℕ) (pos : 0 < bufsz) : Reads bufsz where
  count _ left := min left bufsz
  pos _ _ more := Nat.lt_min.mpr ⟨more, pos⟩
  le_left _ _ := Nat.min_le_left ..
  le_bufsz _ _ := Nat.min_le_right ..

/-- One byte and a buffer of two. -/
theorem read_write_inexact : main (.greedy 2 Nat.two_pos) (fun _ => 0) [7] ≠ [7] := by
  intro same
  have longer := length_le_loop (.greedy 2 Nat.two_pos) (next (.greedy 2 Nat.two_pos) ⟨[7], [], fun _ => 0, 0⟩)
  have goes : loop (.greedy 2 Nat.two_pos) ⟨[7], [], fun _ => 0, 0⟩ =
      loop (.greedy 2 Nat.two_pos) (next (.greedy 2 Nat.two_pos) ⟨[7], [], fun _ => 0, 0⟩) :=
    loop_next Nat.one_pos
  rw [main, goes] at same
  rw [same, length_fdout_next] at longer
  exact absurd longer (by decide)

end OsLabs.Mmio
