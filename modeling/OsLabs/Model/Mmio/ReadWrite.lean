import Mathlib.Data.Nat.Notation

/-! # The buffered copy

The loop of `read_write.c`. How many bytes a call of `read` stores is up to the system, between one
and `bufsz` while the file has bytes left; `write` writes all it is given. The buffer keeps what the
reads before have left in it, and `malloc` at first.
-/

namespace OsLabs.Mmio

/-- What `read` returns at each call, given how many bytes the file has left. -/
structure Reads (bufsz : ℕ) where
  count : ℕ → ℕ → ℕ
  pos : ∀ call {left}, 0 < left → 0 < count call left
  le_left : ∀ call left, count call left ≤ left
  le_bufsz : ∀ call left, count call left ≤ bufsz

structure ReadWrite where
  /-- The file behind the offset. -/
  fdin : List UInt8
  fdout : List UInt8
  src : ℕ → UInt8
  calls : ℕ

namespace ReadWrite

variable {bufsz : ℕ}

/-- `read (fdin, src, bufsz)`. -/
def read (reads : Reads bufsz) (p : ReadWrite) : ℕ × ReadWrite :=
  let count := reads.count p.calls p.fdin.length
  (count, { p with
    fdin := p.fdin.drop count
    src := fun i => (p.fdin.take count)[i]?.getD (p.src i)
    calls := p.calls + 1 })

/-- `write (fdout, src, bufsz)`. -/
def write (bufsz : ℕ) (p : ReadWrite) : ReadWrite :=
  { p with fdout := p.fdout ++ (List.range bufsz).map p.src }

/-- The loop: every read that returns bytes is followed by a write. -/
def loop (reads : Reads bufsz) (p : ReadWrite) : ReadWrite :=
  if 0 < (p.read reads).1 then loop reads ((p.read reads).2.write bufsz) else (p.read reads).2
termination_by p.fdin.length
decreasing_by
  rename_i more
  have left := reads.le_left p.calls p.fdin.length
  simp only [read, write, List.length_drop] at more ⊢
  omega

/-- The output file of `main`. -/
def main (reads : Reads bufsz) (malloc : ℕ → UInt8) (content : List UInt8) : List UInt8 :=
  (loop reads ⟨content, [], malloc, 0⟩).fdout

end ReadWrite

end OsLabs.Mmio
