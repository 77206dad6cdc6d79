import Mathlib.Data.Nat.Notation

/-! # Codes that are read from the front

A code gives every symbol a text, and a reader takes the code of one symbol from the front of any text.
Then a text of codes one after the other is read back symbol by symbol.
-/

/-- Texts for symbols, of which the reader finds the first whatever follows. -/
structure PrefixCode (α β : Type) where
  code : α → List β
  next : List β → Option (α × List β)
  valid : α → Prop
  code_ne_nil : ∀ a, valid a → code a ≠ []
  next_code : ∀ a rest, valid a → next (code a ++ rest) = some (a, rest)

namespace PrefixCode

variable {α β : Type} (prefixCode : PrefixCode α β)

/-- The symbols of a text, as far as the fuel goes. -/
def decodeLoop : ℕ → List β → Option (List α)
  | _, [] => some []
  | 0, _ :: _ => none
  | fuel + 1, b :: text => do
    let (a, rest) ← prefixCode.next (b :: text)
    let symbols ← decodeLoop fuel rest
    return a :: symbols

def decode (text : List β) : Option (List α) := prefixCode.decodeLoop text.length text

variable {prefixCode} {symbols : List α}

theorem decodeLoop_codes (valid : ∀ a ∈ symbols, prefixCode.valid a) {fuel : ℕ}
    (enough : (symbols.flatMap prefixCode.code).length ≤ fuel) :
    prefixCode.decodeLoop fuel (symbols.flatMap prefixCode.code) = some symbols := by
  induction symbols generalizing fuel with
  | nil => cases fuel <;> rfl
  | cons a symbols ih =>
    obtain ⟨first, others⟩ := List.forall_mem_cons.mp valid
    rw [List.flatMap_cons] at enough ⊢
    obtain ⟨b, code, here⟩ := List.exists_cons_of_ne_nil (prefixCode.code_ne_nil a first)
    have read := prefixCode.next_code a (symbols.flatMap prefixCode.code) first
    rw [here, List.cons_append] at enough read ⊢
    rw [List.length_cons, List.length_append] at enough
    cases fuel with
    | zero => exact absurd enough (Nat.not_succ_le_zero _)
    | succ fuel =>
      rw [decodeLoop, read]
      have rest := @ih others fuel (by omega)
      rw [Option.bind_eq_bind, Option.bind_some]
      dsimp only
      rw [rest]
      rfl

/-- What is written reads back. -/
theorem decode_codes (valid : ∀ a ∈ symbols, prefixCode.valid a) :
    prefixCode.decode (symbols.flatMap prefixCode.code) = some symbols :=
  decodeLoop_codes valid (Nat.le_refl _)

end PrefixCode
