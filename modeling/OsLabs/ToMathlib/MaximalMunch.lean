import Mathlib.Data.List.Basic
import Mathlib.Tactic.Common

/-! # The longest match

A text is cut into lexemes: the rule with the longest match in front of the text takes it, the earliest
of several. A rule is known by how much of a text it matches.
-/

namespace MaximalMunch

variable {ρ α : Type*} (length : ρ → List α → ℕ) (last : ρ)

/-- The rule that matches most, and how much. `last` comes behind the rules. -/
def longest (input : List α) : List ρ → ρ × ℕ
  | [] => (last, length last input)
  | rule :: rules =>
    let best := longest input rules
    if best.2 ≤ length rule input then (rule, length rule input) else best

/-- The lexemes of a text, for as many as `fuel`. -/
def lexemesFor (rules : List ρ) : ℕ → List α → List (ρ × List α)
  | 0, _ => []
  | _ + 1, [] => []
  | fuel + 1, c :: input =>
    let best := longest length last (c :: input) rules
    (best.1, (c :: input).take best.2) :: lexemesFor rules fuel ((c :: input).drop best.2)

/-- The lexemes of a text whose every rest is matched. -/
def lexemes (rules : List ρ) (input : List α) : List (ρ × List α) := lexemesFor length last rules input.length input

variable {length last} {rules front back : List ρ} {rule : ρ} {input rest : List α} {n : ℕ}

theorem longest_le (matched : length last input ≤ n) (others : ∀ rule ∈ rules, length rule input ≤ n) :
    (longest length last input rules).2 ≤ n := by
  induction rules with
  | nil => exact matched
  | cons rule rules ih =>
    rw [longest]
    split
    · exact others rule (List.mem_cons_self ..)
    · exact ih fun rule member => others rule (List.mem_cons_of_mem _ member)

/-- The rule that matches most, with no earlier one that matches as much. -/
theorem longest_eq (isRules : rules = front ++ rule :: back) (matched : length rule input = n)
    (shorter : ∀ rule ∈ front, length rule input < n) (others : ∀ rule ∈ back, length rule input ≤ n)
    (least : length last input ≤ n) : longest length last input rules = (rule, n) := by
  subst isRules
  induction front with
  | nil =>
    rw [List.nil_append, longest, if_pos (matched ▸ longest_le (matched ▸ least) (matched ▸ others)), matched]
  | cons first front ih =>
    have before := shorter first (List.mem_cons_self ..)
    have best := ih fun rule member => shorter rule (List.mem_cons_of_mem _ member)
    rw [List.cons_append, longest, best, if_neg (Nat.not_le.mpr before)]

/-- What is matched is not more than what some rule matches. -/
theorem longest_mem (input : List α) (rules : List ρ) :
    (longest length last input rules).2 = length (longest length last input rules).1 input ∧
      ((longest length last input rules).1 = last ∨ (longest length last input rules).1 ∈ rules) := by
  induction rules with
  | nil => exact ⟨rfl, .inl rfl⟩
  | cons rule rules ih =>
    rw [longest]
    split
    · exact ⟨rfl, .inr (List.mem_cons_self ..)⟩
    · exact ⟨ih.1, ih.2.imp_right (List.mem_cons_of_mem rule)⟩

/-- No rule matches more. -/
theorem le_longest (input : List α) (member : rule ∈ rules) : length rule input ≤ (longest length last input rules).2 := by
  induction rules with
  | nil => exact absurd member List.not_mem_nil
  | cons first rules ih =>
    rw [longest]
    split
    · next more =>
      obtain rfl | member := List.mem_cons.mp member
      · exact Nat.le_refl _
      · exact Nat.le_trans (ih member) more
    · next less =>
      obtain rfl | member := List.mem_cons.mp member
      · exact Nat.le_of_not_le less
      · exact ih member

theorem last_le_longest (input : List α) (rules : List ρ) :
    length last input ≤ (longest length last input rules).2 := by
  induction rules with
  | nil => exact Nat.le_refl _
  | cons first rules ih =>
    rw [longest]
    split
    · next more => exact Nat.le_trans ih more
    · exact ih

/-- Every lexeme belongs to a rule. -/
theorem lexemesFor_mem {fuel : ℕ} {lexeme : ρ × List α} (member : lexeme ∈ lexemesFor length last rules fuel input) :
    lexeme.1 = last ∨ lexeme.1 ∈ rules := by
  induction fuel generalizing input with
  | zero => exact absurd member List.not_mem_nil
  | succ fuel ih =>
    cases input with
    | nil => exact absurd member List.not_mem_nil
    | cons c input =>
      obtain rfl | member := List.mem_cons.mp member
      · exact (longest_mem (c :: input) rules).2
      · exact ih member

section Covered

variable (length last rules) in
/-- Something matches in front of every rest. -/
def Covers : Prop := ∀ input ≠ [], 0 < (longest length last input rules).2

theorem lexemesFor_eq (covers : Covers length last rules) :
    ∀ fuel input, input.length ≤ fuel → lexemesFor length last rules fuel input = lexemes length last rules input := by
  intro fuel
  induction fuel using Nat.strongRecOn with
  | _ fuel ih =>
    intro input enough
    cases input with
    | nil => cases fuel <;> rfl
    | cons c input =>
      obtain ⟨fuel, rfl⟩ := Nat.exists_eq_succ_of_ne_zero (Nat.ne_of_gt (Nat.lt_of_lt_of_le (Nat.succ_pos _) enough))
      rw [List.length_cons, Nat.succ_le_succ_iff] at enough
      have taken := covers (c :: input) (List.cons_ne_nil c input)
      have shorter : ((c :: input).drop (longest length last (c :: input) rules).2).length ≤ input.length := by
        rw [List.length_drop, List.length_cons]
        omega
      rw [lexemes, List.length_cons, lexemesFor, lexemesFor, ih fuel (Nat.lt_succ_self _) _ (Nat.le_trans shorter enough),
        ih input.length (Nat.lt_succ_of_le enough) _ shorter]

/-- The first lexeme. -/
theorem lexemes_cons (covers : Covers length last rules) (nonempty : input ≠ [])
    (best : longest length last input rules = (rule, n)) :
    lexemes length last rules input = (rule, input.take n) :: lexemes length last rules (input.drop n) := by
  obtain ⟨c, tail, rfl⟩ := List.exists_cons_of_ne_nil nonempty
  have taken := covers (c :: tail) nonempty
  rw [best] at taken
  have shorter : ((c :: tail).drop n).length ≤ tail.length := by
    rw [List.length_drop, List.length_cons]
    omega
  rw [lexemes, List.length_cons, lexemesFor, best, lexemesFor_eq covers _ _ shorter]

end Covered

end MaximalMunch
