/-
Searches in a map of bits.

A program may take such searches from elsewhere.  `Searches` has them as functions together with what
they find: the first bit set from a place on, the last one at or below a place, the number below.  That
determines their results, and nothing is said about how they go through the words of a bitmap.  One bit
after the other is one way, which can be run.
-/
import Mathlib.Data.List.Basic
import Mathlib.Data.Nat.Count

namespace Bits

variable {bit : Nat → Bool} {i j limit start : Nat}

/-- The last bit that is set, going down from a given one. -/
def lastSet (bit : Nat → Bool) : Nat → Option Nat
  | 0 => if bit 0 then some 0 else none
  | i + 1 => if bit (i + 1) then some (i + 1) else lastSet bit i

theorem lastSet_eq_some_iff : lastSet bit i = some j
    ↔ j ≤ i ∧ bit j = true ∧ ∀ k, j < k → k ≤ i → bit k = false := by
  induction i with
  | zero =>
    unfold lastSet
    split
    · grind
    · grind
  | succ i ih =>
    unfold lastSet
    split
    · grind
    · rw [ih]
      grind

theorem lastSet_eq_none_iff : lastSet bit i = none ↔ ∀ k, k ≤ i → bit k = false := by
  induction i with
  | zero =>
    unfold lastSet
    split <;> grind
  | succ i ih =>
    unfold lastSet
    split
    · grind
    · rw [ih]
      grind

/-- Searches in a map of bits, with what they find. -/
structure Searches where
  /-- The first bit that is set from a given one on and below a limit. -/
  firstGeq : (Nat → Bool) → Nat → Nat → Option Nat
  /-- The last bit that is set at or below a given one. -/
  lastLeq : (Nat → Bool) → Nat → Option Nat
  /-- The number of bits that are set below a given one. -/
  countBelow : (Nat → Bool) → Nat → Nat
  firstGeq_eq_some_iff : ∀ bit limit start i, firstGeq bit limit start = some i
    ↔ bit i = true ∧ (start ≤ i ∧ i < limit) ∧ ∀ j, start ≤ j → j < i → bit j = false
  lastLeq_eq_some_iff : ∀ bit i j, lastLeq bit i = some j
    ↔ j ≤ i ∧ bit j = true ∧ ∀ k, j < k → k ≤ i → bit k = false
  countBelow_eq : ∀ bit i, countBelow bit i = Nat.count (fun k => bit k = true) i

namespace Searches

variable (s : Searches)

theorem lastLeq_eq (bit : Nat → Bool) (i : Nat) : s.lastLeq bit i = lastSet bit i :=
  Option.ext fun j => (s.lastLeq_eq_some_iff bit i j).trans lastSet_eq_some_iff.symm

theorem firstGeq_eq_none (h : ∀ i, start ≤ i → bit i = false) : s.firstGeq bit limit start = none := by
  rw [Option.eq_none_iff_forall_ne_some]
  intro i hi
  obtain ⟨hset, ⟨hle, -⟩, -⟩ := (s.firstGeq_eq_some_iff bit limit start i).mp hi
  rw [h i hle] at hset
  exact Bool.noConfusion hset

/-- The searches that try one bit after the other. -/
def byOne : Searches where
  firstGeq := fun bit limit start => (List.range' start (limit - start)).find? bit
  lastLeq := lastSet
  countBelow := fun bit i => Nat.count (fun k => bit k = true) i
  firstGeq_eq_some_iff := by
    intro bit limit start i
    rw [List.find?_range'_eq_some, List.mem_range'_1]
    simp only [Bool.not_eq_true']
    refine and_congr_right fun _ => and_congr_left fun _ => ?_
    omega
  lastLeq_eq_some_iff := fun _ _ _ => lastSet_eq_some_iff
  countBelow_eq := fun _ _ => rfl

end Searches

end Bits
