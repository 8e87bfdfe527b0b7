/-
Searching a sorted array for the last element not above a target.

The array is given by the key at each index.  `Finds` is what a search promises, and `lastLe` keeps
the promise by going through the array from its end.
-/
import Mathlib.Order.Lattice
import Mathlib.Tactic.Common

namespace Bsearch

variable {κ : Type*} [LinearOrder κ] {key : Nat → κ} {n i j : Nat} {target : κ}

/-- The first `n` keys do not decrease. -/
def Sorted (key : Nat → κ) (n : Nat) : Prop := ∀ i j, i ≤ j → j < n → key i ≤ key j

/-- Of the first `n` indices, `i` is the last with a key at most the target. -/
structure LastLe (key : Nat → κ) (n : Nat) (target : κ) (i : Nat) : Prop where
  lt : i < n
  le : key i ≤ target
  last : ∀ j, i < j → j < n → target < key j

theorem LastLe.unique (hi : LastLe key n target i) (hj : LastLe key n target j) : i = j := by
  rcases Nat.lt_trichotomy i j with hlt | heq | hlt
  · exact absurd hj.le (not_le_of_gt (hi.last j hlt hj.lt))
  · exact heq
  · exact absurd hi.le (not_le_of_gt (hj.last i hlt hi.lt))

theorem exists_lastLe (hi : i < n) (hle : key i ≤ target) : ∃ m, LastLe key n target m := by
  induction n with
  | zero => exact absurd hi (Nat.not_lt_zero i)
  | succ n ih =>
    by_cases hn : key n ≤ target
    · exact ⟨n, Nat.lt_succ_self n, hn, fun j hj hjn => absurd hjn (Nat.not_lt_of_le hj)⟩
    · have hin : i ≠ n := fun heq => hn (heq ▸ hle)
      obtain ⟨m, hm, hmle, hlast⟩ := ih (by omega)
      refine ⟨m, Nat.lt_succ_of_lt hm, hmle, fun j hj hjn => ?_⟩
      rcases Nat.lt_or_eq_of_le (Nat.le_of_lt_succ hjn) with hjn | rfl
      · exact hlast j hj hjn
      · exact lt_of_not_ge hn

/-- What is promised of a search: on sorted arrays it finds the last such index. -/
def Finds (search : (Nat → κ) → Nat → κ → Option Nat) : Prop :=
  ∀ key n target, Sorted key n → ∀ i, search key n target = some i ↔ LastLe key n target i

/-- The search from the end. -/
def lastLe (key : Nat → κ) : Nat → κ → Option Nat
  | 0, _ => none
  | n + 1, target => if key n ≤ target then some n else lastLe key n target

theorem lastLe_eq_some_iff : lastLe key n target = some i ↔ LastLe key n target i := by
  induction n with
  | zero => exact ⟨fun h => (nomatch h), fun h => absurd h.lt (Nat.not_lt_zero i)⟩
  | succ n ih =>
    rw [lastLe]
    by_cases hle : key n ≤ target
    · have hn : LastLe key (n + 1) target n :=
        ⟨Nat.lt_succ_self n, hle, fun j hj hjn => absurd hj (Nat.le_of_lt_succ hjn).not_gt⟩
      rw [if_pos hle, Option.some_inj]
      exact ⟨fun h => h ▸ hn, fun h => hn.unique h⟩
    · rw [if_neg hle, ih]
      constructor
      · rintro ⟨hlt, hile, hlast⟩
        refine ⟨Nat.lt_succ_of_lt hlt, hile, fun j hj hjn => ?_⟩
        rcases Nat.lt_or_eq_of_le (Nat.le_of_lt_succ hjn) with hjn | rfl
        · exact hlast j hj hjn
        · exact lt_of_not_ge hle
      · rintro ⟨hlt, hile, hlast⟩
        have hne : i ≠ n := by
          rintro rfl
          exact hle hile
        exact ⟨(Nat.le_of_lt_succ hlt).lt_of_ne hne, hile,
          fun j hj hjn => hlast j hj (Nat.lt_succ_of_lt hjn)⟩

theorem lastLe_finds : Finds (@lastLe κ _) := fun _ _ _ _ _ => lastLe_eq_some_iff

end Bsearch
