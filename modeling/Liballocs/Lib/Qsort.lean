/-
Sorting by a comparator, which answers with a number below, at or above zero.

`Consistent` says that on a list its answers are those of a total order, and `Sorts` what is promised
of a sorting function then.  Where a key decides the answers, the result is sorted by the key.
-/
import Mathlib.Data.List.Basic
import Mathlib.Order.Lattice
import Mathlib.Tactic.Common

namespace Qsort

variable {α κ : Type*} {cmp : α → α → Int} {l : List α}

/-- On the elements of the list, the comparator is a total order. -/
structure Consistent (cmp : α → α → Int) (l : List α) : Prop where
  antisymm : ∀ a ∈ l, ∀ b ∈ l, cmp a b < 0 ↔ 0 < cmp b a
  trans : ∀ a ∈ l, ∀ b ∈ l, ∀ c ∈ l, cmp a b ≤ 0 → cmp b c ≤ 0 → cmp a c ≤ 0

/-- What is promised of a sorting function. -/
def Sorts (sort : (α → α → Int) → List α → List α) : Prop :=
  ∀ cmp l, Consistent cmp l → (sort cmp l).Perm l ∧ (sort cmp l).Pairwise fun a b => cmp a b ≤ 0

theorem consistent_of_key [LinearOrder κ] (key : α → κ)
    (hlt : ∀ a ∈ l, ∀ b ∈ l, cmp a b < 0 ↔ key a < key b)
    (hgt : ∀ a ∈ l, ∀ b ∈ l, 0 < cmp a b ↔ key b < key a) : Consistent cmp l where
  antisymm := fun a ha b hb => (hlt a ha b hb).trans (hgt b hb a ha).symm
  trans := by
    intro a ha b hb c hc hab hbc
    have hle : ∀ x ∈ l, ∀ y ∈ l, cmp x y ≤ 0 ↔ key x ≤ key y := fun x hx y hy =>
      Int.not_lt.symm.trans ((not_congr (hgt x hx y hy)).trans not_lt)
    exact (hle a ha c hc).mpr (((hle a ha b hb).mp hab).trans ((hle b hb c hc).mp hbc))

theorem Sorts.of_key [LinearOrder κ] {sort : (α → α → Int) → List α → List α} (h : Sorts sort)
    (key : α → κ) (hlt : ∀ a ∈ l, ∀ b ∈ l, cmp a b < 0 ↔ key a < key b)
    (hgt : ∀ a ∈ l, ∀ b ∈ l, 0 < cmp a b ↔ key b < key a) :
    (sort cmp l).Perm l ∧ (sort cmp l).Pairwise fun a b => key a ≤ key b := by
  obtain ⟨hperm, hsorted⟩ := h cmp l (consistent_of_key key hlt hgt)
  refine ⟨hperm, hsorted.imp_of_mem fun ha hb hab => ?_⟩
  rw [← not_lt, ← hgt _ (hperm.mem_iff.mp ha) _ (hperm.mem_iff.mp hb)]
  exact Int.not_lt.mpr hab

/-! ### Insertion -/

/-- Put an element in front of the first that it does not exceed. -/
def insertBy (cmp : α → α → Int) (a : α) : List α → List α
  | [] => [a]
  | b :: l => if cmp a b ≤ 0 then a :: b :: l else b :: insertBy cmp a l

/-- Insertion sort. -/
def sortBy (cmp : α → α → Int) : List α → List α
  | [] => []
  | a :: l => insertBy cmp a (sortBy cmp l)

theorem insertBy_perm (cmp : α → α → Int) (a : α) (l : List α) :
    (insertBy cmp a l).Perm (a :: l) := by
  induction l with
  | nil => exact .refl _
  | cons b l ih =>
    rw [insertBy]
    split
    · exact .refl _
    · exact (ih.cons b).trans (.swap a b l)

theorem insertBy_pairwise {a : α} (h : Consistent cmp (a :: l))
    (hl : l.Pairwise fun x y => cmp x y ≤ 0) :
    (insertBy cmp a l).Pairwise fun x y => cmp x y ≤ 0 := by
  induction l with
  | nil => exact List.pairwise_singleton _ _
  | cons b l ih =>
    obtain ⟨hb, hl⟩ := List.pairwise_cons.mp hl
    rw [insertBy]
    split
    next hab =>
      refine List.pairwise_cons.mpr ⟨fun c hc => ?_, List.pairwise_cons.mpr ⟨hb, hl⟩⟩
      rcases List.mem_cons.mp hc with rfl | hc
      · exact hab
      · exact h.trans a (by simp) b (by simp) c (by simp [hc]) hab (hb c hc)
    next hab =>
      have hsub : Consistent cmp (a :: l) :=
        ⟨fun x hx y hy => h.antisymm x (by simp at hx ⊢; tauto) y (by simp at hy ⊢; tauto),
          fun x hx y hy z hz => h.trans x (by simp at hx ⊢; tauto) y (by simp at hy ⊢; tauto)
            z (by simp at hz ⊢; tauto)⟩
      refine List.pairwise_cons.mpr ⟨fun c hc => ?_, ih hsub hl⟩
      rcases List.mem_cons.mp ((insertBy_perm cmp a l).mem_iff.mp hc) with rfl | hc
      · exact Int.le_of_lt ((h.antisymm b (by simp) c (by simp)).mpr (Int.not_le.mp hab))
      · exact hb c hc

theorem sortBy_perm (cmp : α → α → Int) (l : List α) : (sortBy cmp l).Perm l := by
  induction l with
  | nil => exact .refl _
  | cons a l ih => exact (insertBy_perm cmp a _).trans (ih.cons a)

theorem sortBy_sorts : Sorts (@sortBy α) := by
  intro cmp l
  induction l with
  | nil => exact fun _ => ⟨.refl _, List.Pairwise.nil⟩
  | cons a l ih =>
    intro h
    have hsub : Consistent cmp l := ⟨fun x hx y hy => h.antisymm x (by simp [hx]) y (by simp [hy]),
        fun x hx y hy z hz => h.trans x (by simp [hx]) y (by simp [hy]) z (by simp [hz])⟩
    have hmem : ∀ x, x ∈ a :: sortBy cmp l ↔ x ∈ a :: l :=
      fun x => ((sortBy_perm cmp l).cons a).mem_iff
    refine ⟨sortBy_perm cmp (a :: l), insertBy_pairwise ?_ (ih hsub).2⟩
    exact ⟨fun x hx y hy => h.antisymm x ((hmem x).mp hx) y ((hmem y).mp hy),
      fun x hx y hy z hz => h.trans x ((hmem x).mp hx) y ((hmem y).mp hy) z ((hmem z).mp hz)⟩

end Qsort
