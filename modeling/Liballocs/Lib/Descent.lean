/-
Going down a tree level by level.

A tree is given by the children of its nodes.  `descend` lists what is below a node, in
pre-order and for so many levels, and `Ends` says that there is nothing below the last
level.  Then what is below something below a node is below that node, and another level
adds nothing.
-/
import Mathlib.Data.List.Basic
import Mathlib.Tactic.Common

namespace Descent

variable {ν : Type*} {kids : ν → List ν} {n m : Nat} {x v w : ν}

/-- The nodes below a node, to a depth of so many levels. -/
def descend (kids : ν → List ν) : Nat → ν → List ν
  | 0, _ => []
  | n + 1, x => (kids x).flatMap fun v => v :: descend kids n v

/-- There is nothing below a node after so many levels. -/
def Ends (kids : ν → List ν) : Nat → ν → Prop
  | 0, x => kids x = []
  | n + 1, x => ∀ v ∈ kids x, Ends kids n v

instance Ends.decidable (kids : ν → List ν) : (n : Nat) → (x : ν) → Decidable (Ends kids n x)
  | 0, x => decidable_of_iff ((kids x).isEmpty = true) List.isEmpty_iff
  | n + 1, x =>
    haveI := fun v => Ends.decidable kids n v
    inferInstanceAs (Decidable (∀ v ∈ kids x, Ends kids n v))

theorem mem_descend_succ : w ∈ descend kids (n + 1) x
    ↔ ∃ v ∈ kids x, w = v ∨ w ∈ descend kids n v := by
  simp [descend]

theorem Ends.mem_descend (h : Ends kids n x) (hv : v ∈ kids x) : v ∈ descend kids n x := by
  cases n with
  | zero =>
    have hnil : kids x = [] := h
    rw [hnil] at hv
    exact absurd hv List.not_mem_nil
  | succ n => exact mem_descend_succ.mpr ⟨v, hv, .inl rfl⟩

/-- The children of what is below a node are below it. -/
theorem Ends.mem_descend_of_mem (h : Ends kids n x) (hv : v ∈ descend kids n x) (hw : w ∈ kids v) :
    w ∈ descend kids n x := by
  induction n generalizing x with
  | zero => exact absurd hv List.not_mem_nil
  | succ n ih =>
    obtain ⟨u, hu, hvu⟩ := mem_descend_succ.mp hv
    refine mem_descend_succ.mpr ⟨u, hu, .inr ?_⟩
    rcases hvu with rfl | hvu
    · exact (h v hu).mem_descend hw
    · exact ih (h u hu) hvu

theorem Ends.mem_descend_trans (h : Ends kids n x) (hv : v ∈ descend kids n x)
    (hw : w ∈ descend kids m v) : w ∈ descend kids n x := by
  induction m generalizing v with
  | zero => exact absurd hw List.not_mem_nil
  | succ m ih =>
    obtain ⟨u, hu, hwu⟩ := mem_descend_succ.mp hw
    have hun := h.mem_descend_of_mem hv hu
    rcases hwu with rfl | hwu
    · exact hun
    · exact ih hun hwu

theorem Ends.succ (h : Ends kids n x) : Ends kids (n + 1) x := by
  induction n generalizing x with
  | zero =>
    have hnil : kids x = [] := h
    intro v hv
    rw [hnil] at hv
    exact absurd hv List.not_mem_nil
  | succ n ih => exact fun v hv => ih (h v hv)

theorem Ends.below (h : Ends kids n x) (hv : v ∈ descend kids n x) : Ends kids n v := by
  induction n generalizing x with
  | zero => exact absurd hv List.not_mem_nil
  | succ n ih =>
    obtain ⟨u, hu, hvu⟩ := mem_descend_succ.mp hv
    have hun : Ends kids n u := h u hu
    rcases hvu with rfl | hvu
    · exact hun.succ
    · exact (ih hun hvu).succ

/-- Another level adds nothing. -/
theorem Ends.descend_succ (h : Ends kids n x) : descend kids (n + 1) x = descend kids n x := by
  induction n generalizing x with
  | zero =>
    have hnil : kids x = [] := h
    simp [descend, hnil]
  | succ n ih =>
    rw [descend, descend]
    exact List.flatMap_congr fun v hv => congrArg (v :: ·) (ih (h v hv))

end Descent
