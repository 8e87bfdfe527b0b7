/-
A list of bounded length with the most recently used element in front.

An element that is looked up moves to the front, a new one is put there while the last gives way if
the list is full, and all elements with a property can be taken out.
-/
import Mathlib.Data.List.Nodup

namespace Lru

variable {α β : Type*} {p : α → Bool} {l : List α} {a : α}

/-- Move the first element with the property to the front. -/
def touch (p : α → Bool) (l : List α) : List α :=
  match l.find? p with
  | some a => a :: l.eraseP p
  | none => l

/-- Put a new element in front, for the last one if there are `cap` already. -/
def push (cap : Nat) (a : α) (l : List α) : List α :=
  a :: if l.length < cap then l else l.dropLast

/-- Take out all elements with the property. -/
def discard (p : α → Bool) (l : List α) : List α := l.filter fun a => !p a

theorem mem_of_mem_touch (h : a ∈ touch p l) : a ∈ l := by
  unfold touch at h
  split at h
  · rename_i b hb
    rcases List.mem_cons.mp h with rfl | h
    · exact List.mem_of_find?_eq_some hb
    · exact List.mem_of_mem_eraseP h
  · exact h

theorem mem_of_mem_push {cap : Nat} {b : α} (h : b ∈ push cap a l) : b = a ∨ b ∈ l := by
  rcases List.mem_cons.mp h with rfl | h
  · exact .inl rfl
  · split at h
    · exact .inr h
    · exact .inr ((List.dropLast_sublist l).mem h)

/-! ### On lists without repetition -/

theorem touch_of_find [DecidableEq α] (h : l.find? p = some a) : touch p l = a :: l.erase a := by
  have hmem := List.find?_some h
  unfold touch
  rw [h]
  induction l with
  | nil => exact absurd h (by simp)
  | cons b l ih =>
    by_cases hb : p b = true
    · obtain rfl : b = a := by simpa [hb] using h
      simp [hb]
    · have hne : b ≠ a := by
        rintro rfl
        exact hb hmem
      have h' : l.find? p = some a := by simpa [hb] using h
      have htail := ih h'
      simp only [List.cons.injEq, true_and] at htail
      simp [hb, List.erase_cons_tail (show (b == a) ≠ true by simpa using hne), htail]

theorem touch_of_find_none (h : l.find? p = none) : touch p l = l := by
  unfold touch
  rw [h]

/-! ### Under a map -/

theorem touch_map (f : α → β) (p : β → Bool) (l : List α) :
    touch p (l.map f) = (touch (p ∘ f) l).map f := by
  unfold touch
  rw [List.find?_map, List.eraseP_map]
  cases l.find? (p ∘ f) <;> rfl

theorem discard_map (f : α → β) (p : β → Bool) (l : List α) :
    discard p (l.map f) = (discard (p ∘ f) l).map f := by
  unfold discard
  rw [List.filter_map]
  rfl

end Lru
