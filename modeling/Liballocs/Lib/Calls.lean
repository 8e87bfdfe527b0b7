/-
Calling a function for each of a list of things, until it returns something else than zero.

The function keeps a state.  A depth-first walk is such a sequence, except that −1 skips what is below
the thing; on a pre-order list with the number of entries below each, that is a matter of counting.
-/
import Mathlib.Data.List.Basic

namespace Calls

variable {α σ : Type} {l m : List α}

/-- The calls in order, up to the first that does not return zero. -/
def callEach (cb : σ → α → Option (Int × σ)) : List α → σ → Option (Int × σ)
  | [], s => some (0, s)
  | a :: l, s => do
    let r ← cb s a
    if r.1 ≠ 0 then return r else callEach cb l r.2

theorem callEach_append (cb : σ → α → Option (Int × σ)) (l m : List α) (s : σ) :
    callEach cb (l ++ m) s
      = (callEach cb l s).bind fun r => if r.1 ≠ 0 then some r else callEach cb m r.2 := by
  induction l generalizing s with
  | nil => simp [callEach]
  | cons a l ih =>
    simp only [List.cons_append, callEach, Option.bind_eq_bind, Option.bind_assoc]
    congr 1
    funext r
    by_cases h : r.1 = 0 <;> simp [h, ih]

theorem callEach_record (l s : List α) :
    callEach (fun s a => some (0, s ++ [a])) l s = some (0, s ++ l) := by
  induction l generalizing s with
  | nil => simp [callEach]
  | cons a l ih => simp [callEach, ih]

/-- Lists that make the same calls of every function are equal. -/
theorem eq_of_callEach_eq (h : ∀ (σ : Type) (cb : σ → α → Option (Int × σ)) (s : σ),
    callEach cb l s = callEach cb m s) : l = m := by
  simpa [callEach_record] using h (List α) (fun s a => some (0, s ++ [a])) []

/-- Trees in a row: a root, what is below it, and the trees that follow. -/
inductive Forest (α : Type) where
  | nil
  | cons (root : α) (below rest : Forest α)

/-- The roots before what is below them, each with the number of entries below it. -/
def Forest.preorder : Forest α → List (α × Nat)
  | nil => []
  | cons root below rest => (root, below.preorder.length) :: (below.preorder ++ rest.preorder)

/-- The calls for the entries in order.  If a call returns −1, those below its entry are skipped;
anything else but zero is the end. -/
def callPreorder (cb : σ → α → Int × σ) : Nat → List (α × Nat) → σ → Int × σ
  | _, [], s => (0, s)
  | skip + 1, _ :: l, s => callPreorder cb skip l s
  | 0, a :: l, s =>
    let r := cb s a.1
    if r.1 = -1 then callPreorder cb a.2 l r.2
    else if r.1 ≠ 0 then r else callPreorder cb 0 l r.2

theorem callPreorder_skip (cb : σ → α → Int × σ) (l m : List (α × Nat)) (s : σ) :
    callPreorder cb l.length (l ++ m) s = callPreorder cb 0 m s := by
  induction l with
  | nil => rfl
  | cons a l ih => exact ih

theorem callPreorder_append (cb : σ → α → Int × σ) (f : Forest α) (m : List (α × Nat)) (s : σ) :
    callPreorder cb 0 (f.preorder ++ m) s
      = if (callPreorder cb 0 f.preorder s).1 ≠ 0 then callPreorder cb 0 f.preorder s
        else callPreorder cb 0 m (callPreorder cb 0 f.preorder s).2 := by
  induction f generalizing m s with
  | nil => simp [Forest.preorder, callPreorder]
  | cons root below rest ihb ihr =>
    simp only [Forest.preorder, List.cons_append, List.append_assoc, callPreorder]
    by_cases h1 : (cb s root).1 = -1
    · simp only [h1, if_true, callPreorder_skip]
      exact ihr m _
    · by_cases h0 : (cb s root).1 = 0
      · simp only [h0, ne_eq, not_true, if_false, ihb]
        by_cases hb : (callPreorder cb 0 below.preorder (cb s root).2).1 = 0
        · simp [hb, ihr]
        · simp [hb]
      · simp [h1, h0]

end Calls
