/-
Answers that are remembered under a key.

A request gets the value its key is bound to, or else its own value is bound and returned.  The answers
are all as wanted, seen through `view`, exactly if the keys tell apart what `view` tells apart.
-/
import Mathlib.Logic.Function.Basic
import Mathlib.Data.List.Basic

namespace Memo

variable {κ β γ : Type} [DecidableEq κ] {t : κ → Option β} {r : κ × β}

/-- The answer to a request. -/
def ask (t : κ → Option β) (r : κ × β) : β := (t r.1).getD r.2

/-- What is known after the request. -/
def remember (t : κ → Option β) (r : κ × β) : κ → Option β :=
  Function.update t r.1 (some (ask t r))

/-- The answers to one request after the other. -/
def answers (t : κ → Option β) : List (κ × β) → List β
  | [] => []
  | r :: rs => ask t r :: answers (remember t r) rs

theorem remember_of_known {b : β} (h : t r.1 = some b) : remember t r = t := by
  rw [remember, ask, h, Option.getD_some, ← h, Function.update_eq_self]

theorem remember_of_unknown (h : t r.1 = none) :
    remember t r = Function.update t r.1 (some r.2) := by
  rw [remember, ask, h, Option.getD_none]

section View

variable {view : β → γ} {t : κ → Option β} {r : κ × β}

omit [DecidableEq κ] in
theorem view_ask_iff : view (ask t r) = view r.2 ↔ ∀ b, t r.1 = some b → view b = view r.2 := by
  cases h : t r.1 <;> simp [ask, h]

/-- After a request that was answered as wanted, what is known suits another one if it did before and
the two do not share a key for different things. -/
theorem remember_suits_iff (hr : view (ask t r) = view r.2) (q : κ × β) :
    (∀ b, remember t r q.1 = some b → view b = view q.2) ↔
      (∀ b, t q.1 = some b → view b = view q.2) ∧ (r.1 = q.1 → view r.2 = view q.2) := by
  by_cases hk : r.1 = q.1
  · have hsame : remember t r q.1 = some (ask t r) := by
      rw [remember, ← hk, Function.update_self]
    simp only [hsame, Option.some.injEq, forall_eq', hr, hk, true_imp_iff]
    refine ⟨fun h => ⟨fun b hb => ?_, h⟩, And.right⟩
    rw [view_ask_iff.mp hr b (hk ▸ hb), h]
  · have hother : remember t r q.1 = t q.1 := Function.update_of_ne (Ne.symm hk) _ _
    simp [hother, hk]

end View

/-- **All answers are as wanted exactly if what is known suits every request, and no two requests
under one key want different things.** -/
theorem answers_iff (view : β → γ) (t : κ → Option β) (rs : List (κ × β)) :
    (answers t rs).map view = rs.map (fun r => view r.2) ↔
      (∀ r ∈ rs, ∀ b, t r.1 = some b → view b = view r.2) ∧
        rs.Pairwise (fun r q => r.1 = q.1 → view r.2 = view q.2) := by
  induction rs generalizing t with
  | nil => simp [answers]
  | cons r rs ih =>
    simp only [answers, List.map_cons, List.cons.injEq, ih, List.forall_mem_cons,
      List.pairwise_cons, ← view_ask_iff (r := r)]
    constructor
    · rintro ⟨hr, hrest, hpair⟩
      have hsuits := fun q hq => (remember_suits_iff hr q).mp (hrest q hq)
      exact ⟨⟨hr, fun q hq => (hsuits q hq).1⟩, fun q hq => (hsuits q hq).2, hpair⟩
    · rintro ⟨⟨hr, hknown⟩, hapart, hpair⟩
      exact ⟨hr, fun q hq => (remember_suits_iff hr q).mpr ⟨hknown q hq, hapart q hq⟩, hpair⟩

end Memo
