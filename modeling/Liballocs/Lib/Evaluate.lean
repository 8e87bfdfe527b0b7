/-
Deciding what a computation returns.

That an `Option` has a result with a decidable property is decided by evaluating it, which runs on
fixed inputs use throughout.  The lemmas take apart a bind that has a result.
-/
import Mathlib.Data.Prod.Basic

instance decidableExistsEqSome {α : Type*} {P : α → Prop} [DecidablePred P] :
    (o : Option α) → Decidable (∃ a, o = some a ∧ P a)
  | none => isFalse fun h => h.elim fun _ h => nomatch h.1
  | some a => decidable_of_iff (P a)
      ⟨fun h => ⟨a, rfl, h⟩, fun h => h.elim fun _ h => Option.some.inj h.1 ▸ h.2⟩

instance decidableExistsEqSomePair {α β : Type*} {P : α → β → Prop} [∀ a b, Decidable (P a b)]
    (o : Option (α × β)) : Decidable (∃ a b, o = some (a, b) ∧ P a b) :=
  decidable_of_iff (∃ x, o = some x ∧ P x.1 x.2) Prod.exists

theorem some_bind {α β : Type} (a : α) (f : α → Option β) : (some a >>= f) = f a := rfl

theorem eq_ite_of_iff {α : Type} {o : Option α} {a : α} {p : Prop} [Decidable p]
    (h : ∀ x, o = some x ↔ p ∧ x = a) : o = if p then some a else none := by
  split
  · rename_i hp
    exact (h a).mpr ⟨hp, rfl⟩
  · rename_i hp
    exact Option.eq_none_iff_forall_ne_some.mpr fun x hx => hp ((h x).mp hx).1

theorem of_bind {α β : Type} {x : Option α} {f : α → Option β} {b : β} (h : (x >>= f) = some b) :
    ∃ a, x = some a ∧ f a = some b := Option.bind_eq_some_iff.mp h
