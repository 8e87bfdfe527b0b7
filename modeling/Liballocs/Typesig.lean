/-
The array rewrites of `tools/lang/c/cilallocs/cilallocs.ml` on CIL type signatures.

A signature is a tree, but the rewrites only go along its chain of arrays and pointers: `decay` drops
arrays, `collapse` makes one of several, and `decayArrayInPointeeTypesig` does both behind each pointer.
It calls itself on what the other two return, and terminates since neither lengthens the chain.
-/
import Mathlib.Data.List.Basic

namespace Liballocs

/-- The attributes of a signature, which the rewrites only carry along. -/
abbrev Attributes := List String

/-- The types under a `TSBase`; of the integers and floats, only the name of the kind. -/
inductive BaseType
  | void (attrs : Attributes)
  | int (kind : String) (attrs : Attributes)
  | float (kind : String) (attrs : Attributes)
  | builtinVaList (attrs : Attributes)
deriving DecidableEq

/-- CIL's `typsig`. -/
inductive Typesig
  | array (t : Typesig) (sz : Option Int) (attrs : Attributes)
  | ptr (t : Typesig) (attrs : Attributes)
  | comp (isStruct : Bool) (name : String) (attrs : Attributes)
  | func (ret : Typesig) (args : Option (List Typesig)) (isVariadic : Bool) (attrs : Attributes)
  | enum (name : String) (attrs : Attributes)
  | base (t : BaseType)

namespace Typesig

/-- The pattern `TSArray(_, _, _)`. -/
def isArray : Typesig → Bool
  | array .. => true
  | _ => false

/-- "Array of [array of...] X" into "X". -/
def decayArrayInTypesig : Typesig → Typesig
  | array t _ _ => decayArrayInTypesig t
  | ts => ts

/-- "Array of [array of...] X" into "(X, maybe numXs)". -/
def accumulateArrayDimensionsInTypesig : Typesig → Typesig × Option Int64
  | array t (some sz) _ =>
    match accumulateArrayDimensionsInTypesig t with
    | (ts, some subN) => (ts, some (Int64.ofInt sz * subN))
    | (ts, none) => (ts, none)
  | array t none _ => (decayArrayInTypesig t, none)
  | ts => (ts, none)

/-- "Array of array of [array of...] X" into "array of X". -/
def collapseArrayDimensionsInTypesig : Typesig → Typesig
  | array t sz attrs =>
    if t.isArray then
      let r := accumulateArrayDimensionsInTypesig (array t sz attrs)
      array r.1 (r.2.map Int64.toInt) attrs
    else array t sz attrs
  | ts => ts

/-- How many arrays and pointers stand before the rest of a signature. -/
def depth : Typesig → Nat
  | array t _ _ => t.depth + 1
  | ptr t _ => t.depth + 1
  | _ => 0

/-- The last case gives no number, so no product is ever formed. -/
theorem accumulateArrayDimensionsInTypesig_eq (ts : Typesig) :
    accumulateArrayDimensionsInTypesig ts = (decayArrayInTypesig ts, none) := by
  fun_induction decayArrayInTypesig ts with
  | case1 t sz attrs ih => cases sz <;> simp [accumulateArrayDimensionsInTypesig, ih]
  | case2 ts h => cases ts <;> simp_all [accumulateArrayDimensionsInTypesig]

theorem depth_decay_le (ts : Typesig) : (decayArrayInTypesig ts).depth ≤ ts.depth := by
  fun_induction decayArrayInTypesig ts with
  | case1 t sz attrs ih => exact Nat.le_succ_of_le ih
  | case2 ts h => exact Nat.le_refl _

theorem depth_collapse_le (ts : Typesig) :
    (collapseArrayDimensionsInTypesig ts).depth ≤ ts.depth := by
  fun_cases collapseArrayDimensionsInTypesig ts with
  | case1 t sz attrs h r =>
    have hle := depth_decay_le t
    simp only [r, accumulateArrayDimensionsInTypesig_eq, depth, decayArrayInTypesig]
    omega
  | case2 t sz attrs h => exact Nat.le_refl _
  | case3 ts h => exact Nat.le_refl _

/-- "Pointer to array of X" into "pointer to X", along the chain of pointers. -/
def decayArrayInPointeeTypesig : Typesig → Typesig
  | ptr (array t _ _) attrs =>
    ptr (decayArrayInPointeeTypesig (collapseArrayDimensionsInTypesig t)) attrs
  | ptr t attrs => ptr (decayArrayInPointeeTypesig t) attrs
  | ts => ts
termination_by ts => ts.depth
decreasing_by
  · have := depth_collapse_le t
    simp only [depth]
    omega
  · simp [depth]

end Typesig

end Liballocs
