/-
What the array rewrites of `cilallocs.ml` reach, against what their comments ask for.

A comment says that pointers to arrays become pointers to the elements.  Accumulating dimensions never
gives a number, as its last case has none to start from, so of nested arrays behind a pointer one is
left, and the rest of the chain is not looked at.  That is the only way to fail.
-/
import Liballocs.Typesig

namespace Liballocs.Typesig

/-! ### Collapsing the dimensions of an array -/

/-- The dimensions of an array of arrays, the outermost first. -/
def dimensions : Typesig → List (Option Int)
  | array t sz _ => sz :: t.dimensions
  | _ => []

/-- The product of the dimensions, when every one is known. -/
def product : List (Option Int) → Option Int
  | [] => some 1
  | none :: _ => none
  | some n :: ds => (product ds).map (n * ·)

theorem product_eq_none (ds : List (Option Int)) : product ds = none ↔ none ∈ ds := by
  fun_induction product ds <;> simp_all

/-- `r` is `ts` with all its dimensions made one, or `ts` when it has fewer than two. -/
def CollapsedTo (ts r : Typesig) : Prop :=
  if 2 ≤ ts.dimensions.length then
    ∃ attrs, r = array (decayArrayInTypesig ts) (product ts.dimensions) attrs
  else r = ts

/-- The dimensions are collapsed right exactly when there is one, or one is unknown. -/
theorem collapseArrayDimensionsInTypesig_right_iff (ts : Typesig) :
    CollapsedTo ts (collapseArrayDimensionsInTypesig ts) ↔
      ts.dimensions.length < 2 ∨ none ∈ ts.dimensions := by
  rw [← product_eq_none]
  cases ts with
  | array t sz attrs =>
    have hlt (n : Nat) : ¬ n + 1 + 1 < 2 := by omega
    cases t <;>
      simp [CollapsedTo, collapseArrayDimensionsInTypesig, isArray, dimensions, hlt,
        accumulateArrayDimensionsInTypesig_eq, decayArrayInTypesig, eq_comm]
  | _ => simp [CollapsedTo, collapseArrayDimensionsInTypesig, dimensions]

/-- `int[2][3]` becomes an array of `int` of unknown size. -/
theorem collapseArrayDimensionsInTypesig_loses_size :
    let ts := array (array (base (.int "int" [])) (some 3) []) (some 2) []
    collapseArrayDimensionsInTypesig ts = array (base (.int "int" [])) none [] ∧
      ¬ CollapsedTo ts (collapseArrayDimensionsInTypesig ts) := by
  simp [CollapsedTo, collapseArrayDimensionsInTypesig, isArray, dimensions, product,
    accumulateArrayDimensionsInTypesig_eq, decayArrayInTypesig]

/-! ### Decaying the arrays behind pointers -/

/-- A signature behind a pointer, without the arrays that pointers of its chain point to. -/
def pointee : Typesig → Typesig
  | array t _ _ => t.pointee
  | ptr t attrs => ptr t.pointee attrs
  | ts => ts

/-- "Pointer to array of [array of...] X" made "pointer to X" along the chain. -/
def pointeesDecayed : Typesig → Typesig
  | ptr t attrs => ptr t.pointee attrs
  | ts => ts

@[simp] theorem pointeesDecayed_ptr (t : Typesig) (attrs : Attributes) :
    (ptr t attrs).pointeesDecayed = ptr t.pointee attrs := rfl

/-- No pointer of the chain points to an array. -/
def PointsToNoArray : Typesig → Prop
  | ptr t _ => t.isArray = false ∧ t.PointsToNoArray
  | _ => True

/-- No pointer of the chain points to an array of arrays. -/
def PointsToNoNestedArray : Typesig → Prop
  | ptr (array t _ _) _ => t.isArray = false ∧ t.PointsToNoNestedArray
  | ptr t _ => t.PointsToNoNestedArray
  | _ => True

@[simp] theorem isArray_pointee (ts : Typesig) : ts.pointee.isArray = false := by
  fun_induction pointee ts <;> simp_all [isArray]

theorem pointee_eq {ts : Typesig} (h : ts.isArray = false) : ts.pointee = ts.pointeesDecayed := by
  cases ts <;> simp_all [isArray, pointee, pointeesDecayed]

theorem pointsToNoArray_pointee (ts : Typesig) : ts.pointee.PointsToNoArray := by
  fun_induction pointee ts <;> simp_all [PointsToNoArray]

theorem pointsToNoArray_pointeesDecayed (ts : Typesig) : ts.pointeesDecayed.PointsToNoArray := by
  fun_cases pointeesDecayed ts <;> simp_all [PointsToNoArray, pointsToNoArray_pointee]

theorem decay_of_pointsToNoArray (ts : Typesig) (h : ts.PointsToNoArray) :
    decayArrayInPointeeTypesig ts = ts := by
  fun_induction decayArrayInPointeeTypesig ts <;> simp_all [PointsToNoArray, isArray]

theorem collapse_of_not_array {ts : Typesig} (h : ts.isArray = false) :
    collapseArrayDimensionsInTypesig ts = ts := by
  cases ts <;> simp_all [isArray, collapseArrayDimensionsInTypesig]

theorem isArray_decay_collapse (ts : Typesig) (h : ts.isArray = true) :
    (decayArrayInPointeeTypesig (collapseArrayDimensionsInTypesig ts)).isArray = true := by
  cases ts with
  | array t sz attrs =>
    simp only [collapseArrayDimensionsInTypesig]
    split <;> simp [decayArrayInPointeeTypesig, isArray]
  | _ => simp [isArray] at h

/-- The arrays are gone exactly when no pointer points to an array of arrays. -/
theorem decay_eq_pointeesDecayed_iff (ts : Typesig) :
    decayArrayInPointeeTypesig ts = ts.pointeesDecayed ↔ ts.PointsToNoNestedArray := by
  fun_induction decayArrayInPointeeTypesig ts with
  | case1 t sz aattrs attrs ih =>
    cases h : t.isArray with
    | true =>
      -- one of the arrays is left, and the second half of the chain is not looked at
      have hleft := isArray_decay_collapse t h
      have hne : decayArrayInPointeeTypesig (collapseArrayDimensionsInTypesig t) ≠ t.pointee := by
        intro he
        simp [he] at hleft
      simp [pointee, PointsToNoNestedArray, hne, h]
    | false =>
      rw [collapse_of_not_array h] at ih ⊢
      simp [pointee, PointsToNoNestedArray, pointee_eq h, ih, h]
  | case2 t attrs hne ih =>
    have h : t.isArray = false := by
      cases t <;> simp_all [isArray]
    simp [pointee_eq h, ih, PointsToNoNestedArray]
  | case3 ts h1 h2 => cases ts <;> simp_all [pointeesDecayed, PointsToNoNestedArray]

/-- The comment is right exactly when no pointer of the chain points to an array of arrays. -/
theorem decayArrayInPointeeTypesig_right_iff (ts : Typesig) :
    (decayArrayInPointeeTypesig ts = ts.pointeesDecayed ∧
      (decayArrayInPointeeTypesig ts).PointsToNoArray ∧
      decayArrayInPointeeTypesig (decayArrayInPointeeTypesig ts) = decayArrayInPointeeTypesig ts) ↔
    ts.PointsToNoNestedArray := by
  constructor
  · intro h
    exact (decay_eq_pointeesDecayed_iff ts).1 h.1
  · intro h
    have heq := (decay_eq_pointeesDecayed_iff ts).2 h
    have hno : (decayArrayInPointeeTypesig ts).PointsToNoArray := by
      rw [heq]
      exact pointsToNoArray_pointeesDecayed ts
    exact ⟨heq, hno, decay_of_pointsToNoArray _ hno⟩

/-- A pointer to `int[2][3]` becomes one to `int[3]`, and only then one to `int`. -/
theorem decayArrayInPointeeTypesig_keeps_array :
    let int := base (.int "int" [])
    let ts := ptr (array (array int (some 3) []) (some 2) []) []
    decayArrayInPointeeTypesig ts = ptr (array int (some 3) []) [] ∧
      decayArrayInPointeeTypesig (decayArrayInPointeeTypesig ts) = ptr int [] := by
  simp [decayArrayInPointeeTypesig, collapseArrayDimensionsInTypesig, isArray]

end Liballocs.Typesig
