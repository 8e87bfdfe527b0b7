/-
Walking and searching the subobjects that span an offset (`include/liballocs.h`).

Both functions go from a type to the element or members that span the offset, and on from there.  The
walk calls back for each; the search looks for one of a given type that begins at the offset.  Their
bisections are the same code and stand here once.  The recursion is on a fuel.
-/
import Liballocs.Uniqtype

namespace Liballocs

/-- The bisection of an interval of members: the last with an offset not above the target, or the
first. -/
def bisectInd (off : Nat → Nat) (target : Nat) : Nat → Nat → Nat → Nat
  | 0, lowerInd, _ => lowerInd
  | fuel + 1, lowerInd, upperInd =>
    if lowerInd + 1 < upperInd then
      let ind := (upperInd + lowerInd) / 2
      -- our solution lies in the lower half of the interval, or in the upper
      if off ind > target then bisectInd off target fuel lowerInd ind
      else bisectInd off target fuel ind upperInd
    else lowerInd

/-- Scan backwards so that we have the lowest of the members at one offset. -/
def scanBackwards (off : Nat → Nat) : Nat → Nat
  | 0 => 0
  | ind + 1 => if off ind = off (ind + 1) then scanBackwards off ind else ind + 1

/-- The lowest of the members that span an offset. -/
def lowestSpanning (u : Uniqtype) (target : Nat) : Option Nat :=
  let off := fun i => (u.rel i).off
  let lowerInd := bisectInd off target u.compositeMemberCount 0 u.compositeMemberCount
  if u.compositeMemberCount = 0 then none
  -- we may still have overshot, where offset zero is not used
  else if off lowerInd > target then none
  else some (scanBackwards off lowerInd)

/-! ### The walk -/

/-- What a callback is told of a subobject. -/
structure Visit where
  spans : Nat
  spanStartOffset : Nat
  depth : Nat
  containing : Nat
  /-- The index of `contained_pos` in `related`. -/
  containedPos : Nat
  containingSpanStartOffset : Nat
deriving DecidableEq, Repr

/-- One after the other, until an answer is not zero. -/
def untilNonzero {σ : Type} (visit : Nat → σ → Option (Int × σ)) :
    List Nat → σ → Option (Int × σ)
  | [], s => some (0, s)
  | i :: is, s => do
    let (ret, s) ← visit i s
    if ret ≠ 0 then return (ret, s)
    untilNonzero visit is s

/-- The members from an index on that are at its offset. -/
def atSameOffset (u : Uniqtype) (ind : Nat) : List Nat :=
  (List.range' ind (u.compositeMemberCount - ind)).takeWhile
    fun i => (u.rel i).off == (u.rel ind).off

/-- `__liballocs_walk_subobjects_spanning_rec`; the callback keeps a state of its own. -/
def walkSubobjectsSpanningRec {σ : Type} (types : Nat → Uniqtype) (cb : Visit → σ → Int × σ) :
    Nat → Nat → Nat → Nat → Nat → σ → Option (Int × σ)
  | 0, _, _, _, _, _ => none
  | fuel + 1, accumOffset, accumDepth, target, t, s =>
    let u := types t
    if u.isArrayType then
      let elementSize := (types u.arrayElementType).posMaxoff
      let div := target / elementSize
      -- the division comes before the check
      if elementSize = 0 then none
      else if u.arrayLength > div then
        let (ret, s) := cb ⟨u.arrayElementType, accumOffset + div * elementSize, accumDepth + 1, t,
          0, accumOffset⟩ s
        if ret ≠ 0 then some (ret, s)
        else walkSubobjectsSpanningRec types cb fuel (accumOffset + div * elementSize)
          (accumDepth + 1) (target % elementSize) u.arrayElementType s
      else some (0, s)
    else
      match lowestSpanning u target with
      | none => some (0, s)
      | some lowerInd =>
        let offset := (u.rel lowerInd).off
        untilNonzero (fun i s =>
          if target < u.posMaxoff then
            let (ret, s) := cb ⟨(u.rel i).ptr, accumOffset + offset, accumDepth + 1, t, i,
              accumOffset⟩ s
            if ret ≠ 0 then some (ret, s)
            else walkSubobjectsSpanningRec types cb fuel (accumOffset + offset)
              (accumDepth + 1) (target - offset) (u.rel i).ptr s
          else some (0, s)) (atSameOffset u lowerInd) s

/-- `__liballocs_walk_subobjects_spanning`. -/
def walkSubobjectsSpanning {σ : Type} (types : Nat → Uniqtype) (cb : Visit → σ → Int × σ)
    (fuel target t : Nat) (s : σ) : Option (Int × σ) :=
  walkSubobjectsSpanningRec types cb fuel 0 0 target t s

/-! ### The search -/

/-- `__liballocs_first_subobject_spanning`: the offset within the subobject, and the index of
`contained_pos`. -/
def firstSubobjectSpanning (types : Nat → Uniqtype) (target t : Nat) : Option (Nat × Nat) :=
  let u := types t
  if u.isArrayType then
    let elementSize := (types u.arrayElementType).posMaxoff
    if elementSize ≠ 0 ∧ u.arrayLength > target / elementSize then
      some (target % elementSize, 0)
    else none
  else
    (lowestSpanning u target).map fun lowerInd => (target - (u.rel lowerInd).off, lowerInd)

/-- What the search writes through its other arguments; none of them is null here. -/
structure SearchOut where
  lastAttemptedUniqtype : Nat := 0
  lastUniqtypeOffset : Nat := 0
  cumulativeOffsetSearched : Nat := 0
  curContainingUniqtype : Nat := 0
  curContainedPos : Option Nat := none
deriving DecidableEq, Repr

/-- The loop of the search: the subobject at an index, and then the later ones at its offset. -/
def searchSiblings (u : Uniqtype) (containing : Nat)
    (test : Nat → SearchOut → Option (Bool × SearchOut)) :
    Nat → Nat → SearchOut → Option (Bool × SearchOut)
  | 0, _, _ => none
  | fuel + 1, ind, out => do
    let (recursiveTest, out) ← test (u.rel ind).ptr out
    if recursiveTest then
      return (true, { out with
        curContainingUniqtype := containing, curContainedPos := some ind })
    if u.compositeMemberCount ≤ ind + 1 ∨ (u.rel (ind + 1)).off ≠ (u.rel ind).off then
      return (false, out)
    searchSiblings u containing test fuel (ind + 1) out

/-- `__liballocs_find_matching_subobject`. -/
def findMatchingSubobject (types : Nat → Uniqtype) (testUniqtype : Nat) :
    Nat → Nat → Nat → SearchOut → Option (Bool × SearchOut)
  | 0, _, _, _ => none
  | fuel + 1, target, t, out =>
    if target = 0 ∧ (testUniqtype = 0 ∨ t = testUniqtype) then
      some (true, { out with curContainingUniqtype := 0, curContainedPos := none })
    else
      let u := types t
      match firstSubobjectSpanning types target t with
      | none => some (false, out)
      | some (subTarget, ind) =>
        searchSiblings u t (findMatchingSubobject types testUniqtype fuel subTarget)
          (u.compositeMemberCount + 1) ind
          { out with
            cumulativeOffsetSearched := out.cumulativeOffsetSearched + (u.rel ind).off
            lastAttemptedUniqtype := (u.rel ind).ptr
            lastUniqtypeOffset := subTarget }

end Liballocs
