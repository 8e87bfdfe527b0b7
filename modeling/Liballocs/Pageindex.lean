/-
Creating, deleting and resizing bigallocs (`src/pageindex.c`).

Recursive functions carry a bound on their depth; callers pass `nbigallocs`, which the depth of a
record is below in any table whose parent links end.  `none` is an abort, or a bound used up; a null
pointer is record zero, which is never in use.
-/
import Liballocs.Table

namespace Liballocs.Table

variable (env : Env)

/-! ### Deletion -/

/-- The loop of `bigalloc_del` over the children, whose successors are read first. -/
def delChildren (del : Table → Nat → Option Table) : Nat → Table → Nat → Option Table
  | 0, t, child => if child = 0 then some t else none
  | fuel + 1, t, child =>
    if child = 0 then some t
    else do
      let nextChild := (t.bigAllocations child).nextSib
      delChildren del fuel (← del t child) nextChild

/-- Delete the user metadata of a record, if the user told us we need to. -/
def freeMetadata (t : Table) (r : BigAllocation) : Table :=
  let t := match r.allocatorPrivateFree with
    | some f => if r.allocatorPrivate ≠ 0 then t.free f r.allocatorPrivate else t
    | none => t
  match r.suballocatorPrivateFree with
  | some f => t.free f r.suballocatorPrivate
  | none => t

/-- The part of `bigalloc_del` after the children are gone. -/
def delSelf (t : Table) (b : Nat) : Option Table := do
  let t := t.freeMetadata (t.bigAllocations b)
  let parent := (t.bigAllocations b).parent
  let t ← t.unlink b
  let t ← t.memset env (roundUp (t.bigAllocations b).begin pageSize)
    (roundDown (t.bigAllocations b).end_ pageSize) parent
  return t.clearBigallocNomemset b

/-- `bigalloc_del`. -/
def bigallocDel : Nat → Table → Nat → Option Table
  | 0, _, _ => none
  | depth + 1, t, b => do
    let t ← delChildren (bigallocDel depth) nbigallocs t (t.bigAllocations b).firstChild
    t.delSelf env b

/-! ### Creation -/

/-- `bigalloc_init_nomemset`; `r` gives the bounds and everything but the links. -/
def bigallocInitNomemset (t : Table) (b : Nat) (r : BigAllocation) (parent : Nat) :
    Option Table :=
  let t := t.modify b fun old =>
    { r with firstChild := 0, nextSib := 0, prevSib := 0, parent := old.parent }
  if parent ≠ 0 then some (t.addChild b parent) else t.addToplevel b

/-- `bigalloc_init`. -/
def bigallocInit (t : Table) (b : Nat) (r : BigAllocation) (parent : Nat) : Option Table := do
  let t ← t.bigallocInitNomemset b r parent
  t.memset env (roundUp (t.bigAllocations b).begin pageSize)
    (roundDown (t.bigAllocations b).end_ pageSize) b

/-- `bigalloc_new`. -/
def bigallocNew (t : Table) (ptr size parent : Nat) (allocatorPrivate : Nat)
    (allocatorPrivateFree : Option FreeFn) (allocatedBy : Option Allocator) :
    Option (Nat × Table) := do
  let b ← t.findFreeBigalloc
  let t ← t.bigallocInit env b
    { begin := ptr, end_ := ptr + size, allocatorPrivate, allocatorPrivateFree, allocatedBy }
    parent
  return (b, t)

/-! ### Moving a bound -/

/-- `__liballocs_extend_bigalloc`. -/
def extendBigalloc (t : Table) (b newEnd : Nat) : Option Table :=
  let oldEnd := (t.bigAllocations b).end_
  let t := t.modify b fun r => { r with end_ := newEnd }
  t.memset env (roundDown oldEnd pageSize) (roundDown newEnd pageSize) b

/-- `is_one_or_more_levels_under`. -/
def isOneOrMoreLevelsUnder (t : Table) (maybeLower : Nat) : Nat → Nat → Option Bool
  | 0, _ => none
  | depth + 1, b =>
    if maybeLower = b then some false
    else do
      let l ← t.children b
      if maybeLower ∈ l then return true
      l.anyM (isOneOrMoreLevelsUnder t maybeLower depth)

/-- `__liballocs_pre_extend_bigalloc`. -/
def preExtendBigalloc (t : Table) (b newBegin : Nat) : Option Table := do
  let oldBegin := (t.bigAllocations b).begin
  if newBegin < oldBegin then
    let t := t.modify b fun r => { r with begin := newBegin }
    -- do we now cover the whole page that contains the old begin, with no child covering it?
    let pastOldPage := pagenum (t.bigAllocations b).end_ > pagenum oldBegin
    let childThere ← if pastOldPage then
        t.isOneOrMoreLevelsUnder (t.pageindex (pagenum oldBegin)) nbigallocs b
      else some false
    t.memset env (roundUp newBegin pageSize)
      (if pastOldPage ∧ !childThere then roundUp oldBegin pageSize
        else roundDown oldBegin pageSize) b
  else return t

/-- `__liballocs_pre_extend_bigalloc_recursive`: ancestors first, each to its alignment. -/
def preExtendBigallocRecursive : Nat → Table → Nat → Nat → Option Table
  | 0, _, _, _ => none
  | depth + 1, t, b, newBegin => do
    let parent := (t.bigAllocations b).parent
    let t ← if parent ≠ 0 then do
        let a ← (t.bigAllocations parent).allocatedBy
        let align := env.minAlignment a
        preExtendBigallocRecursive depth t parent
          (if align ≠ 0 then roundDown newBegin align else newBegin)
      else some t
    t.preExtendBigalloc env b newBegin

/-- `__liballocs_truncate_bigalloc_at_end`. -/
def truncateBigallocAtEnd (t : Table) (b newEnd : Nat) : Option Table :=
  let oldEnd := (t.bigAllocations b).end_
  let t := t.modify b fun r => { r with end_ := newEnd }
  t.memset env (roundDown newEnd pageSize) (roundDown oldEnd pageSize)
    (t.bigAllocations b).parent

/-- `__liballocs_truncate_bigalloc_at_beginning`. -/
def truncateBigallocAtBeginning (t : Table) (b newBegin : Nat) : Option Table :=
  let oldBegin := (t.bigAllocations b).begin
  let t := t.modify b fun r => { r with begin := newBegin }
  t.memset env (roundUp oldBegin pageSize) (roundUp newBegin pageSize)
    (t.bigAllocations b).parent

/-- `__adjust_bigalloc_end`. -/
def adjustBigallocEnd (t : Table) (b newEnd : Nat) : Option Table :=
  let oldEnd := (t.bigAllocations b).end_
  if newEnd < oldEnd then t.truncateBigallocAtEnd env b newEnd
  else if newEnd > oldEnd then t.extendBigalloc env b newEnd
  else some t

/-! ### Splitting -/

/-- The loop that hands the children in the second half of `b` to `new`. -/
def splitChildren (b new splitAddr : Nat) : Nat → Table → Nat → Option Table
  | 0, t, child => if child = 0 then some t else none
  | fuel + 1, t, child =>
    if child = 0 then some t
    else do
      let c := t.bigAllocations child
      let withinFirstHalf := c.begin ≥ (t.bigAllocations b).begin ∧ c.end_ ≤ splitAddr
      let withinSecondHalf := c.begin ≥ splitAddr ∧ c.end_ ≤ (t.bigAllocations b).end_
      if withinFirstHalf ∧ withinSecondHalf then none
      else if withinSecondHalf then
        splitChildren b new splitAddr fuel ((← t.unlinkChild child).addChild child new) c.nextSib
      else splitChildren b new splitAddr fuel t c.nextSib

/-- `__liballocs_split_bigalloc_at_page_boundary`. -/
def splitBigallocAtPageBoundary (t : Table) (b splitAddr : Nat) : Option (Nat × Table) := do
  let tmp := t.bigAllocations b
  let new ← t.findFreeBigalloc
  let t ← t.bigallocInitNomemset new
    { tmp with begin := splitAddr, end_ := splitAddr + (tmp.end_ - splitAddr) } tmp.parent
  let t ← splitChildren b new splitAddr nbigallocs t (t.bigAllocations b).firstChild
  let t := t.modify b fun r => { r with end_ := splitAddr }
  -- the old number gives way to the new one, but the numbers of children stay
  let first := pagenum (roundUp (t.bigAllocations new).begin pageSize)
  let last := pagenum (roundUp (t.bigAllocations new).end_ pageSize)
  return (new, { t with
    pageindex := fun q =>
      if first ≤ q ∧ q < last ∧ t.pageindex q = b then new else t.pageindex q })

end Liballocs.Table
