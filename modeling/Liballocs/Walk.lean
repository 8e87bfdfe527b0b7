/-
Walking allocations (`src/walk.c`, `include/allocmeta.h`).

Under a bigalloc are the allocations of its suballocator and, if a flag asks for them, the children it
does not know of; under a typed object are its subobjects.  The depth-first walk has a callback that
walks what it is called for.  `none` is a call of a suballocator that is not there, or fuel used up.
-/
import Liballocs.Lib.Calls
import Liballocs.Table

namespace Liballocs

open Calls (callEach)

/-- The `bigalloc_or_uniqtype` of a position. -/
inductive BigallocOrUniqtype where
  | bigalloc (b : Nat)
  | uniqtype (t : Nat)
deriving DecidableEq, Repr

/-- `struct alloc_tree_pos`, with the flag `ALLOC_WALK_BIGALLOC_IMPOSED_CHILDREN`. -/
structure AllocTreePos where
  base : Nat
  bigallocOrUniqtype : BigallocOrUniqtype
  imposedChildren : Bool := false
deriving DecidableEq, Repr

/-- `struct alloc_tree_link`. -/
structure AllocTreeLink where
  container : AllocTreePos
  containeeCoord : Nat
deriving DecidableEq, Repr

/-- `struct alloc_tree_path`, and the one that is "initially empty". -/
inductive AllocTreePath where
  | empty
  | under (toHere : AllocTreeLink) (encl : AllocTreePath) (enclDepth : Nat)
deriving DecidableEq, Repr

/-- The depth of a path. -/
def AllocTreePath.enclDepth : AllocTreePath → Nat
  | empty => 0
  | under _ _ enclDepth => enclDepth

/-- The arguments of a `walk_alloc_cb_t`, with a link or with a path. -/
structure AllocVisit (Link : Type) where
  maybeTheAllocation : Nat
  obj : Nat
  t : Nat := 0
  allocsite : Nat := 0
  link : Link
deriving DecidableEq, Repr

/-- `walk_alloc_cb_t`, from a state and the arguments to the result and a state. -/
abbrev WalkAllocCb (σ : Type) : Type := σ → AllocVisit AllocTreeLink → Option (Int × σ)

/-- What a walk reads and calls. -/
structure WalkEnv where
  table : Table
  /-- The types and offsets that `UNIQTYPE_FOR_EACH_SUBOBJECT` goes through, none for a type without
  `UNIQTYPE_HAS_SUBOBJECTS`. -/
  forEachSubobject : Nat → List (Nat × Nat)
  /-- What the `walk_allocations` of an allocator calls back for in a bigalloc. -/
  allocations : Allocator → Nat → List (AllocVisit AllocTreeLink)

namespace WalkEnv

variable {σ : Type}

/-- What the `walk_allocations` of an allocator calls back for in a range. -/
def allocationsIn (env : WalkEnv) (suballocator : Allocator) (b begin end_ : Nat) :
    List (AllocVisit AllocTreeLink) :=
  (env.allocations suballocator b).filter fun v => begin ≤ v.obj ∧ v.obj < end_

/-- `b->suballocator->walk_allocations`. -/
def walkSuballocator (env : WalkEnv) (b : Nat) (cb : WalkAllocCb σ) (begin end_ : Nat) (s : σ) :
    Option (Int × σ) := do
  let suballocator ← (env.table.bigAllocations b).suballocator
  callEach cb (env.allocationsIn suballocator b begin end_) s

/-- Where the walk of a bigalloc ends. -/
def rangeEnd (env : WalkEnv) (b : Nat) (maybeRangeEnd : Option Nat) : Nat :=
  maybeRangeEnd.getD (env.table.bigAllocations b).end_

/-- It's an imposed child. -/
def isImposed (env : WalkEnv) (b child : Nat) : Bool :=
  (env.table.bigAllocations b).suballocator = none
    || (env.table.bigAllocations child).allocatedBy ≠ (env.table.bigAllocations b).suballocator

/-- The visit of `b` that stands for an imposed child. -/
def visitOf (env : WalkEnv) (b coord : Nat) : AllocVisit AllocTreeLink :=
  let begin := (env.table.bigAllocations b).begin
  { maybeTheAllocation := b, obj := begin, link := ⟨⟨begin, .bigalloc b, false⟩, coord⟩ }

/-- The bigalloc case of `__liballocs_walk_allocations`, with the children that are to be considered. -/
def walkBigalloc (env : WalkEnv) (b : Nat) (cb : WalkAllocCb σ) (maybeRangeEnd : Option Nat) :
    List Nat → Nat → Nat → σ → Option (Int × σ)
  | [], _, walkedUpTo, s => env.walkSuballocator b cb walkedUpTo (env.rangeEnd b maybeRangeEnd) s
  | child :: rest, coord, walkedUpTo, s =>
    let c := env.table.bigAllocations child
    if c.end_ ≤ walkedUpTo ∨ maybeRangeEnd.any (· < c.begin) ∨ ¬ env.isImposed b child then
      env.walkBigalloc b cb maybeRangeEnd rest (coord + 1) c.end_ s
    else do
      -- 1. walk non-i.c. suballocations
      let r ← env.walkSuballocator b cb walkedUpTo c.begin s
      if r.1 ≠ 0 then return r
      -- 2. walk the i.c.
      let r ← cb r.2 (env.visitOf b coord)
      if r.1 ≠ 0 then return r
      env.walkBigalloc b cb maybeRangeEnd rest (coord + 1) c.end_ r.2

/-- `suballoc_thing` for each subobject. -/
def subobjectVisits (env : WalkEnv) (scope : AllocTreePos) (t : Nat) : List (AllocVisit AllocTreeLink) :=
  ((env.forEachSubobject t).zipIdx 1).map fun x =>
    { maybeTheAllocation := 0, obj := scope.base + x.1.2, t := x.1.1, link := ⟨scope, x.2⟩ }

/-- The children that are to be considered. -/
def consideredChildren (env : WalkEnv) (scope : AllocTreePos) (b : Nat) : Option (List Nat) :=
  if scope.imposedChildren then env.table.children b else some []

/-- `__liballocs_walk_allocations`. -/
def walkAllocations (env : WalkEnv) (scope : AllocTreePos) (cb : WalkAllocCb σ)
    (maybeRangeBegin maybeRangeEnd : Option Nat) (s : σ) : Option (Int × σ) :=
  match scope.bigallocOrUniqtype with
  | .bigalloc b => do
    let children ← env.consideredChildren scope b
    env.walkBigalloc b cb maybeRangeEnd children 1 (maybeRangeBegin.getD scope.base) s
  | .uniqtype t => callEach cb (env.subobjectVisits scope t) s

/-- The bigalloc that describes the allocation, which the allocator need not know of. -/
def theAllocation (env : WalkEnv) (v : AllocVisit AllocTreeLink) : Option Nat :=
  match v.link.container.bigallocOrUniqtype with
  | .bigalloc b =>
    if v.t = 0 then some v.maybeTheAllocation
    else (env.table.children b).map fun children =>
      (children.find? fun child => (env.table.bigAllocations child).begin = v.obj).getD
        v.maybeTheAllocation
  | .uniqtype _ => some v.maybeTheAllocation

/-- The `new_pos` of `walk_one_df_cb`. -/
def newPos (theAllocation obj t : Nat) : AllocTreePos where
  base := obj
  bigallocOrUniqtype := if theAllocation ≠ 0 then .bigalloc theAllocation else .uniqtype t

/-- `walk_one_df_cb`. -/
def walkOneDfCb (env : WalkEnv) (cb : σ → AllocVisit AllocTreePath → Int × σ) :
    Nat → AllocTreePath → WalkAllocCb σ
  | 0, _, _, _ => none
  | fuel + 1, pathToContainer, s, v => do
    let theAllocation ← env.theAllocation v
    let pathToHere := .under v.link pathToContainer (1 + pathToContainer.enclDepth)
    let r := cb s ⟨theAllocation, v.obj, v.t, v.allocsite, pathToHere⟩
    if r.1 = -1 then return (0, r.2) -- tell the caller to carry on *its* traversal
    if r.1 ≠ 0 then return r
    if theAllocation = 0 ∧ v.t = 0 then return (0, r.2)
    env.walkAllocations (newPos theAllocation v.obj v.t) (env.walkOneDfCb cb fuel pathToHere)
      none none r.2

/-- `__liballocs_walk_allocations_df`. -/
def walkAllocationsDf (env : WalkEnv) (fuel : Nat) (underHere : AllocTreePos)
    (cb : σ → AllocVisit AllocTreePath → Int × σ) (s : σ) : Option (Int × σ) :=
  env.walkAllocations underHere (env.walkOneDfCb cb fuel .empty) none none s

end WalkEnv

end Liballocs
