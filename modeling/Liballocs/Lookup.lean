/-
Finding bigallocs by address, and the two entry points that create and delete them
(`src/pageindex.c`, `include/pageindex.h`).

A lookup yields a record number, zero for null, and where it may meet an unindexed address also the
table, which asking around can change.
-/
import Liballocs.Unindexed

namespace Liballocs.Table

variable (env : Env)

/-! ### Lookup by allocator -/

/-- `find_bigalloc_recursive` below a given record. -/
def findBigallocRecursive (t : Table) (addr : Nat) (a : Allocator) (matchSuballocator : Bool) :
    Nat → Nat → Option Nat
  | 0, _ => none
  | depth + 1, start =>
    let r := t.bigAllocations start
    if (if matchSuballocator then r.suballocator else r.allocatedBy) = some a then some start
    else do
      match (← t.children start).find? (t.contains addr) with
      | some child => findBigallocRecursive t addr a matchSuballocator depth child
      | none => some 0

/-- `while (BIDX(start->parent)) start = BIDX(start->parent)`. -/
def rootOf (t : Table) : Nat → Nat → Option Nat
  | 0, _ => none
  | fuel + 1, n =>
    let parent := (t.bigAllocations n).parent
    if parent = 0 then some n else rootOf t fuel parent

/-- The lookup from the root once a page entry is known. -/
def findBigallocFromEntry (t : Table) (entry addr : Nat) (a : Allocator)
    (matchSuballocator : Bool) : Option Nat := do
  t.findBigallocRecursive addr a matchSuballocator nbigallocs (← t.rootOf nbigallocs entry)

/-- The backward search for an indexed page, in 64-bit arithmetic. -/
def searchBackwards (t : Table) (page : Nat) : Nat → Nat → Nat
  | 0, searchPagenum => searchPagenum
  | fuel + 1, searchPagenum =>
    if searchPagenum > 0 ∧ t.pageindex searchPagenum = 0 then
      if (searchPagenum + 2 ^ 64 - page) % 2 ^ 64 > 128 then searchPagenum
      else searchBackwards t page fuel (searchPagenum - 1)
    else searchPagenum

/-- What `find_bigalloc_recursive` does about an unindexed address before traps are initialised. -/
def probeEarly (t : Table) (addr : Nat) : Option Table :=
  -- HACK: bigalloc 1 is the private malloc heap
  if (t.bigAllocations 2).begin ≠ 0 then
    let searchPagenum := t.searchBackwards (pagenum addr) (pagenum addr + 1) (pagenum addr)
    let entry := t.pageindex searchPagenum
    if entry ≠ 0 then do
      -- have we found the brk allocator? test the highest address on the page
      let found ← t.findBigallocFromEntry entry (searchPagenum * pageSize + (pageSize - 1)) .brk false
      if found ≠ 0 then t.brkAllocatorNotifyBrk env env.sbrk else some t
    else some t
  else if t.mmapInitialized || t.mmapTryingToInitialize then some t
  else env.mmapAllocatorInit t

/-- `find_bigalloc_recursive` without a start: from the root of whatever the page index holds. -/
def findBigallocFromTop (t : Table) (addr : Nat) (a : Allocator) (matchSuballocator : Bool) :
    Option (Nat × Table) := do
  if t.pageindex (pagenum addr) = 0 ∧ !env.systrapIsInitialized then
    let t ← t.probeEarly env addr
    let entry := t.pageindex (pagenum addr)
    if entry = 0 then return (0, t)
    return (← t.findBigallocFromEntry entry addr a matchSuballocator, t)
  else return (← t.findBigallocFromEntry (t.pageindex (pagenum addr)) addr a matchSuballocator, t)

/-- `__lookup_bigalloc_from_root`. -/
def lookupBigallocFromRoot (t : Table) (addr : Nat) (a : Allocator) : Option (Nat × Table) :=
  t.findBigallocFromTop env addr a false

/-- `__lookup_bigalloc_top_level`. -/
def lookupBigallocTopLevel (t : Table) (mem : Nat) : Option Nat :=
  t.rootOf nbigallocs (t.pageindex (pagenum mem))

/-- `__liballocs_get_memory_mapping`: the entry, with the bigalloc. -/
def getMemoryMapping (t : Table) (obj : Nat) : Option (Option (MappingEntry × Nat)) := do
  let b ← t.lookupBigallocTopLevel obj
  if b = 0 then return none
  match t.sequences (t.bigAllocations b).allocatorPrivate with
  | none => return none
  | some seq => return (seq.findEntry obj).map (·, b)

/-! ### The deepest bigalloc -/

/-- `find_deepest_bigalloc_recursive`.  The recursive call never yields null, so the first
child that holds the address settles it. -/
def findDeepestBigallocRecursive (t : Table) (addr : Nat) : Nat → Nat → Option Nat
  | 0, _ => none
  | depth + 1, start => do
    match (← t.children start).find? (t.contains addr) with
    | some child => findDeepestBigallocRecursive t addr depth child
    | none => some start

/-- `find_deepest_bigalloc`. -/
def findDeepestBigalloc (t : Table) (addr : Nat) : Option (Nat × Table) := do
  if t.pageindex (pagenum addr) = 0 then
    let (_, t) ← t.notifyUnindexedAddress env addr
    let start := t.pageindex (pagenum addr)
    if start = 0 then return (0, t)
    return (← t.findDeepestBigallocRecursive addr nbigallocs start, t)
  else return (← t.findDeepestBigallocRecursive addr nbigallocs (t.pageindex (pagenum addr)), t)

/-- `__liballocs_get_bigalloc_containing`. -/
def getBigallocContaining (t : Table) (obj : Nat) : Nat := t.pageindex (pagenum obj)

/-- The loop of `__liballocs_leaf_allocator_for`.  The last child that holds the address is the next
current record. -/
def leafLoop (t : Table) (obj : Nat) : Nat → Nat → Nat → Option Nat
  | 0, cur, deepest => if cur = 0 then some deepest else none
  | fuel + 1, cur, deepest =>
    if cur = 0 then some deepest
    else do
      let cur' := (← t.children cur).foldl
        (fun cur' child => if t.contains obj child then child else cur') cur
      leafLoop t obj fuel (if cur' = cur then 0 else cur') cur

/-- The `deepest` that `__liballocs_leaf_allocator_for` arrives at. -/
def leafBigallocFor (t : Table) (obj : Nat) : Option Nat :=
  t.leafLoop obj nbigallocs (t.getBigallocContaining obj) 0

/-- `__liballocs_leaf_allocator_for`: the allocator, and the bigalloc it hands out. -/
def leafAllocatorFor (t : Table) (obj : Nat) : Option (Option Allocator × Nat) := do
  let deepest ← t.leafBigallocFor obj
  if deepest = 0 then return (none, 0)
  let r := t.bigAllocations deepest
  return (if r.suballocator.isSome then r.suballocator else r.allocatedBy, deepest)

/-! ### Common ancestors -/

/-- `get_common_parent_bigalloc_recursive`. -/
def getCommonParentBigallocRecursive (t : Table) : Nat → Nat → Nat → Nat → Nat
  | b1, _, b2, 0 => if b1 = b2 then b1 else 0
  | b1, depth1, b2, depth2 + 1 =>
    if b1 = b2 then b1
    else if depth1 = 0 then 0
    else if depth1 > depth2 + 1 then
      getCommonParentBigallocRecursive t (t.bigAllocations b1).parent (depth1 - 1) b2 depth2
    else getCommonParentBigallocRecursive t b1 depth1 (t.bigAllocations b2).parent depth2

/-- `__liballocs_find_common_parent_bigalloc`. -/
def findCommonParentBigalloc (t : Table) (ptr end_ : Nat) : Option (Nat × Table) := do
  let (b1, t) ← t.findDeepestBigalloc env ptr
  let (b2, t) ← t.findDeepestBigalloc env end_
  let depth1 ← t.bigallocDepth nbigallocs b1
  let depth2 ← t.bigallocDepth nbigallocs b2
  return (t.getCommonParentBigallocRecursive b1 depth1 b2 depth2, t)

/-! ### Neighbouring mappings -/

/-- `__liballocs_find_mapping_at_or_above`. -/
def findMappingAtOrAbove (t : Table) (addr : Nat) : Option Nat := do
  let found ← t.findToplevelHighestLt addr
  if found = 0 then return 0
  else if (t.bigAllocations found).end_ ≤ addr then t.findToplevelLowestGe addr
  else return found

/-- `__liballocs_find_mapping_below`. -/
def findMappingBelow (t : Table) (addr : Nat) : Option Nat := do
  let found ← t.findToplevelHighestLt addr
  if found = 0 then return 0
  else if (t.bigAllocations found).end_ > addr then
    t.findToplevelHighestLt (t.bigAllocations found).begin
  else return found

/-! ### Creation and deletion -/

/-- The arguments of `__liballocs_new_bigalloc`. -/
structure NewRequest where
  ptr : Nat
  size : Nat
  allocatorPrivate : Nat := 0
  allocatorPrivateFree : Option FreeFn := none
  maybeParent : Nat := 0
  allocatedBy : Option Allocator

/-- The parent `__liballocs_new_bigalloc` settles on. -/
def newBigallocParent (t : Table) (r : NewRequest) : Option (Nat × Table) :=
  if r.maybeParent ≠ 0 then some (r.maybeParent, t)
  else do
    let (deepestAtStart, t) ← t.findDeepestBigalloc env r.ptr
    let (deepestAtEnd, t) ← t.findDeepestBigalloc env (r.ptr + r.size - 1)
    if deepestAtStart ≠ deepestAtEnd then none
    else if deepestAtStart = 0
        ∧ (roundUp r.ptr pageSize ≠ r.ptr ∨ roundUp (r.ptr + r.size) pageSize ≠ r.ptr + r.size) then
      -- no parent is okay only if we're page-aligned
      none
    else some (deepestAtStart, t)

/-- `__liballocs_new_bigalloc`. -/
def newBigalloc (t : Table) (r : NewRequest) : Option (Nat × Table) :=
  if r.size > env.biggestSaneUserAlloc then none
  else do
    let (parent, t) ← t.newBigallocParent env r
    t.bigallocNew env r.ptr r.size parent r.allocatorPrivate r.allocatorPrivateFree r.allocatedBy

/-- `__liballocs_delete_bigalloc_at`. -/
def deleteBigallocAt (t : Table) (begin : Nat) (a : Allocator) : Option (Bool × Table) := do
  let (b, t) ← t.findBigallocFromTop env begin a false
  if b = 0 then return (false, t)
  return (true, ← t.bigallocDel env nbigallocs b)

/-- `__liballocs_delete_all_bigallocs_overlapping_range`: page by page, the whole tree there goes. -/
def deleteAllBigallocsOverlappingRange (end_ : Nat) : Nat → Table → Nat → Option Table
  | 0, t, deletedUpTo => if deletedUpTo < end_ then none else some t
  | fuel + 1, t, deletedUpTo =>
    if deletedUpTo < end_ then
      let entry := t.pageindex (pagenum deletedUpTo)
      -- one page of the search for the next nonzero entry
      if entry = 0 then deleteAllBigallocsOverlappingRange end_ fuel t (deletedUpTo + pageSize)
      else if (t.bigAllocations entry).begin = 0 ∨ (t.bigAllocations entry).end_ = 0 then none
      else do
        let b ← t.rootOf nbigallocs entry
        if (t.bigAllocations b).end_ ≤ deletedUpTo then none
        else
          deleteAllBigallocsOverlappingRange end_ fuel (← t.bigallocDel env nbigallocs b)
            (t.bigAllocations b).end_
    else some t

end Liballocs.Table
