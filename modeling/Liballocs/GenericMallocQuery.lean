/-
Queries on a malloc-like heap (`include/generic_malloc_index.h`).

The chunk of an address has the last bit set at or below that of the address.  What is further away
than the biggest chunk that was not promoted is hidden from the search.  A promoted chunk is found as
the bigalloc that holds the address.

`bitmap_rfind_first_set_leq_l` is a library's: asked to start beyond the end of the bitmap it may start
at the end (`rfindClamps`), or read there, which does not return.  One arena is modelled, and no query
about an address without one.  The counters and the list of unrecognised sites are left out.
-/
import Liballocs.GenericMallocIndex

namespace Liballocs

/-- The errors of a query. -/
inductive LiballocsErr where
  | unindexedHeapObject
  | unrecognisedAllocSite
deriving DecidableEq, Repr

/-- What queries take from outside: the build, the helper on bitmaps, the tables of allocation sites.
-/
structure QueryEnv where
  /-- Is `NDEBUG` defined? -/
  ndebug : Bool := true
  /-- Does `bitmap_rfind_first_set_leq_l` start at the end when asked to start beyond it? -/
  rfindClamps : Bool := false
  /-- The searches in bitmaps. -/
  bitmaps : Bits.Searches := .byOne
  /-- The uniqtype of the entry that `__liballocs_find_allocsite_entry_at` finds. -/
  findAllocsiteEntryAt : Nat → Option Nat := fun _ => none
  /-- `__liballocs_allocsite_id`. -/
  allocsiteId : Nat → BitVec 16 := fun _ => 0

/-! ### The insert -/

namespace Insert

/-- An insert with a type: what is not given is zero. -/
def typed (uniqtype : Nat) (allocSiteId : BitVec 15) : Insert :=
  ofWithType
    { uniqtypeShifted := BitVec.ofNat 44 (uniqtypeShiftForInsert uniqtype), always1 := 1, allocSiteId }

/-- The `existing_alloc_site_id` of `__generic_malloc_set_type`. -/
def existingAllocSiteId (q : QueryEnv) (ins : Insert) : BitVec 32 :=
  if ins.isWithType then ins.withType.allocSiteId.signExtend 32
  else (q.allocsiteId ins.initial.allocSite.toNat).setWidth 32

/-- What `__generic_malloc_set_type` makes of an insert. -/
def setType (q : QueryEnv) (ins : Insert) (newType : Nat) : Insert :=
  typed newType ((ins.existingAllocSiteId q).setWidth 15)

end Insert

/-- What `extract_and_output_alloc_site_and_type` returns, outputs and leaves in the insert. -/
structure Extracted where
  err : Option LiballocsErr := none
  outType : Nat := 0
  outSite : Nat := 0
  insert : Insert

/-- `extract_and_output_alloc_site_and_type` of an insert. -/
def extractAndOutputAllocSiteAndType (q : QueryEnv) (ins : Insert) : Extracted :=
  if ins.isWithType then
    if ins.uniqtype = 0 then
      { err := some .unrecognisedAllocSite, insert := if q.ndebug then .typed 0 (-1) else ins }
    else { outType := ins.uniqtype, insert := ins }
  else
    let allocSite := ins.initial.allocSite.toNat
    let allocUniqtype := (q.findAllocsiteEntryAt allocSite).getD 0
    let ins := if q.ndebug then .typed allocUniqtype ((q.allocsiteId allocSite).setWidth 15) else ins
    if allocUniqtype = 0 then
      -- we null out the allocsite to avoid repeated searching
      { err := some .unrecognisedAllocSite, outSite := allocSite,
        insert := if q.ndebug then .typed 0 (-1) else ins }
    else { outType := allocUniqtype, outSite := allocSite, insert := ins }

/-! ### The bitmap -/

/-- `allocsize_to_usersize`. -/
def allocsizeToUsersize (allocsz : Nat) : Nat := sub64 allocsz sizeofInsert

/-- `usersize`. -/
def usersize (userptr : Nat) (sizefn : Nat → Nat) : Nat := allocsizeToUsersize (sizefn userptr)

namespace ArenaBitmapInfo

/-- `bitmap_rfind_first_set_leq_l` in the part of the bitmap that begins with the word `hidden`. -/
def bitmapRfindFirstSetLeq (q : QueryEnv) (info : ArenaBitmapInfo) (hidden startIdx : Nat) :
    Option (Option Nat) :=
  let bit := fun i => info.bitmap (hidden * bitmapWordNbits + i)
  let nbits := (info.nwords - hidden) * bitmapWordNbits
  if startIdx < nbits then some (q.bitmaps.lastLeq bit startIdx)
  else if q.rfindClamps then some (if nbits = 0 then none else q.bitmaps.lastLeq bit (nbits - 1))
  else none

/-- `nbits_hidden`. -/
def nbitsHidden (q : QueryEnv) (info : ArenaBitmapInfo) (mem : Nat) : Nat :=
  if q.ndebug then
    let fakeBitmapBaseAddr := roundDown (sub64 mem info.biggestUnpromotedObject)
      (mallocAlign * bitmapWordNbits)
    if fakeBitmapBaseAddr > info.bitmapBaseAddr then
      bitmapWordNbits
        * ((fakeBitmapBaseAddr - info.bitmapBaseAddr) / (mallocAlign * bitmapWordNbits))
    else 0
  else 0

/-- `start_idx`, which is an `unsigned`. -/
def startIdx (info : ArenaBitmapInfo) (mem : Nat) : Nat :=
  (mem - info.bitmapBaseAddr) / mallocAlign % 2 ^ 32

/-- `lookup_object_info_via_bitmap`: the insert's address, the object's start, its `usersize`. -/
def lookupObjectInfoViaBitmap (q : QueryEnv) (info : ArenaBitmapInfo) (mem : Nat)
    (sizefn : Nat → Nat) : Option (Option (Nat × Nat × Nat)) := do
  let nbitsHidden := info.nbitsHidden q mem
  let found ← info.bitmapRfindFirstSetLeq q (nbitsHidden / bitmapWordNbits)
    (sub64 (info.startIdx mem) nbitsHidden)
  return found.map fun foundBitidx =>
    let objectStart := info.bitmapBaseAddr + mallocAlign * (foundBitidx + nbitsHidden)
    (insertForChunk objectStart sizefn, objectStart, usersize objectStart sizefn)

end ArenaBitmapInfo

/-! ### Queries -/

namespace MallocIndex

open Table

variable (env : Env) (a : Allocator) (q : QueryEnv)

/-- `arena_for_userptr`. -/
def arenaForUserptr (m : MallocIndex) (a : Allocator) (userptr : Nat) :
    Option (Nat × MallocIndex) := do
  let (arena, t) ← m.table.findBigallocFromTop env userptr a true
  if arena = 0 then none
  return (arena, { m with table := t })

/-- `lookup_object_info`. -/
def lookupObjectInfo (m : MallocIndex) (arena mem : Nat) (sizefn : Nat → Nat) :
    Option (Option (Nat × Nat × Nat) × MallocIndex) := do
  if (m.table.bigAllocations 1).begin = 0 then return (none, m)
  let suballocator ← (m.table.bigAllocations arena).suballocator
  let (_, m) ← m.arenaForUserptr env suballocator mem
  return (← m.info.lookupObjectInfoViaBitmap q mem sizefn, m)

/-- The first half of `__generic_malloc_get_info`: the insert, the base and the size. -/
def getInfoLocate (m : MallocIndex) (sizefn : Nat → Nat) (obj maybeTheAllocation : Nat) :
    Option (Option (Nat × Nat × Nat) × MallocIndex) :=
  let r := m.table.bigAllocations maybeTheAllocation
  if maybeTheAllocation ≠ 0 ∧ r.allocatedBy = some a then
    let callerUsableSize := r.end_ - r.begin
    some (some (insertForChunkAndCallerUsableSize r.begin (callerUsableSize + sizeofInsert), r.begin,
      callerUsableSize), m)
  else do
    let (_, m) ← m.arenaForUserptr env a obj
    let found ← m.info.lookupObjectInfoViaBitmap q obj sizefn
    return (found.map fun o => (o.1, o.2.1, callerUsableSizeForChunkAndUsableSize o.2.2), m)

/-- What `__generic_malloc_get_info` returns and outputs. -/
structure ObjectInfo where
  err : Option LiballocsErr := none
  outBase : Nat := 0
  outSize : Nat := 0
  outType : Nat := 0
  outSite : Nat := 0

/-- `__generic_malloc_get_info`.  Type and site are worked out if one is wanted. -/
def genericMallocGetInfo (m : MallocIndex) (sizefn : Nat → Nat) (obj maybeTheAllocation : Nat)
    (typeOrSite : Bool) : Option (ObjectInfo × MallocIndex) := do
  match ← m.getInfoLocate env a q sizefn obj maybeTheAllocation with
  | (none, m) => return ({ err := some .unindexedHeapObject }, m)
  | (some (heapInfo, outBase, outSize), m) =>
    if typeOrSite then
      let x := extractAndOutputAllocSiteAndType q (m.inserts heapInfo)
      return ({ err := x.err, outBase, outSize, outType := x.outType, outSite := x.outSite },
        { m with inserts := Function.update m.inserts heapInfo x.insert })
    else return ({ outBase, outSize }, m)

/-- The insert that `__generic_malloc_set_type` finds. -/
def setTypeLocate (m : MallocIndex) (obj : Nat) (sizefn : Nat → Nat) :
    Option (Option (Nat × Nat × Nat) × MallocIndex) := do
  let (arena, m) ← m.arenaForUserptr env a obj
  m.lookupObjectInfo env q arena obj sizefn

/-- `__generic_malloc_set_type`. -/
def genericMallocSetType (m : MallocIndex) (obj newType : Nat) (sizefn : Nat → Nat) :
    Option (Option LiballocsErr × MallocIndex) := do
  match ← m.setTypeLocate env a q obj sizefn with
  | (none, m) => return (some .unindexedHeapObject, m)
  | (some (ins, _, _), m) =>
    return (none, { m with
      inserts := Function.update m.inserts ins ((m.inserts ins).setType q newType) })

end MallocIndex

end Liballocs
