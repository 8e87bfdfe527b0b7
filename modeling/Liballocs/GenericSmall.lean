/-
The index of the small objects in a chunk (`src/allocators/generic_small.c`).

The chunk is divided into buckets of `1 << log_pitch` bytes, each with a column of entries in a table
stored layer by layer.  An object has an entry in the bucket it starts in, and if it goes on into the
next, a continuation entry there with its size.

Reads past the last layer give an empty entry; a write past it, and the use of an entry that is not
there, do not return.  The mutex, the bitmap of starts, debug builds and the making of the chunk's
parent are left out.
-/
import Liballocs.Table
import Liballocs.Lib.Columns
import Mathlib.Algebra.Group.Nat.Defs
import Mathlib.Data.List.MinMax

namespace Liballocs

/-- `struct entry`, through the members its variants have in common. -/
structure Entry where
  /-- 48 bits: null, or the size of the object for a continuation, or the allocation site. -/
  discr : Nat
  bucketOffset : Nat
  thisbucketSize : Nat
deriving DecidableEq, Repr, Inhabited

namespace Entry

/-- The `regular_initial` variant: the bit fields cut their values. -/
def regularInitial (allocSite bucketOffset thisbucketSize : Nat) : Entry where
  discr := allocSite % 2 ^ 47
  bucketOffset := bucketOffset % 2 ^ 8
  thisbucketSize := thisbucketSize % 2 ^ 8

/-- The `continuation` variant. -/
def continuation (size thisbucketSize : Nat) : Entry where
  discr := size % 2 ^ 22
  bucketOffset := 0
  thisbucketSize := thisbucketSize % 2 ^ 8

/-- `ENTRY_IS_NULL`. -/
def isNull (e : Entry) : Bool := e.discr == 0

/-- `ENTRY_IS_CONTINUATION`. -/
def isContinuation (env : Env) (e : Entry) : Bool :=
  e.discr != 0 && decide (e.discr < env.minimumUserAddress)

/-- The member `size` of a continuation. -/
def continuationSize (e : Entry) : Nat := e.discr % 2 ^ 22

end Entry

/-- `memrect_nbucket_of`. -/
def memrectNbucketOf (addr tableCoverageStartAddr logBucketPitch : Nat) : Nat :=
  (addr - tableCoverageStartAddr) / 2 ^ logBucketPitch

/-- `memrect_bucket_offset_of_addr`. -/
def memrectBucketOffsetOfAddr (addr tableCoverageStartAddr logBucketPitch : Nat) : Nat :=
  (addr - tableCoverageStartAddr) % 2 ^ logBucketPitch

/-- `memrect_entries_per_layer`, an `unsigned`. -/
def memrectEntriesPerLayer (powerOfTwoSize logBucketPitch : Nat) : Nat :=
  powerOfTwoSize / 2 ^ logBucketPitch % 2 ^ 32

/-- How much of an object its first bucket holds, an `unsigned short`. -/
def thisbucketSizeOf (begin logPitch ptr sizeBytes : Nat) : Nat :=
  (if memrectNbucketOf (ptr + sizeBytes) begin logPitch = memrectNbucketOf ptr begin logPitch then
    sizeBytes
  else 2 ^ logPitch - memrectBucketOffsetOfAddr ptr begin logPitch) % 2 ^ 16

/-- How much of an object the continuation entry says its second bucket holds. -/
def sizeInContinuationBucket (logPitch sizeAfterFirstBucket : Nat) : Nat :=
  if sizeAfterFirstBucket > 2 ^ logPitch then 0 else sizeAfterFirstBucket

/-- `struct chunk_rec`.  The entries are numbered from `metadata_recs` on, one for each byte. -/
structure ChunkRec where
  metadataRecs : Nat → Entry := fun _ => default
  powerOfTwoSize : Nat
  logPitch : Nat
  biggestObject : Nat := 0

/-! ### Making a chunk -/

/-- `MAX_PITCH`. -/
def maxPitch : Nat := 256

/-- `sizeof (struct entry)`. -/
def sizeofEntry : Nat := 8

/-- The helpers `next_power_of_two_ge` and `integer_log2`, which are not part of the repository. -/
structure PowerFns where
  nextPowerOfTwoGe : Nat → Nat
  integerLog2 : Nat → Nat

/-- The helpers keep what their names say.  Nothing is known of the next power of two of a number above
the last one of a `size_t`, nor of the logarithm of zero. -/
structure PowerFns.Lawful (fns : PowerFns) : Prop where
  nextPowerOfTwoGe : ∀ n ≤ 2 ^ 63, ∃ k, fns.nextPowerOfTwoGe n = 2 ^ k ∧ ∀ m, k ≤ m ↔ n ≤ 2 ^ m
  integerLog2 : ∀ n, 0 < n → n < 2 ^ 64 →
    2 ^ fns.integerLog2 n ≤ n ∧ n < 2 ^ (fns.integerLog2 n + 1)

/-- `make_suballocated_chunk`. -/
def makeSuballocatedChunk (fns : PowerFns) (chunkSize guessedAverageSize : Nat) : ChunkRec :=
  let powerOfTwoSize := fns.nextPowerOfTwoGe chunkSize
  let guessedAverageSize := if guessedAverageSize > maxPitch then maxPitch else guessedAverageSize
  let logPitch := fns.integerLog2 (fns.nextPowerOfTwoGe guessedAverageSize)
  let oneLayerNbytes := sizeofEntry * (powerOfTwoSize / 2 ^ logPitch) % 2 ^ 64
  -- for small chunks, we might not fill a page, so resize the pitch so that we do
  let logPitch := if oneLayerNbytes < pageSize then
      fns.integerLog2 (sizeofEntry * powerOfTwoSize % 2 ^ 64 / 2 ^ logPageSize % 2 ^ 32)
    else logPitch
  { powerOfTwoSize, logPitch }

namespace ChunkRec

/-- The entries as a table whose columns are the buckets. -/
def rect (c : ChunkRec) : Columns Entry where
  width := memrectEntriesPerLayer c.powerOfTwoSize c.logPitch
  size := c.powerOfTwoSize
  cells := c.metadataRecs

/-- `BUCKET_RANGE_BASE`. -/
def bucketRangeBase (c : ChunkRec) (begin bucket : Nat) : Nat := begin + bucket * 2 ^ c.logPitch

/-- `BUCKET_RANGE_END`. -/
def bucketRangeEnd (c : ChunkRec) (begin bucket : Nat) : Nat :=
  c.bucketRangeBase begin bucket + 2 ^ c.logPitch

/-! ### Indexing -/

/-- `index_small_alloc_internal`; `allocSite` is `__current_allocsite`. -/
def indexSmallAllocInternal (c : ChunkRec) (begin allocSite ptr sizeBytes : Nat) :
    Option ChunkRec := do
  let endAddr := ptr + sizeBytes
  let bucketOffset := memrectBucketOffsetOfAddr ptr begin c.logPitch
  let bucketNum := memrectNbucketOf ptr begin c.logPitch
  let thisbucketSize := thisbucketSizeOf begin c.logPitch ptr sizeBytes
  let rect ← c.rect.write (c.rect.firstNull Entry.isNull bucketNum)
    (.regularInitial allocSite bucketOffset thisbucketSize)
  -- if we spill into the next bucket, set the continuation entry
  let rect ← if c.bucketRangeEnd begin bucketNum < endAddr then
      rect.write (rect.firstNull Entry.isNull (bucketNum + 1))
        (.continuation sizeBytes
          (sizeInContinuationBucket c.logPitch (sizeBytes - thisbucketSize)))
    else some rect
  return { c with
    metadataRecs := rect.cells
    biggestObject := if c.biggestObject < sizeBytes then sizeBytes else c.biggestObject }

/-! ### Lookup -/

/-- `get_start_from_continuation`: the number of the object's entry, and its start.  The object is the
one in the previous bucket with the biggest offset. -/
def getStartFromContinuation (env : Env) (c : ChunkRec) (begin bucket : Nat) :
    Option (Nat × Nat) := do
  let objectStartBucket ← if bucket = 0 then none else some (bucket - 1)
  let starts := (c.rect.walk Entry.isNull objectStartBucket).filter fun i =>
    !(c.rect.read i).isContinuation env
  let objectEnt ← starts.argmax fun i => (c.rect.read i).bucketOffset
  return (objectEnt, c.bucketRangeBase begin objectStartBucket + (c.rect.read objectEnt).bucketOffset)

/-- What `lookup_small_alloc` returns: no size for an object found by its continuation. -/
structure Found where
  ent : Nat
  outObjectStart : Nat
  outObjectSize : Option Nat
deriving DecidableEq, Repr

/-- How the walk along a bucket ends. -/
inductive Scan where
  | hit (found : Found)
  | fail
  | next
deriving DecidableEq, Repr

/-- The walk of `lookup_small_alloc` along the entries of one bucket. -/
def lookupBucket (env : Env) (c : ChunkRec) (begin ptr bucket : Nat) (mustSeeContinuation : Bool) :
    List Nat → Option Scan
  | [] => some .next
  | i :: rest =>
    let ent := c.rect.read i
    if ent.isContinuation env then do
      let (objectEnt, objectStart) ← c.getStartFromContinuation env begin bucket
      if objectStart + ent.continuationSize > ptr then
        some (.hit { ent := objectEnt, outObjectStart := objectStart, outObjectSize := none })
      -- a continuation that we don't overlap: we can give up
      else if mustSeeContinuation then some .fail
      else lookupBucket env c begin ptr bucket mustSeeContinuation rest
    else
      let objectStart := c.bucketRangeBase begin bucket + ent.bucketOffset
      if objectStart ≤ ptr ∧ objectStart + ent.thisbucketSize > ptr then
        some (.hit
          { ent := i, outObjectStart := objectStart, outObjectSize := some ent.thisbucketSize })
      else lookupBucket env c begin ptr bucket mustSeeContinuation rest

/-- The loop of `lookup_small_alloc` from a bucket downwards. -/
def lookupFrom (env : Env) (c : ChunkRec) (begin ptr earliestPossibleStart : Nat) :
    Bool → Nat → Option (Option Found)
  | mustSeeContinuation, bucket => do
    match ← c.lookupBucket env begin ptr bucket mustSeeContinuation
      (c.rect.walk Entry.isNull bucket) with
    | .hit found => some (some found)
    | .fail => some none
    | .next =>
      match bucket with
      | 0 => some none
      | bucket + 1 =>
        if c.bucketRangeEnd begin bucket > earliestPossibleStart then
          lookupFrom env c begin ptr earliestPossibleStart true bucket
        else some none

/-- `lookup_small_alloc`. -/
def lookupSmallAlloc (env : Env) (c : ChunkRec) (begin ptr : Nat) : Option (Option Found) :=
  let startBucketNum := memrectNbucketOf ptr begin c.logPitch % 2 ^ 32
  let earliestPossibleStart := (ptr + 2 ^ 64 - c.biggestObject) % 2 ^ 64
  c.lookupFrom env begin ptr earliestPossibleStart false startBucketNum

/-- `get_info` in the container at `begin`: `*out_base`, and `*out_size` where `oldSize` was before.
-/
def getInfo (env : Env) (c : ChunkRec) (begin obj oldSize : Nat) : Option (Option (Nat × Nat)) := do
  let found ← c.lookupSmallAlloc env begin obj
  return found.map fun f => (f.outObjectStart, f.outObjectSize.getD oldSize)

/-! ### Unindexing -/

/-- Is no offset in the bucket of an entry bigger than the entry's own? -/
def weAreBiggestOffset (c : ChunkRec) (ent : Nat) : Bool :=
  (c.rect.walk Entry.isNull (ent % c.rect.width)).all fun i =>
    (c.rect.read ent).bucketOffset ≥ (c.rect.read i).bucketOffset

/-- Deleting the first continuation entry of a bucket, if there is one. -/
def removeContinuation (env : Env) (rect : Columns Entry) (bucket : Nat) : Option (Columns Entry) :=
  match (rect.walk Entry.isNull bucket).find? fun i => (rect.read i).isContinuation env with
  | some i => rect.remove Entry.isNull i
  | none => some rect

/-- `unindex_small_alloc_internal_with_ent`. -/
def unindexSmallAllocInternalWithEnt (env : Env) (c : ChunkRec) (ent : Nat) : Option ChunkRec := do
  let bucket := ent % c.rect.width
  let rect ← c.rect.remove Entry.isNull ent
  -- if we were the biggest offset, delete any continuation entry in the next bucket
  let rect ← if c.weAreBiggestOffset ent then removeContinuation env rect (bucket + 1) else some rect
  return { c with metadataRecs := rect.cells }

/-- `unindex_small_alloc_internal`. -/
def unindexSmallAllocInternal (env : Env) (c : ChunkRec) (begin ptr : Nat) : Option ChunkRec := do
  let found ← ← c.lookupSmallAlloc env begin ptr
  c.unindexSmallAllocInternalWithEnt env found.ent

/-! ### Making room -/

/-- The inner loop of `unindex_all_overlapping`, from the entry `i` on. -/
def unindexOverlappingBucket (env : Env) (begin unindexStart unindexEnd bucket : Nat) :
    Nat → ChunkRec → Nat → Option ChunkRec
  | 0, _, _ => none
  | fuel + 1, c, i =>
    let ent := c.rect.read i
    if ent.isNull then some c
    -- we'll find the start record before any relevant continuation record
    else if ent.isContinuation env then
      unindexOverlappingBucket env begin unindexStart unindexEnd bucket fuel c (i + c.rect.width)
    else
      let thisObjectStart := c.bucketRangeBase begin bucket + ent.bucketOffset
      if thisObjectStart < unindexEnd ∧ thisObjectStart + ent.thisbucketSize > unindexStart then do
        -- this deletes the entry, so the next one is in its place
        let c ← c.unindexSmallAllocInternalWithEnt env i
        unindexOverlappingBucket env begin unindexStart unindexEnd bucket fuel c i
      else
        unindexOverlappingBucket env begin unindexStart unindexEnd bucket fuel c (i + c.rect.width)

/-- The outer loop of `unindex_all_overlapping`, which walks up the buckets. -/
def unindexOverlappingFrom (env : Env) (begin unindexStart unindexEnd : Nat) :
    Nat → ChunkRec → Nat → Option ChunkRec
  | 0, _, _ => none
  | fuel + 1, c, bucket =>
    if c.bucketRangeBase begin bucket < unindexEnd then do
      let c ← unindexOverlappingBucket env begin unindexStart unindexEnd bucket
        (2 * c.powerOfTwoSize + 1) c bucket
      unindexOverlappingFrom env begin unindexStart unindexEnd fuel c (bucket + 1)
    else some c

/-- `unindex_all_overlapping`. -/
def unindexAllOverlapping (env : Env) (c : ChunkRec) (begin unindexStart unindexEnd : Nat) :
    Option ChunkRec := do
  -- handle the case of an object starting earlier creeping over into this bucket
  let c ← match ← c.lookupSmallAlloc env begin unindexStart with
    | some found => c.unindexSmallAllocInternalWithEnt env found.ent
    | none => some c
  unindexOverlappingFrom env begin unindexStart unindexEnd (unindexEnd - unindexStart + 2) c
    (memrectNbucketOf unindexStart begin c.logPitch)

end ChunkRec

end Liballocs
