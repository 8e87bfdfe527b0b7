/-
The index of small objects with its accesses checked (`src/allocators/generic_small.c`).

Each function is that of `GenericSmall.lean`, but fails where it looks past the table, which has one
entry for each byte of the chunk.  The loops stop where the source's do.  `check_bucket_sanity`, which
only a debug build has, is here as well.
-/
import Liballocs.GenericSmall

namespace Liballocs.ChunkRec

/-- `index_small_alloc_internal`. -/
def indexSmallAllocInternal? (c : ChunkRec) (begin allocSite ptr sizeBytes : Nat) :
    Option ChunkRec := do
  let endAddr := ptr + sizeBytes
  let bucketOffset := memrectBucketOffsetOfAddr ptr begin c.logPitch
  let bucketNum := memrectNbucketOf ptr begin c.logPitch
  let thisbucketSize := thisbucketSizeOf begin c.logPitch ptr sizeBytes
  let ent ← c.rect.firstNull? Entry.isNull bucketNum
  let rect ← c.rect.write ent (.regularInitial allocSite bucketOffset thisbucketSize)
  let rect ← if c.bucketRangeEnd begin bucketNum < endAddr then do
      let continuationEnt ← rect.firstNull? Entry.isNull (bucketNum + 1)
      rect.write continuationEnt (.continuation sizeBytes
        (sizeInContinuationBucket c.logPitch (sizeBytes - thisbucketSize)))
    else some rect
  return { c with
    metadataRecs := rect.cells
    biggestObject := if c.biggestObject < sizeBytes then sizeBytes else c.biggestObject }

/-- `get_start_from_continuation`, which walks along the whole of the previous bucket. -/
def getStartFromContinuation? (env : Env) (c : ChunkRec) (begin bucket : Nat) :
    Option (Nat × Nat) := do
  let _ ← c.rect.walk? Entry.isNull (bucket - 1)
  c.getStartFromContinuation env begin bucket

/-- What `lookup_small_alloc` makes of one entry, unless it goes on to the next. -/
def lookupCell? (env : Env) (c : ChunkRec) (begin ptr bucket : Nat) (mustSeeContinuation : Bool)
    (i : Nat) : Option (Option Scan) :=
  let ent := c.rect.read i
  if ent.isContinuation env then do
    let (objectEnt, objectStart) ← c.getStartFromContinuation? env begin bucket
    if objectStart + ent.continuationSize > ptr then
      some (some (.hit { ent := objectEnt, outObjectStart := objectStart, outObjectSize := none }))
    else if mustSeeContinuation then some (some .fail)
    else some none
  else
    let objectStart := c.bucketRangeBase begin bucket + ent.bucketOffset
    if objectStart ≤ ptr ∧ objectStart + ent.thisbucketSize > ptr then
      some (some (.hit
        { ent := i, outObjectStart := objectStart, outObjectSize := some ent.thisbucketSize }))
    else some none

/-- The walk of `lookup_small_alloc` along one bucket. -/
def lookupBucket? (env : Env) (c : ChunkRec) (begin ptr bucket : Nat) (mustSeeContinuation : Bool) :
    Option Scan :=
  c.rect.search? Entry.isNull (c.lookupCell? env begin ptr bucket mustSeeContinuation)
    (fun _ => .next) bucket

/-- `lookupFrom`, with every read checked against the end of the table. -/
def lookupFrom? (env : Env) (c : ChunkRec) (begin ptr earliestPossibleStart : Nat) :
    Bool → Nat → Option (Option Found)
  | mustSeeContinuation, bucket => do
    match ← c.lookupBucket? env begin ptr bucket mustSeeContinuation with
    | .hit found => some (some found)
    | .fail => some none
    | .next =>
      match bucket with
      | 0 => some none
      | bucket + 1 =>
        if c.bucketRangeEnd begin bucket > earliestPossibleStart then
          lookupFrom? env c begin ptr earliestPossibleStart true bucket
        else some none

/-- `lookup_small_alloc`. -/
def lookupSmallAlloc? (env : Env) (c : ChunkRec) (begin ptr : Nat) : Option (Option Found) :=
  let startBucketNum := memrectNbucketOf ptr begin c.logPitch % 2 ^ 32
  let earliestPossibleStart := (ptr + 2 ^ 64 - c.biggestObject) % 2 ^ 64
  c.lookupFrom? env begin ptr earliestPossibleStart false startBucketNum

/-- The walk of `check_bucket_sanity`, which asks for the start of each continuation. -/
def checkBucketSanity? (env : Env) (c : ChunkRec) (begin bucket : Nat) : Option Unit :=
  c.rect.search? Entry.isNull
    (fun i =>
      if (c.rect.read i).isContinuation env then
        (c.getStartFromContinuation? env begin bucket).map fun _ => none
      else some none)
    (fun _ => ()) bucket

/-- The test whether an entry has the biggest offset of its bucket, with every read checked. -/
def weAreBiggestOffset? (c : ChunkRec) (ent : Nat) : Option Bool :=
  c.rect.search? Entry.isNull
    (fun i =>
      some (if (c.rect.read ent).bucketOffset ≥ (c.rect.read i).bucketOffset then none else some false))
    (fun _ => true) (ent % c.rect.width)

/-- The first continuation entry of a bucket, if there is one. -/
def findContinuation? (env : Env) (rect : Columns Entry) (bucket : Nat) : Option (Option Nat) :=
  rect.search? Entry.isNull
    (fun i => some (if (rect.read i).isContinuation env then some (some i) else none))
    (fun _ => none) bucket

/-- The removal of a continuation, with every read checked. -/
def removeContinuation? (env : Env) (rect : Columns Entry) (bucket : Nat) : Option (Columns Entry) := do
  match ← findContinuation? env rect bucket with
  | some i => rect.remove? Entry.isNull i
  | none => some rect

/-- `unindex_small_alloc_internal_with_ent`. -/
def unindexSmallAllocInternalWithEnt? (env : Env) (c : ChunkRec) (ent : Nat) : Option ChunkRec := do
  let bucket := ent % c.rect.width
  let weAreBiggest ← c.weAreBiggestOffset? ent
  let rect ← c.rect.remove? Entry.isNull ent
  let rect ← if weAreBiggest then removeContinuation? env rect (bucket + 1) else some rect
  return { c with metadataRecs := rect.cells }

/-- `unindex_small_alloc_internal`. -/
def unindexSmallAllocInternal? (env : Env) (c : ChunkRec) (begin ptr : Nat) : Option ChunkRec := do
  let found ← ← c.lookupSmallAlloc? env begin ptr
  c.unindexSmallAllocInternalWithEnt? env found.ent

/-- The inner loop of `unindex_all_overlapping`. -/
def unindexOverlappingBucket? (env : Env) (begin unindexStart unindexEnd bucket : Nat) :
    Nat → ChunkRec → Nat → Option ChunkRec
  | 0, _, _ => none
  | fuel + 1, c, i => do
    let ent ← c.rect.read? i
    if ent.isNull then some c
    else if ent.isContinuation env then
      unindexOverlappingBucket? env begin unindexStart unindexEnd bucket fuel c (i + c.rect.width)
    else
      let thisObjectStart := c.bucketRangeBase begin bucket + ent.bucketOffset
      if thisObjectStart < unindexEnd ∧ thisObjectStart + ent.thisbucketSize > unindexStart then do
        let c ← c.unindexSmallAllocInternalWithEnt? env i
        unindexOverlappingBucket? env begin unindexStart unindexEnd bucket fuel c i
      else
        unindexOverlappingBucket? env begin unindexStart unindexEnd bucket fuel c (i + c.rect.width)

/-- The outer loop of `unindex_all_overlapping`. -/
def unindexOverlappingFrom? (env : Env) (begin unindexStart unindexEnd : Nat) :
    Nat → ChunkRec → Nat → Option ChunkRec
  | 0, _, _ => none
  | fuel + 1, c, bucket =>
    if c.bucketRangeBase begin bucket < unindexEnd then do
      let c ← unindexOverlappingBucket? env begin unindexStart unindexEnd bucket
        (2 * c.powerOfTwoSize + 1) c bucket
      unindexOverlappingFrom? env begin unindexStart unindexEnd fuel c (bucket + 1)
    else some c

/-- `unindex_all_overlapping`. -/
def unindexAllOverlapping? (env : Env) (c : ChunkRec) (begin unindexStart unindexEnd : Nat) :
    Option ChunkRec := do
  let c ← match ← c.lookupSmallAlloc? env begin unindexStart with
    | some found => c.unindexSmallAllocInternalWithEnt? env found.ent
    | none => some c
  unindexOverlappingFrom? env begin unindexStart unindexEnd (unindexEnd - unindexStart + 2) c
    (memrectNbucketOf unindexStart begin c.logPitch)

end Liballocs.ChunkRec
