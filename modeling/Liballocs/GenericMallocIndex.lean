/-
The bitmap index of a malloc-like heap (`include/generic_malloc_index.h`).

The chunks of an arena are marked in a bitmap, one bit for each `MALLOC_ALIGN` bytes, which grows with
the insertions.  A chunk over the mmap threshold is also promoted to a bigalloc under the arena.

Of the bitmap, a function on bit numbers, the first `nwords` words exist; a write beyond them does not
return.  The mutex, the counters for tracing and the cache are left out.
-/
import Liballocs.Lookup
import Liballocs.MallocMeta

namespace Liballocs

/-- `MALLOC_ALIGN`. -/
def mallocAlign : Nat := 16

/-- `BITMAP_WORD_NBITS`. -/
def bitmapWordNbits : Nat := 64

/-- `DIVIDE_ROUNDING_UP`. -/
def divideRoundingUp (n d : Nat) : Nat := (n + (d - 1)) / d

/-- `bitmap_find_first_set1_geq_l` in a bitmap of `nwords` words. -/
def bitmapFindFirstSet1Geq (bitmaps : Bits.Searches) (bitmap : Nat → Bool) (nwords startIdx : Nat) :
    Option Nat :=
  bitmaps.firstGeq bitmap (nwords * bitmapWordNbits) startIdx

/-- `struct arena_bitmap_info`. -/
structure ArenaBitmapInfo where
  nwords : Nat := 0
  bitmap : Nat → Bool := fun _ => false
  bitmapBaseAddr : Nat
  biggestAllocatedObject : Nat := 0
  biggestUnpromotedObject : Nat := 0

namespace ArenaBitmapInfo

/-- What `ensure_arena_has_info` sets up for an arena that begins at `begin`. -/
def ensureArenaHasInfo (begin : Nat) : ArenaBitmapInfo where
  bitmapBaseAddr := roundDown begin (mallocAlign * bitmapWordNbits)

/-- The part of `ensure_has_bitmap_to` that grows the bitmap; the rounded address and the difference
wrap around. -/
def ensureHasBitmapTo (info : ArenaBitmapInfo) (end_ : Nat) : ArenaBitmapInfo :=
  let totalWords := sub64 (roundUp end_ (mallocAlign * bitmapWordNbits) % 2 ^ 64) info.bitmapBaseAddr
    / (mallocAlign * bitmapWordNbits)
  if info.nwords < totalWords then
    { info with
      nwords := totalWords
      bitmap := fun i =>
        if info.nwords * bitmapWordNbits ≤ i ∧ i < totalWords * bitmapWordNbits then false
        else info.bitmap i }
  else info

/-- The bit of a chunk. -/
def bitOf (info : ArenaBitmapInfo) (ptr : Nat) : Nat := (ptr - info.bitmapBaseAddr) / mallocAlign

/-- `bitmap_set_l` and `bitmap_clear_l`. -/
def writeBit (info : ArenaBitmapInfo) (i : Nat) (value : Bool) : Option ArenaBitmapInfo :=
  if i < info.nwords * bitmapWordNbits then
    some { info with bitmap := Function.update info.bitmap i value }
  else none

end ArenaBitmapInfo

/-- `SHOULD_PROMOTE_TO_BIGALLOC`: over the default lower mmap threshold of glibc. -/
def shouldPromoteToBigalloc (usableSize : Nat) : Bool := usableSize > 131072

/-- What an index operation works on: the table, the arena's info, the chunks' inserts. -/
structure MallocIndex where
  table : Table
  info : ArenaBitmapInfo
  inserts : Nat → Insert := fun _ => {}

namespace MallocIndex

open Table

variable (env : Env) (a : Allocator)

/-- The bigalloc of a promoted chunk, by `__generic_malloc_fresh_big`. -/
def promote (t : Table) (arena allocptr callerRequestedSize : Nat) : Option Table := do
  if arena = 0 then none
  let (_, t) ← t.newBigalloc env
    { ptr := allocptr, size := callerRequestedSize, maybeParent := arena,
      allocatedBy := (t.bigAllocations arena).suballocator }
  return t

/-- `__generic_malloc_index_insert`: the insert's address and the new state. -/
def genericMallocIndexInsert (m : MallocIndex) (allocptr callerRequestedSize caller : Nat)
    (sizefn : Nat → Nat) : Option (Nat × MallocIndex) := do
  let end_ := (allocptr + callerRequestedSize) % 2 ^ 64
  let (_, t) ← m.table.findBigallocFromTop env (sub64 end_ 1) a true
  let info := m.info.ensureHasBitmapTo end_
  let (arena, t) ← t.findBigallocFromTop env allocptr a true
  let allocUsableSize := sizefn allocptr
  let callerUsableSize := callerUsableSizeForChunkAndUsableSize allocUsableSize
  let pInsert := insertForChunkAndCallerUsableSize allocptr callerUsableSize
  let inserts := Function.update m.inserts pInsert ((m.inserts pInsert).setAllocSite caller)
  let info := { info with biggestAllocatedObject := max callerUsableSize info.biggestAllocatedObject }
  let promoted := shouldPromoteToBigalloc allocUsableSize
  let t ← if promoted then promote env t arena allocptr callerRequestedSize else some t
  let info := if promoted then info else
    { info with
      biggestUnpromotedObject := max callerUsableSize info.biggestUnpromotedObject }
  let info ← info.writeBit (info.bitOf allocptr) true
  return (pInsert, { table := t, info := info, inserts := inserts })

/-- `__generic_malloc_index_delete`. -/
def genericMallocIndexDelete (m : MallocIndex) (userptr : Nat) : Option MallocIndex := do
  let (b, t) ← m.table.findBigallocFromTop env userptr a false
  if b ≠ 0 then
    let allocatedBy ← (t.bigAllocations b).allocatedBy
    let (_, t) ← t.deleteBigallocAt env userptr allocatedBy
    return { m with table := t }
  else
    let (_, t) ← t.findBigallocFromTop env userptr a true
    let info ← m.info.writeBit (m.info.bitOf userptr) false
    return { m with table := t, info := info }

end MallocIndex

end Liballocs
