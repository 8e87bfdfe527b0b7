/-
The index of the run-time linker's heap (`include/linear_malloc_index.h`, `allocsld/allocinstr.c`, and
the events of `tools/stubgen.h`).

The records of the few chunks stand in one array, sorted by address; `recs` is the part in use.  The
events are a chunk allocated, one about to be freed, and the two halves of a reallocation, with a null
result if it failed.  A null record or chunk that is written through, and an access beyond the array,
do not return.  `__current_allocsz` is never set here and stays zero; there are no lifetime policies.
-/
import Mathlib.Data.Int.Init
import Liballocs.MallocMeta

namespace Liballocs

/-- `struct linear_malloc_rec`. -/
structure LinearMallocRec where
  addr : Nat
  callerRequestedSize : Nat
  paddingToCallerUsableSize : Nat
deriving DecidableEq, Repr

/-- `sizeof (struct linear_malloc_index_instance)`. -/
def sizeofLinearMallocIndexInstance : Nat := 48

/-- `sizeof (struct linear_malloc_rec)`. -/
def sizeofLinearMallocRec : Nat := 16

/-- `MAX_LINEAR_MALLOCS`: what is left of one page, rounded down to the alignment of a record. -/
def maxLinearMallocs : Nat :=
  (4096 - sizeofLinearMallocIndexInstance) / 8 * 8 / sizeofLinearMallocRec

/-- `PAD_TO_ALIGN`. -/
def padToAlign (n a : Nat) : Nat := if n % a = 0 then n else n + a - n % a

/-- `CHUNK_SIZE_WITH_TRAILER(sz, struct insert, void *)`. -/
def chunkSizeWithTrailer (sz : Nat) : Nat :=
  padToAlign ((sz + sizeofInsert) % 2 ^ 64) 8 % 2 ^ 64

/-- `compare_linear_mallocs`.  Null addresses float to the end; other differences become an `int`. -/
def compareLinearMallocs (r1 r2 : LinearMallocRec) : Int :=
  if r1.addr = 0 ∧ r2.addr = 0 then 0
  else if r1.addr = 0 then 1
  else if r2.addr = 0 then -1
  else ((r1.addr : Int) - r2.addr).bmod (2 ^ 32)

/-- The library functions: `bsearch_leq_generic`, with the key at each index, the length and the
target, and `qsort`. -/
structure LinearMallocEnv where
  bsearchLeq : (Nat → Nat) → Nat → Nat → Option Nat
  qsort : (LinearMallocRec → LinearMallocRec → Int) → List LinearMallocRec → List LinearMallocRec

namespace LinearMalloc

/-- The address in a record. -/
def addrAt (recs : List LinearMallocRec) (i : Nat) : Nat := (recs[i]?.map (·.addr)).getD 0

/-- `find_linear_malloc_rec`; the record is given by its index. -/
def findLinearMallocRec (env : LinearMallocEnv) (recs : List LinearMallocRec) (addr : Nat) :
    Option Nat := do
  let found ← env.bsearchLeq (addrAt recs) recs.length addr
  let r ← recs[found]?
  if addr < (r.addr + r.callerRequestedSize) % 2 ^ 64 then some found else none

/-- The test for sorting after an insertion: the last address is below the one before. -/
def outOfOrder (recs : List LinearMallocRec) : Bool :=
  recs.length > 1 && addrAt recs (recs.length - 1) < addrAt recs (recs.length - 2)

/-- `linear_malloc_index_insert`. -/
def linearMallocIndexInsert (env : LinearMallocEnv) (recs : List LinearMallocRec)
    (allocptr callerRequestedSize : Nat) : Option (List LinearMallocRec) :=
  let realRequestedSize := chunkSizeWithTrailer callerRequestedSize
  let realCallerUsableSize := sub64 realRequestedSize sizeofInsert
  -- the allocation site is stored in the trailer of the chunk
  if allocptr = 0 then none
  else if recs.length < maxLinearMallocs then
    let recs := recs ++ [{
      addr := allocptr
      callerRequestedSize := callerRequestedSize % 2 ^ 32
      paddingToCallerUsableSize := sub64 realCallerUsableSize callerRequestedSize % 2 ^ 8 }]
    some (if outOfOrder recs then env.qsort compareLinearMallocs recs else recs)
  else none

/-- `linear_malloc_index_delete`. -/
def linearMallocIndexDelete (env : LinearMallocEnv) (recs : List LinearMallocRec)
    (userptr : Nat) : Option (List LinearMallocRec) := do
  let found ← findLinearMallocRec env recs userptr
  let r ← recs[found]?
  return (env.qsort compareLinearMallocs (recs.set found { r with addr := 0 })).dropLast

/-- `linear_malloc_index_reinsert_after_resize`. -/
def linearMallocIndexReinsertAfterResize (env : LinearMallocEnv) (recs : List LinearMallocRec)
    (requestedSize newAllocptr : Nat) : Option (List LinearMallocRec) :=
  linearMallocIndexInsert env recs newAllocptr requestedSize

/-- What happens to the heap: chunks by their address, with the size the caller requested. -/
inductive HeapEvent where
  | malloc (addr size : Nat)
  | free (addr : Nat)
  /-- With a size and an old address that are not zero; null is failure. -/
  | realloc (userptr size newAllocptr : Nat)
deriving DecidableEq, Repr

/-- `post_successful_alloc`, `pre_nonnull_free`, and `pre_nonnull_nonzero_realloc` followed by
`post_nonnull_nonzero_realloc`. -/
def notify (env : LinearMallocEnv) (recs : List LinearMallocRec) :
    HeapEvent → Option (List LinearMallocRec)
  | .malloc addr size => linearMallocIndexInsert env recs addr size
  | .free addr => linearMallocIndexDelete env recs addr
  | .realloc userptr size newAllocptr => do
    let recs ← linearMallocIndexDelete env recs userptr
    let modifiedSize := chunkSizeWithTrailer size
    let requestedSize := sub64 modifiedSize sizeofInsert
    linearMallocIndexReinsertAfterResize env recs requestedSize newAllocptr

end LinearMalloc

end Liballocs
