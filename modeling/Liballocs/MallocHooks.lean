/-
The hooks around a heap's functions (`tools/stubgen.h`) with the generic index
(`include/generic_malloc_index.h`).

Before an allocation the size is enlarged to make room for an insert.  Before a reallocation the index
entry is deleted, and after it made again, at the new address or, if it failed or did not move, the old.

A chunk moves within its arena.  Copying the notes about a chunk's contents is left out.
`__current_allocsite` and `__current_allocsz` are set by instrumented callers, and zero for others.
-/
import Liballocs.GenericMallocIndex
import Liballocs.LinearMallocIndex

namespace Liballocs

/-- What an instrumented caller has set: `__current_allocsite` and `__current_allocsz`. -/
structure AllocContext where
  currentAllocsite : Nat := 0
  currentAllocsz : Nat := 0
deriving DecidableEq, Repr

/-- `__current_allocsite ?: caller`. -/
def AllocContext.siteOr (ctx : AllocContext) (caller : Nat) : Nat :=
  if ctx.currentAllocsite ≠ 0 then ctx.currentAllocsite else caller

/-- `pre_alloc`: the size that the real function is asked for. -/
def preAlloc (origSize : Nat) : Nat := chunkSizeWithTrailer origSize

namespace MallocIndex

variable (env : Env) (a : Allocator) (ctx : AllocContext)

/-- `__generic_malloc_index_reinsert_after_resize`. -/
def genericMallocIndexReinsertAfterResize (m : MallocIndex)
    (userptr modifiedSize oldUsableSize requestedSize caller newAllocptr : Nat)
    (sizefn : Nat → Nat) : Option (Nat × MallocIndex) := do
  let (ins, m) ←
    if newAllocptr ≠ 0 ∧ newAllocptr ≠ userptr then
      m.genericMallocIndexInsert env a newAllocptr requestedSize (ctx.siteOr caller) sizefn
    else
      m.genericMallocIndexInsert env a userptr requestedSize (ctx.siteOr caller) sizefn
  let (b, t) ← m.table.lookupBigallocFromRoot env userptr a
  if newAllocptr = userptr ∧ modifiedSize < oldUsableSize ∧ b ≠ 0 then
    let t ← t.truncateBigallocAtEnd env b (userptr + modifiedSize)
    return (ins, { m with table := t })
  else return (ins, { m with table := t })

/-- `pre_nonnull_nonzero_realloc`. -/
def preNonnullNonzeroRealloc (m : MallocIndex) (userptr : Nat) : Option MallocIndex :=
  m.genericMallocIndexDelete env a userptr

/-- The size that `post_nonnull_nonzero_realloc` takes for the requested one. -/
def requestedSizeAfterRealloc (modifiedSize : Nat) : Nat :=
  if ctx.currentAllocsz ≠ 0 then ctx.currentAllocsz else sub64 modifiedSize sizeofInsert

/-- `post_nonnull_nonzero_realloc`. -/
def postNonnullNonzeroRealloc (m : MallocIndex)
    (userptr modifiedSize oldUsableSize caller newAllocptr : Nat) (sizefn : Nat → Nat) :
    Option (Nat × MallocIndex) :=
  m.genericMallocIndexReinsertAfterResize env a ctx userptr modifiedSize oldUsableSize
    (requestedSizeAfterRealloc ctx modifiedSize) caller newAllocptr sizefn

/-- Both hooks of a reallocation to `size` bytes, `pre_alloc` included. -/
def reallocHooks (m : MallocIndex) (userptr size oldUsableSize caller newAllocptr : Nat)
    (sizefn : Nat → Nat) : Option (Nat × MallocIndex) := do
  let m ← m.preNonnullNonzeroRealloc env a userptr
  m.postNonnullNonzeroRealloc env a ctx userptr (preAlloc size) oldUsableSize caller newAllocptr
    sizefn

end MallocIndex

end Liballocs
