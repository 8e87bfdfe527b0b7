/-
The private malloc without mmap (`src/dlmalloc-ext.c`).

Wrappers keep a bitmap of where the chunks start.  A call is given with what the wrapped function did,
and the live chunks are those of a malloc that did so.  `none` is a pointer outside of the heap, for
which there is no bitmap.
-/
import Mathlib.Data.Finset.Image

namespace Liballocs

/-- `PRIVATE_MALLOC_ALIGN`. -/
def privateMallocAlign : Nat := 16

/-- The heap's bigalloc, the bits set in its bitmap, and the live chunks. -/
structure PrivateHeap where
  begin : Nat
  end_ : Nat
  bitmap : Finset Nat
  live : Finset Nat

/-- A call of a wrapper.  `ret` is the wrapped result, `memptr` what is at the pointer then. -/
inductive PrivateCall
  | dlmalloc (ret : Nat)
  | dlcalloc (ret : Nat)
  | dlfree (ptr : Nat)
  | dlrealloc (ptr size ret : Nat)
  | dlmemalign (ret : Nat)
  | dlposixMemalign (memptr ret : Nat)

namespace PrivateHeap

/-- The bit for an address; outside of the heap there is no bitmap. -/
def bitOf (s : PrivateHeap) (ptr : Nat) : Option Nat :=
  if s.begin ≤ ptr ∧ ptr < s.end_ then some ((ptr - s.begin) / privateMallocAlign) else none

/-- The bit of a chunk is set. -/
def setMetadata (s : PrivateHeap) (ptr : Nat) : Option PrivateHeap := do
  let i ← s.bitOf ptr
  return { s with bitmap := insert i s.bitmap }

/-- The bit of a chunk is cleared. -/
def clearMetadata (s : PrivateHeap) (ptr : Nat) : Option PrivateHeap := do
  let i ← s.bitOf ptr
  return { s with bitmap := s.bitmap.erase i }

/-- The wrappers that set the bit of what is returned, unless that is null. -/
def allocated (s : PrivateHeap) (ret : Nat) : Option PrivateHeap :=
  if ret ≠ 0 then ({ s with live := insert ret s.live }).setMetadata ret else some s

/-- The wrappers, with the effect of the wrapped functions on the live chunks. -/
def step (s : PrivateHeap) : PrivateCall → Option PrivateHeap
  | .dlmalloc ret | .dlcalloc ret | .dlmemalign ret => s.allocated ret
  | .dlfree ptr => do
    let s ← s.clearMetadata ptr
    return { s with live := s.live.erase ptr }
  | .dlrealloc ptr size ret => do
    let s ← if ptr ≠ 0 then s.clearMetadata ptr else some s
    if size = 0 then return { s with live := s.live.erase ptr }
    -- a request that fails leaves the chunk
    else if ret = 0 then return s
    else ({ s with live := s.live.erase ptr }).allocated ret
  | .dlposixMemalign memptr ret =>
    if ret ≠ 0 then s.setMetadata memptr else some { s with live := insert memptr s.live }

/-- The calls one after the other. -/
def run : PrivateHeap → List PrivateCall → Option PrivateHeap
  | s, [] => some s
  | s, call :: calls => s.step call >>= fun s => s.run calls

end PrivateHeap

end Liballocs
