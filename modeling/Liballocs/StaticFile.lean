/-
Closing the hole between two mappings of one object file (`src/allocators/static-file.c`).

The kernel may map the dynamic linker with a gap between its segments.  `plug_hole_or_abort` maps the
gap, adds it to the lower sequence, deletes the upper bigalloc and adds its entries to the lower one.
`none` aborts; the kernel's answer is an argument.
-/
import Mathlib.Algebra.Group.Nat.Defs
import Liballocs.Lookup

namespace Liballocs

/-- `MAP_FIXED|MAP_PRIVATE|MAP_ANONYMOUS`. -/
def plugFlags : Nat := 50

namespace MappingSequence

/-- The request for the hole.  It pretends to be a mapping of the same file, though it has no
permissions. -/
def plugMapping (begin end_ : Nat) (filename : Option String) (plugHole : Nat) : Mapping where
  begin := begin
  end_ := end_
  prot := protNone
  flags := plugFlags
  offset := 0
  filename := filename
  caller := plugHole

/-- The request for an entry of the upper sequence, under the name of the lower one. -/
def upperMapping (e : MappingEntry) (filename : Option String) : Mapping where
  begin := e.begin
  end_ := e.end_
  prot := e.prot
  flags := e.flags
  offset := e.offset
  filename := filename
  caller := e.caller

/-- One turn of the loop over the upper sequence.  Whether the entry was added is only
asserted. -/
def addUpper (objectBelow : Nat → Nat) (lowerSeq : MappingSequence) (e : MappingEntry) :
    Option MappingSequence :=
  (lowerSeq.augmentSequence objectBelow (upperMapping e lowerSeq.filename)).map Prod.snd

/-- The loop over the copy of the upper sequence. -/
def reaugment (objectBelow : Nat → Nat) (lowerSeq upperSeqCopy : MappingSequence) :
    Option MappingSequence :=
  ((List.range upperSeqCopy.nused).map upperSeqCopy.mappings).foldlM (addUpper objectBelow) lowerSeq

end MappingSequence

namespace Table

open MappingSequence

variable (env : Env)

/-- The loop that checks the pages of the hole.  A hole of a sane size is not backwards. -/
def holeFree (t : Table) (first last : Nat) : Bool :=
  (List.range (last - first)).all fun i => t.pageindex (first + i) == 0

/-- `plug_hole_or_abort`, whose own address is `plugHole`: the bigalloc that is left. -/
def plugHoleOrAbort (t : Table) (lowest highest plugHole : Nat) (mmapFails : Bool) :
    Option (Nat × Table) := do
  let lower := t.bigAllocations lowest
  let upper := t.bigAllocations highest
  let holeSize := (upper.begin + 2 ^ 64 - lower.end_) % 2 ^ 64
  if holeSize > env.biggestSaneUserAlloc then none
  if !t.holeFree (pagenum lower.end_) (pagenum upper.begin) then none
  if mmapFails then none
  let lowerSeq ← t.sequences lower.allocatorPrivate
  let (didAugment, lowerSeq) ← lowerSeq.augmentSequence env.objectBelow
    (plugMapping lower.end_ upper.begin lowerSeq.filename plugHole)
  if !didAugment then none
  let t := t.setSequence lower.allocatorPrivate lowerSeq
  let upperSeqCopy ← t.sequences upper.allocatorPrivate
  let (_, t) ← t.deleteBigallocAt env upper.begin .mmap
  let t ← t.adjustBigallocEnd env lowest upper.end_
  let lowerSeq ← (← t.sequences lower.allocatorPrivate).reaugment env.objectBelow upperSeqCopy
  return (lowest, t.setSequence lower.allocatorPrivate lowerSeq)

end Table

end Liballocs
