/-
The mmap allocator's bookkeeping (`src/allocators/mmap.c`).

`doMmap` and `doMunmap` are told of system calls that have succeeded and update the top-level bigallocs
and their sequences.  Sequences are read from the private heap and stored back.  A null or dangling one,
or a read past its entries, does not return.
-/
import Liballocs.Lookup

namespace Liballocs

/-- `MAP_SHARED`. -/
def mapShared : Nat := 1

/-- `MAP_PRIVATE`. -/
def mapPrivate : Nat := 2

/-- `MAP_FIXED`. -/
def mapFixed : Nat := 16

/-- `MAP_ANONYMOUS`. -/
def mapAnonymous : Nat := 32

/-- `PROT_READ`. -/
def protRead : Nat := 1

/-- `PROT_WRITE`. -/
def protWrite : Nat := 2

/-- `PROT_EXEC`. -/
def protExec : Nat := 4

namespace Table

variable (env : Env)

/-! ### Sequences of bigallocs -/

/-- `add_bigalloc`. -/
def addBigalloc (t : Table) (begin size : Nat) : Option (Nat × Table) :=
  t.newBigalloc env { ptr := begin, size := size, allocatedBy := some .mmap }

/-- Give a bigalloc its sequence. -/
def setAllocatorPrivate (t : Table) (b p : Nat) (free : Option FreeFn) : Table :=
  t.modify b fun r => { r with allocatorPrivate := p, allocatorPrivateFree := free }

/-- `add_mapping_sequence_bigalloc_with_seq`, for the sequence `s` at `p`. -/
def addMappingSequenceBigallocWithSeq (t : Table) (p : Nat) (s : MappingSequence)
    (free : Option FreeFn) : Option (Nat × Table) := do
  let (b, t) ← t.addBigalloc env s.begin (s.end_ - s.begin)
  return (b, t.setAllocatorPrivate b p free)

/-- `add_mapping_sequence_bigalloc_copying_seq`. -/
def addMappingSequenceBigallocCopyingSeq (t : Table) (s : MappingSequence) :
    Option (Nat × Table) := do
  let (b, t) ← t.addBigalloc env s.begin (s.end_ - s.begin)
  let (p, t) := t.privateMalloc s
  return (b, t.setAllocatorPrivate b p (some .privateNommapFree))

/-- `delete_mapping_sequence_span` on the sequence at `p`. -/
def deleteSpanOf (t : Table) (p addr length : Nat) : Option Table := do
  let s ← t.sequences p
  return t.setSequence p (← s.deleteMappingSequenceSpan addr length)

/-! ### `do_munmap` -/

/-- Chop a hole out of the middle of the mapping: from the sequence of each half, the hole and the
other half are deleted. -/
def punchHole (t : Table) (b addr effectiveLength : Nat) : Option Table := do
  let oldEnd := (t.bigAllocations b).end_
  let (secondHalf, t) ← t.splitBigallocAtPageBoundary b (addr + effectiveLength)
  let t ← t.truncateBigallocAtEnd env b addr
  let origSeq := (t.bigAllocations b).allocatorPrivate
  let (newSeq, t) := t.privateMalloc (← t.sequences origSeq)
  let t ← t.deleteSpanOf origSeq addr (oldEnd - addr)
  let t ← t.deleteSpanOf newSeq (t.bigAllocations b).begin
    (addr + effectiveLength - (t.bigAllocations b).begin)
  return t.modify secondHalf fun r => { r with allocatorPrivate := newSeq }

/-- The loop of `do_munmap`.  A hole in the middle leaves the cursor; its pages are then skipped. -/
def doMunmapLoop (addr effectiveLength : Nat) : Nat → Table → Nat → Nat → Option Table
  | 0, t, cur, _ => if cur < addr + effectiveLength then none else some t
  | fuel + 1, t, cur, remainingLength =>
    if cur < addr + effectiveLength then do
      let (b, t) ← t.lookupBigallocFromRoot env cur .mmap
      if b = 0 then
        doMunmapLoop addr effectiveLength fuel t (cur + pageSize) (remainingLength - pageSize)
      else
        let r := t.bigAllocations b
        if cur = r.begin then
          if cur + remainingLength ≥ r.end_ then
            let (_, t) ← t.deleteBigallocAt env r.begin .mmap
            doMunmapLoop addr effectiveLength fuel t r.end_ (remainingLength - (r.end_ - cur))
          else
            let t ← t.truncateBigallocAtBeginning env b (cur + remainingLength)
            t.deleteSpanOf r.allocatorPrivate cur remainingLength
        else if cur + remainingLength ≥ r.end_ then
          let amountRemoved := r.end_ - cur
          let t ← t.truncateBigallocAtEnd env b cur
          let t ← t.deleteSpanOf r.allocatorPrivate cur amountRemoved
          doMunmapLoop addr effectiveLength fuel t (cur + amountRemoved)
            (remainingLength - amountRemoved)
        else
          doMunmapLoop addr effectiveLength fuel (← t.punchHole env b addr effectiveLength) cur
            remainingLength
    else some t

/-- `do_munmap`.  Each turn but one moves the cursor by a page or more. -/
def doMunmap (t : Table) (addr requestedLength : Nat) : Option Table :=
  let effectiveLength := roundUp requestedLength pageSize
  doMunmapLoop env addr effectiveLength (effectiveLength / pageSize + 2) t addr effectiveLength

/-! ### `do_mmap` -/

/-- The arguments of `do_mmap` that it looks at. -/
structure MmapCall where
  mappedAddr : Nat
  requestedLength : Nat
  prot : Nat
  flags : Nat
  filename : Option String
  offset : Nat
  caller : Nat
deriving DecidableEq, Repr

namespace MmapCall

/-- The actual length is rounded up to page size. -/
def mappedLength (c : MmapCall) : Nat := roundUp c.requestedLength pageSize

/-- What `augment_sequence` is asked for. -/
def mapping (c : MmapCall) : Mapping where
  begin := c.mappedAddr
  end_ := c.mappedAddr + c.mappedLength
  prot := c.prot
  flags := c.flags
  offset := c.offset
  filename := c.filename
  caller := c.caller

end MmapCall

/-- Is some page of the new mapping already indexed? -/
def sawOverlap (t : Table) (c : MmapCall) : Bool :=
  (List.range (c.mappedLength >>> logPageSize)).any fun i =>
    t.pageindex ((c.mappedAddr >>> logPageSize) + i) != 0

/-- `bigalloc_before`: the bigalloc whose sequence the new mapping may extend. -/
def bigallocBefore (t : Table) (c : MmapCall) : Option (Nat × Table) := do
  let (before, t) ← t.lookupBigallocFromRoot env (c.mappedAddr - 1) .mmap
  if before ≠ 0 then return (before, t)
  let (overlapBegin, t) ← t.lookupBigallocFromRoot env c.mappedAddr .mmap
  let (overlapEnd, t) ← t.lookupBigallocFromRoot env (c.mappedAddr + c.mappedLength - 1) .mmap
  return (if overlapBegin ≠ 0 ∧ (overlapEnd = 0 ∨ overlapBegin = overlapEnd) then overlapBegin else 0,
    t)

/-- Create a new bigalloc for the mapping, with a sequence of its own. -/
def createMapping (t : Table) (r : Mapping) : Option Table := do
  let (success, s) ← ({} : MappingSequence).augmentSequence env.objectBelow r
  if !success then none
  let (p, t) := t.privateMalloc s
  let (_, t) ← t.addMappingSequenceBigallocWithSeq env p s (some .privateNommapFree)
  return t

/-- The part of `do_mmap` after finding the bigalloc to extend, or zero. -/
def extendOrCreate (t : Table) (before : Nat) (r : Mapping) : Option Table :=
  if before ≠ 0 then do
    let p := (t.bigAllocations before).allocatorPrivate
    let (success, s) ← (← t.sequences p).augmentSequence env.objectBelow r
    let t := t.setSequence p s
    if success then
      if r.end_ > (t.bigAllocations before).end_ then t.extendBigalloc env before r.end_ else some t
    else t.createMapping env r
  else t.createMapping env r

/-- `do_mmap`. -/
def doMmap (t : Table) (c : MmapCall) : Option Table :=
  if c.mappedAddr = 0 then none
  -- an overlap must be asked for
  else if t.sawOverlap c ∧ c.flags &&& mapFixed = 0 then none
  else do
    let (before, t) ← t.bigallocBefore env c
    t.extendOrCreate env before c.mapping

end Table

end Liballocs
