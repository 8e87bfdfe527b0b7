/-
Chunks on the stack (`src/allocators/alloca.c`, `src/allocators/stackframe.c`,
`include/liballocs_cil_inlines.h`).

A frame that calls alloca becomes a bigalloc, from its lowest chunk up to its base pointer, with a
bitmap of its chunks; both grow downwards.  A local variable counts the bytes indexed, and on leaving
the frame chunks are unindexed from the stack pointer up until that many are gone.

Of the stack's memory the counters, the sizes before the chunks and the inserts are modelled.
`__private_malloc` hands out `nextInfo` and moves it on.  A bitmap without words is null.  The cache
is left out, and the stack pointer is an argument of the cleanup.
-/
import Liballocs.GenericMallocIndex
import Liballocs.LinearMallocIndex

namespace Liballocs

/-- `__stackframe_allocator`. -/
def stackframeAllocator : Allocator := .other 1

/-- `__alloca_allocator`. -/
def allocaAllocator : Allocator := .other 2

/-- `ALLOCA_ALIGN`. -/
def allocaAlign : Nat := 16

/-- `ALLOCA_HEADER_SIZE`. -/
def allocaHeaderSize : Nat := 8

/-- `ALLOCA_TRAILER_SIZE`. -/
def allocaTrailerSize : Nat := 8

/-- `__liballocs_alloca_size`. -/
def allocaSize (origSize : Nat) : Nat :=
  let sizeWithTrailer :=
    padToAlign ((origSize + allocaTrailerSize) % 2 ^ 64) allocaAlign % 2 ^ 64
  (padToAlign allocaHeaderSize allocaAlign + sizeWithTrailer) % 2 ^ 64

/-- `realloc_bitmap_prepend`: the old words go behind the new ones, and the base down. -/
def ArenaBitmapInfo.reallocBitmapPrepend (info : ArenaBitmapInfo) (newMinNwords newBitmapBaseAddr : Nat) :
    ArenaBitmapInfo :=
  if info.nwords < newMinNwords then
    let nwordsAdded := newMinNwords - info.nwords
    { info with
      nwords := newMinNwords
      bitmapBaseAddr :=
        if info.bitmapBaseAddr = 0 then newBitmapBaseAddr
        else sub64 info.bitmapBaseAddr (nwordsAdded * bitmapWordNbits * allocaAlign)
      bitmap := fun i =>
        if i < nwordsAdded * bitmapWordNbits then false
        else info.bitmap (i - nwordsAdded * bitmapWordNbits) }
  else info

/-- `find_bigalloc_under_pageindex`. -/
def Table.findBigallocUnderPageindex (t : Table) (addr : Nat) (a : Allocator) : Option Nat :=
  if t.pageindex (pagenum addr) = 0 then some 0
  else t.findBigallocRecursive addr a false nbigallocs (t.pageindex (pagenum addr))

/-- `__stackframe_allocator_find_or_create_bigalloc`. -/
def Table.stackframeFindOrCreateBigalloc (env : Env) (t : Table)
    (frameCounter frameSpAtCaller frameBpAtCaller : Nat) : Option (Nat × Table) := do
  let (found, t) ← t.lookupBigallocFromRoot env frameCounter stackframeAllocator
  if found ≠ 0 then return (found, t)
  let (_, t) ← t.findDeepestBigalloc env frameSpAtCaller
  let (_, t) ← t.findDeepestBigalloc env (frameBpAtCaller - 1)
  t.newBigalloc env
    { ptr := frameSpAtCaller, size := sub64 frameBpAtCaller frameSpAtCaller
      allocatedBy := some stackframeAllocator }

/-- The table, the arena infos by address, and the words and inserts on the stack. -/
structure AllocaState where
  table : Table
  infos : Nat → ArenaBitmapInfo := fun _ => { bitmapBaseAddr := 0 }
  nextInfo : Nat := 1
  words : Nat → Nat := fun _ => 0
  inserts : Nat → Insert := fun _ => {}

namespace AllocaState

variable (env : Env) (s : AllocaState)

/-- `usable_size`. -/
def usableSize (ptr : Nat) : Nat := s.words (ptr - 8)

/-- The word at an address is overwritten. -/
def setWord (addr value : Nat) : AllocaState :=
  { s with words := Function.update s.words addr value }

/-- `memset` to zero. -/
def zero (addr size : Nat) : AllocaState :=
  { s with
    words := fun a => if addr ≤ a ∧ a + 8 ≤ addr + size then 0 else s.words a
    inserts := fun a => if addr ≤ a ∧ a + 8 ≤ addr + size then {} else s.inserts a }

/-- The info of an arena. -/
def infoOf (arena : Nat) : ArenaBitmapInfo :=
  s.infos (s.table.bigAllocations arena).suballocatorPrivate

/-- Give an arena a new info. -/
def newInfo (arena : Nat) (info : ArenaBitmapInfo) : AllocaState :=
  { s with
    table := s.table.modify arena fun r =>
      { r with suballocatorPrivate := s.nextInfo, suballocatorPrivateFree := some (.other 1) }
    infos := Function.update s.infos s.nextInfo info
    nextInfo := s.nextInfo + 1 }

/-- The arena gets a suballocator. -/
def setSuballocator (arena : Nat) (a : Allocator) : AllocaState :=
  { s with table := s.table.modify arena fun r => { r with suballocator := some a } }

/-! ### Arenas -/

/-- The part of the notification that makes the frame an arena. -/
def claimArena (arena : Nat) : Option AllocaState :=
  let sub := (s.table.bigAllocations arena).suballocator
  if sub.isSome ∧ sub ≠ some allocaAllocator then none
  else
    let s := if sub.isSome then s else s.setSuballocator arena allocaAllocator
    some (if (s.table.bigAllocations arena).suballocatorPrivate = 0 then
        s.newInfo arena { bitmapBaseAddr := 0 }
      else s)

/-- The arena is extended downwards, if it does not reach to the address. -/
def preExtendTo (arena addr : Nat) : Option AllocaState :=
  if (s.table.bigAllocations arena).begin > addr then
    (s.table.preExtendBigallocRecursive env nbigallocs arena addr).map fun t => { s with table := t }
  else some s

/-- The bitmap of the arena is made to cover it. -/
def coverArena (arena : Nat) : AllocaState :=
  let r := s.table.bigAllocations arena
  let newBitmapBaseAddr := roundDown r.begin (allocaAlign * bitmapWordNbits)
  let newBitmapLimitAddr := roundUp r.end_ (allocaAlign * bitmapWordNbits)
  let newCoverageNaligns := (newBitmapLimitAddr - newBitmapBaseAddr) / allocaAlign
  { s with
    infos := Function.update s.infos r.suballocatorPrivate ((s.infoOf arena).reallocBitmapPrepend
      (divideRoundingUp newCoverageNaligns bitmapWordNbits) newBitmapBaseAddr) }

/-- `ensure_arena_covers_addr`. -/
def ensureArenaCoversAddr (arena addr : Nat) : Option AllocaState :=
  if (s.table.bigAllocations arena).suballocatorPrivate = 0 then none
  else if 0 < (s.infoOf arena).nwords ∧ (s.table.bigAllocations arena).begin ≤ addr then some s
  else (s.preExtendTo env arena addr).map fun s => s.coverArena arena

/-- `ensure_arena_has_info`. -/
def ensureArenaHasInfo (arena : Nat) : AllocaState :=
  let r := s.table.bigAllocations arena
  if r.suballocatorPrivate = 0 then s.newInfo arena (.ensureArenaHasInfo r.begin) else s

/-- `arena_for_userptr`. -/
def arenaForUserptr (a : Allocator) (userptr : Nat) : Option (Nat × AllocaState) := do
  let (b, t) ← s.table.findBigallocFromTop env userptr a true
  if b ≠ 0 then return (b, { s with table := t })
  let (b, t) ← t.findDeepestBigalloc env userptr
  if b = 0 then none
  else return (b, (({ s with table := t } : AllocaState).setSuballocator b a).ensureArenaHasInfo b)

/-- `arena_info_for_userptr`: the address of the info. -/
def arenaInfoForUserptr (a : Allocator) (userptr : Nat) : Option (Nat × AllocaState) := do
  let (b, s) ← s.arenaForUserptr env a userptr
  return ((s.table.bigAllocations b).suballocatorPrivate, s)

/-! ### The index -/

/-- What an operation of the index works on, for the info at `info`. -/
def index (info : Nat) : MallocIndex :=
  { table := s.table, info := s.infos info, inserts := s.inserts }

/-- What the operations of the generic malloc index have made of an arena is put back. -/
def setIndex (info : Nat) (m : MallocIndex) : AllocaState :=
  { s with table := m.table, infos := Function.update s.infos info m.info, inserts := m.inserts }

/-- `__generic_malloc_index_insert` with the info at `info`. -/
def indexInsert (info allocptr callerRequestedSize caller : Nat) : Option AllocaState :=
  if info = 0 then none
  else ((s.index info).genericMallocIndexInsert env allocaAllocator allocptr callerRequestedSize caller
    s.usableSize).map fun x => s.setIndex info x.2

/-- `__generic_malloc_index_delete` with the info at `info`. -/
def indexDelete (info userptr : Nat) : Option AllocaState :=
  if info = 0 then none
  else ((s.index info).genericMallocIndexDelete env allocaAllocator userptr).map (s.setIndex info)

/-! ### Notification -/

/-- `__alloca_allocator_notify`. -/
def allocaAllocatorNotify (newUserchunkaddr requestedSize frameCounter caller bpAtCaller : Nat) :
    Option AllocaState := do
  let (b, t) ← s.table.stackframeFindOrCreateBigalloc env frameCounter newUserchunkaddr bpAtCaller
  let s ← ({ s with table := t } : AllocaState).claimArena b
  let s ← s.ensureArenaCoversAddr env b newUserchunkaddr
  let (info, s) ← s.arenaInfoForUserptr env allocaAllocator newUserchunkaddr
  s.indexInsert env info newUserchunkaddr requestedSize caller

/-- The size goes before the chunk and is added to the frame counter. -/
def announce (userchunk nonHeaderSize frameCounter : Nat) : AllocaState :=
  let s := s.setWord (userchunk - 8) nonHeaderSize
  s.setWord frameCounter ((s.words frameCounter + nonHeaderSize) % 2 ^ 64)

/-- The user chunk that `__liballocs_notify_and_adjust_alloca` makes of an allocation. -/
def userchunkOf (allocated : Nat) : Nat :=
  padToAlign ((allocated + allocaHeaderSize) % 2 ^ 64) allocaAlign % 2 ^ 64

/-- `non_header_size`. -/
def nonHeaderSize (allocated tweakedSize : Nat) : Nat :=
  sub64 tweakedSize (sub64 (userchunkOf allocated) allocated)

/-- `__liballocs_notify_and_adjust_alloca`, called by a frame with the base pointer `bp`. -/
def notifyAndAdjustAlloca (allocated origSize tweakedSize frameCounter caller bp : Nat) :
    Option (Nat × AllocaState) := do
  let s := s.zero allocated tweakedSize
  let userchunk := userchunkOf allocated
  let s := s.announce userchunk (nonHeaderSize allocated tweakedSize) frameCounter
  let s ← s.allocaAllocatorNotify env userchunk origSize frameCounter caller bp
  return (userchunk, s)

/-! ### Cleanup -/

/-- The loop of the cleanup, from a bit on: the chunks, with their sizes. -/
def unindexLoop (info totalToUnindex : Nat) :
    Nat → AllocaState → Nat → Nat → Option (AllocaState × List (Nat × Nat))
  | 0, _, _, _ => none
  | fuel + 1, s, startIdx, totalUnindexed =>
    match bitmapFindFirstSet1Geq env.bitmaps (s.infos info).bitmap (s.infos info).nwords startIdx with
    | none => some (s, [])
    | some curBitIdx => do
      let curUserchunk := (s.infos info).bitmapBaseAddr + curBitIdx * allocaAlign
      let bytesToUnindex := s.usableSize curUserchunk
      let (info', s) ← s.arenaInfoForUserptr env allocaAllocator curUserchunk
      let s ← s.indexDelete env info' curUserchunk
      let totalUnindexed := (totalUnindexed + bytesToUnindex) % 2 ^ 64
      if totalUnindexed ≥ totalToUnindex then some (s, [(curUserchunk, bytesToUnindex)])
      else do
        let (s, visited) ← unindexLoop info totalToUnindex fuel s (curBitIdx + 1) totalUnindexed
        some (s, (curUserchunk, bytesToUnindex) :: visited)

/-- The unindexing of the chunks of a frame. -/
def unindexChunks (b sp totalToUnindex : Nat) : Option (AllocaState × List (Nat × Nat)) := do
  let s ← s.ensureArenaCoversAddr env b sp
  let info := s.infoOf b
  unindexLoop env (s.table.bigAllocations b).suballocatorPrivate totalToUnindex
    (info.nwords * bitmapWordNbits + 1) s (sub64 sp info.bitmapBaseAddr / allocaAlign) 0

/-- The end of the cleanup: the bigalloc of the frame goes. -/
def deleteFrame (b bytesCounter : Nat) : Option AllocaState :=
  if b ≠ 0 then
    (s.table.deleteBigallocAt env bytesCounter stackframeAllocator).map fun x =>
      { s with table := x.2 }
  else some s

/-- `__liballocs_unindex_stack_objects_counted_by` from `sp`: the chunks, with their sizes. -/
def unindexStackObjectsCountedBy (bytesCounter sp : Nat) :
    Option (AllocaState × List (Nat × Nat)) := do
  let b ← s.table.findBigallocUnderPageindex bytesCounter stackframeAllocator
  if s.words bytesCounter = 0 then
    let s ← s.deleteFrame env b bytesCounter
    return (s, [])
  else if b = 0 then none
  else
    let (s, visited) ← s.unindexChunks env b sp (s.words bytesCounter)
    let s ← s.deleteFrame env b bytesCounter
    return (s, visited)

end AllocaState

end Liballocs
