/-
What happens when an address turns out not to be indexed (`src/allocators/stack.c`,
`src/allocators/brk.c`).

`__liballocs_notify_unindexed_address` asks the stack and then the brk allocator, each of which may grow
its bigalloc once it has one.  An older probe for the break sits in the lookup from the root, for the
time before the system-call traps are initialised.
-/
import Liballocs.Pageindex

namespace Liballocs.Table

variable (env : Env)

/-! ### The stack allocator -/

/-- `__pages_unused`. -/
def pagesUnused (t : Table) (begin end_ : Nat) : Bool :=
  pagenum begin ≤ pagenum end_
    && (List.range' (pagenum begin) (pagenum end_ - pagenum begin)).all fun q => t.pageindex q == 0

/-- `guess_sane_max_stack_size`. -/
def guessSaneMaxStackSize : Nat :=
  match env.stackLimCur, env.stackLimMax with
  | none, none => 16 * 1024 * 1024
  | none, some limMax => limMax
  | some limCur, _ => limCur

/-- `guess_sane_max_stack_delta`. -/
def guessSaneMaxStackDelta : Nat :=
  match env.stackLimCur, env.stackLimMax with
  | none, none => 256 * 1024
  | _, _ => guessSaneMaxStackSize env

/-- The loop of `__stack_allocator_notify_unindexed_address`: the stacks form a list through
`allocator_private`. -/
def stackClaim (t : Table) (ptr : Nat) : Nat → Nat → Option (Bool × Table)
  | 0, b => if b = 0 then some (false, t) else none
  | fuel + 1, b =>
    if b = 0 then some (false, t)
    else
      let r := t.bigAllocations b
      let nearLowest := r.begin > ptr ∧ r.begin - ptr < guessSaneMaxStackDelta env
      let nearHighest := r.end_ > ptr ∧ r.end_ - ptr < guessSaneMaxStackSize env
      if (nearLowest ∨ nearHighest) ∧ t.pagesUnused (roundUp ptr pageSize) r.begin then do
        let t ← preExtendBigallocRecursive env nbigallocs t b (roundDown ptr pageSize)
        return (true, t)
      else stackClaim t ptr fuel r.allocatorPrivate

/-- `__stack_allocator_notify_unindexed_address`. -/
def stackAllocatorNotifyUnindexedAddress (t : Table) (ptr : Nat) : Option (Bool × Table) :=
  stackClaim env t ptr nbigallocs t.initialStackBigalloc

/-! ### The brk allocator -/

/-- `__mmap_allocator_notify_brk`: the mapping under the program break follows it. -/
def mmapAllocatorNotifyBrk (t : Table) (newCurbrk : Nat) : Option Table :=
  let b := t.brkMappingBigalloc
  if b = 0 then some t
  else
    let oldEnd := (t.bigAllocations b).end_
    let newEnd := roundUp newCurbrk pageSize
    if newEnd > oldEnd then do
      let t ← t.adjustBigallocEnd env b newEnd
      let p := (t.bigAllocations b).allocatorPrivate
      let seq ← t.sequences p
      let last := seq.mappings (seq.nused - 1)
      let seq := { seq with end_ := newEnd }
      return t.setSequence p
        (if !last.isAnon then
          { seq with
            nused := seq.nused + 1
            mappings := Function.update seq.mappings seq.nused
              { begin := last.end_, end_ := newEnd, prot := 3, isAnon := true } }
        else seq.setMappingEnd (seq.nused - 1) newEnd)
    else if newEnd < oldEnd then do
      let p := (t.bigAllocations b).allocatorPrivate
      let seq ← (← t.sequences p).deleteMappingSequenceSpan newEnd (oldEnd - newEnd)
      (t.setSequence p seq).adjustBigallocEnd env b newEnd
    else some t

/-- `update_brk`. -/
def updateBrk (t : Table) (newCurbrk : Nat) : Option Table :=
  if t.brkMappingBigalloc = 0 then some t
  else
    let end_ := (t.bigAllocations t.brkBigalloc).end_
    if newCurbrk < end_ then do
      let t ← t.truncateBigallocAtEnd env t.brkBigalloc newCurbrk
      t.mmapAllocatorNotifyBrk env newCurbrk
    else if newCurbrk > end_ then do
      let t ← t.mmapAllocatorNotifyBrk env newCurbrk
      t.extendBigalloc env t.brkBigalloc newCurbrk
    else some t

/-- `__brk_allocator_notify_brk`. -/
def brkAllocatorNotifyBrk (t : Table) (newCurbrk : Nat) : Option Table :=
  if !t.brkInitialized then some t
  else if t.curbrk < newCurbrk then do
    (← t.mmapAllocatorNotifyBrk env newCurbrk).updateBrk env newCurbrk
  else do
    (← t.updateBrk env newCurbrk).mmapAllocatorNotifyBrk env newCurbrk

/-- `__brk_allocator_notify_unindexed_address`. -/
def brkAllocatorNotifyUnindexedAddress (t : Table) (mem : Nat) : Option (Bool × Table) :=
  if t.brkBigalloc = 0 then some (false, t)
  else do
    let oldSbrk := t.curbrk
    let t ← t.updateBrk env env.sbrk
    return (decide (oldSbrk ≤ mem ∧ mem < env.sbrk), t)

/-- `__mmap_allocator_notify_unindexed_address`. -/
def mmapAllocatorNotifyUnindexedAddress (t : Table) (mem : Nat) : Option (Bool × Table) :=
  if !t.mmapInitialized then some (false, t) else t.brkAllocatorNotifyUnindexedAddress env mem

/-! ### Both -/

/-- `__liballocs_notify_unindexed_address`. -/
def notifyUnindexedAddress (t : Table) (ptr : Nat) : Option (Bool × Table) := do
  let (claimed, t) ← t.stackAllocatorNotifyUnindexedAddress env ptr
  if claimed then return (true, t)
  t.mmapAllocatorNotifyUnindexedAddress env ptr

end Liballocs.Table
