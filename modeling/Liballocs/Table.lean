/-
The bigalloc table and the page index (`src/pageindex.c`, `include/pageindex.h`).

`big_allocations` is an array of records addressed by number, zero standing for null.  A record is in
use when neither of its bounds is null.  `pageindex` holds a record number for each page.

Addresses are natural numbers and do not wrap around.  Metadata pointers are numbers too; the mapping
sequences they point to live in a heap of their own, `sequences`, and `__private_nommap_malloc` hands
out `nextPrivate` and moves it on.  The build is the default one, with `NDEBUG`: assertions and sanity
checks are not code.  `none` is a call that does not return.
-/
import Liballocs.Lib.Bits
import Liballocs.Lib.Dll
import Liballocs.Lib.Evaluate
import Liballocs.MappingSequence

namespace Liballocs

/-! ### Pages -/

/-- `PAGE_SIZE`. -/
def pageSize : Nat := 4096

/-- `LOG_PAGE_SIZE`. -/
def logPageSize : Nat := 12

/-- `PAGENUM`. -/
def pagenum (a : Nat) : Nat := a / pageSize

/-- `ROUND_UP`. -/
def roundUp (a n : Nat) : Nat := (a + (n - 1)) / n * n

/-- `ROUND_DOWN`. -/
def roundDown (a n : Nat) : Nat := a / n * n

/-- `PAGE_DIST`. -/
def pageDist (first second : Nat) : Nat :=
  if pagenum second > pagenum first then pagenum second - pagenum first else 0

/-! ### Records -/

/-- The allocators this code compares against; `other` is any further one. -/
inductive Allocator where
  | mmap
  | brk
  | stack
  | auxv
  | genericSmall
  | genericMalloc
  | privateNommapMalloc
  | other (id : Nat)
deriving DecidableEq, Repr

/-- A metadata destructor: `__private_nommap_free`, or one that frees nothing modelled here. -/
inductive FreeFn where
  | privateNommapFree
  | other (id : Nat)
deriving DecidableEq, Repr

/-- `struct big_allocation`. -/
@[ext]
structure BigAllocation where
  begin : Nat := 0
  end_ : Nat := 0
  firstChild : Nat := 0
  nextSib : Nat := 0
  parent : Nat := 0
  prevSib : Nat := 0
  allocatedBy : Option Allocator := none
  suballocator : Option Allocator := none
  allocatorPrivate : Nat := 0
  allocatorPrivateFree : Option FreeFn := none
  suballocatorPrivate : Nat := 0
  suballocatorPrivateFree : Option FreeFn := none
deriving DecidableEq, Repr

/-- `NBIGALLOCS`. -/
def nbigallocs : Nat := 32768

/-- The global state: the two arrays, and the static variables of the allocators that are consulted.
-/
structure Table where
  bigAllocations : Nat → BigAllocation := fun _ => {}
  pageindex : Nat → Nat := fun _ => 0
  /-- `__liballocs_private_nommap_malloc_bigalloc`, where the list of top-level records is
  entered. -/
  start : Nat := 0
  sequences : Nat → Option MappingSequence := fun _ => none
  nextPrivate : Nat := 1
  /-- `initial_stack_bigalloc` of `stack.c`. -/
  initialStackBigalloc : Nat := 0
  /-- `__brk_bigalloc`, `brk_mapping_bigalloc`, `__curbrk` and `initialized` of `brk.c`. -/
  brkBigalloc : Nat := 0
  brkMappingBigalloc : Nat := 0
  curbrk : Nat := 0
  brkInitialized : Bool := false
  /-- `initialized` and `trying_to_initialize` of `mmap.c`. -/
  mmapInitialized : Bool := false
  mmapTryingToInitialize : Bool := false

/-- A table is read at an index as its record there. -/
instance : CoeFun Table fun _ => Nat → BigAllocation :=
  ⟨Table.bigAllocations⟩

/-- What the code takes from outside: constants of `librunt`'s headers, the run-time linker, the
kernel, and the start-up code of the mmap allocator. -/
structure Env where
  /-- `BIGGEST_SANE_USER_ALLOC`. -/
  biggestSaneUserAlloc : Nat
  /-- `MINIMUM_USER_ADDRESS`. -/
  minimumUserAddress : Nat := 4194304
  /-- `get_highest_loaded_object_below`. -/
  objectBelow : Nat → Nat := id
  /-- `__liballocs_systrap_is_initialized`. -/
  systrapIsInitialized : Bool := true
  /-- What `sbrk(0)` returns. -/
  sbrk : Nat := 0
  /-- `RLIMIT_STACK`; `none` is no limit. -/
  stackLimCur : Option Nat := none
  stackLimMax : Option Nat := none
  /-- `min_alignment` of an allocator. -/
  minAlignment : Allocator → Nat := fun _ => 0
  /-- The body of `__mmap_allocator_init`. -/
  mmapAllocatorInit : Table → Option Table := some
  /-- `__auxv_allocator_notify_init_stack_mapping_sequence`. -/
  auxvNotifyInitStack : Table → Nat → Option Table := fun t _ => some t
  /-- `executable_data_segment_start_addr`. -/
  executableDataSegmentStart : Nat := 0
  /-- The searches in bitmaps, whose header is not part of the repository. -/
  bitmaps : Bits.Searches := .byOne

namespace Table

/-- Change one record. -/
def modify (t : Table) (n : Nat) (f : BigAllocation → BigAllocation) : Table :=
  { t with bigAllocations := fun m => if m = n then f (t.bigAllocations m) else t.bigAllocations m }

/-- `BIGALLOC_IN_USE` of a record of the table. -/
def InUse (t : Table) (n : Nat) : Prop :=
  0 < n ∧ n < nbigallocs ∧ (t.bigAllocations n).begin ≠ 0 ∧ (t.bigAllocations n).end_ ≠ 0

instance (t : Table) (n : Nat) : Decidable (t.InUse n) :=
  inferInstanceAs (Decidable (_ ∧ _))

/-- The children of a record, in the order of its child list. -/
def children (t : Table) (n : Nat) : Option (List Nat) :=
  Dll.walk (fun m => (t.bigAllocations m).nextSib) 0 nbigallocs (t.bigAllocations n).firstChild

/-- Does the record's range hold the address? -/
def contains (t : Table) (addr n : Nat) : Bool :=
  (t.bigAllocations n).begin ≤ addr && (t.bigAllocations n).end_ > addr

/-- `bigalloc_depth`: one for a top-level record, zero for null. -/
def bigallocDepth (t : Table) : Nat → Nat → Option Nat
  | 0, n => if n = 0 then some 0 else none
  | fuel + 1, n =>
    if n = 0 then some 0 else (bigallocDepth t fuel (t.bigAllocations n).parent).map (· + 1)

/-- `find_free_bigalloc`. -/
def findFreeBigalloc (t : Table) : Option Nat :=
  (List.range' 1 (nbigallocs - 1)).find? fun n =>
    !((t.bigAllocations n).begin ≠ 0 && (t.bigAllocations n).end_ ≠ 0)

/-- `clear_bigalloc_nomemset`. -/
def clearBigallocNomemset (t : Table) (b : Nat) : Table :=
  t.modify b fun r => { r with begin := 0, end_ := 0 }

/-! ### The private heap -/

/-- `__private_nommap_malloc` of a mapping sequence that is then set to `s`. -/
def privateMalloc (t : Table) (s : MappingSequence) : Nat × Table :=
  (t.nextPrivate,
    { t with
      sequences := Function.update t.sequences t.nextPrivate (some s)
      nextPrivate := t.nextPrivate + 1 })

/-- Store to the mapping sequence at `p`. -/
def setSequence (t : Table) (p : Nat) (s : MappingSequence) : Table :=
  { t with sequences := Function.update t.sequences p (some s) }

/-- Call a metadata destructor. -/
def free (t : Table) (f : FreeFn) (p : Nat) : Table :=
  match f with
  | .privateNommapFree => { t with sequences := Function.update t.sequences p none }
  | .other _ => t

/-! ### The page index -/

/-- `wmemset` over the page index: `n` units of two entries each, low half first. -/
def wmemset (pageindex : Nat → Nat) (begin val n : Nat) : Nat → Nat := fun i =>
  if begin ≤ i ∧ i < begin + 2 * n then
    if (i - begin) % 2 = 0 then val % 65536 else val / 65536 % 65536
  else pageindex i

/-- `memset_bigalloc`: `n` entries from `begin` on become `num`.  An odd index is a misaligned one. -/
def memsetBigalloc (env : Env) (pageindex : Nat → Nat) (begin num n : Nat) :
    Option (Nat → Nat) :=
  if n > env.biggestSaneUserAlloc >>> logPageSize then none
  else
    let odd : Bool := n > 0 && begin % 2 != 0
    let pageindex := if odd then Function.update pageindex begin num else pageindex
    let begin := if odd then begin + 1 else begin
    let n := if odd then n - 1 else n
    let wcharVal := num <<< 16 ||| num
    let pageindex := if n ≠ 0 then wmemset pageindex begin wcharVal (n / 2) else pageindex
    some (if n % 2 = 1 then Function.update pageindex (begin + (n - 1)) num else pageindex)

/-- `memset_bigalloc` in a debug build, with the end of the page index.  The loop, together with the
assertion behind it, aborts at an entry that is past that end or bad. -/
def memsetBigallocDebug (env : Env) (pageindexEnd : Nat) (pageindex : Nat → Nat)
    (begin num oldNum n : Nat) : Option (Nat → Nat) :=
  -- `CHECK_LOC`
  let bad (loc : Nat) : Prop := ¬ (oldNum = 65535 ∨ loc = 0 ∨ loc = oldNum)
  if n > env.biggestSaneUserAlloc >>> logPageSize then none
  else
    let odd : Bool := n > 0 && begin % 2 != 0
    if odd ∧ bad (pageindex begin) then none
    else
      let pageindex := if odd then Function.update pageindex begin num else pageindex
      let begin := if odd then begin + 1 else begin
      let n := if odd then n - 1 else n
      let wcharVal := num <<< 16 ||| num
      if (oldNum ≠ 65535 ∧ oldNum ≠ 0)
          ∧ ∃ i < n, pageindexEnd ≤ begin + i ∨ bad (pageindex (begin + i)) then none
      else
        let pageindex := if n ≠ 0 then wmemset pageindex begin wcharVal (n / 2) else pageindex
        if n % 2 = 1 ∧ bad (pageindex (begin + (n - 1))) then none
        else some (if n % 2 = 1 then Function.update pageindex (begin + (n - 1)) num else pageindex)

/-- `memset_bigalloc` on the table's page index, from address `first` up to `second`. -/
def memset (env : Env) (t : Table) (first second num : Nat) : Option Table := do
  let pageindex ← memsetBigalloc env t.pageindex (pagenum first) num (pageDist first second)
  return { t with pageindex := pageindex }

/-! ### Child lists -/

/-- `add_child`. -/
def addChild (t : Table) (child parent : Nat) : Table :=
  let t := t.modify child fun r => { r with parent := parent }
  let previousFirstChild := (t.bigAllocations parent).firstChild
  let t := t.modify parent fun r => { r with firstChild := child }
  let t := t.modify child fun r => { r with nextSib := previousFirstChild }
  if previousFirstChild ≠ 0 then
    t.modify previousFirstChild fun r => { r with prevSib := child }
  else t

/-- `if (p) BIDX(p)->next_sib = n`. -/
def setNextSib (t : Table) (p n : Nat) : Table :=
  if p ≠ 0 then t.modify p fun r => { r with nextSib := n } else t

/-- `if (p) BIDX(p)->prev_sib = n`. -/
def setPrevSib (t : Table) (p n : Nat) : Table :=
  if p ≠ 0 then t.modify p fun r => { r with prevSib := n } else t

/-- `unlink_child`. -/
def unlinkChild (t : Table) (child : Nat) : Option Table :=
  let parent := (t.bigAllocations child).parent
  if parent = 0 then none
  else
    let t :=
      if child = (t.bigAllocations parent).firstChild then
        t.modify parent fun r => { r with firstChild := (t.bigAllocations child).nextSib }
      else t
    let t := t.setNextSib (t.bigAllocations child).prevSib (t.bigAllocations child).nextSib
    let t := t.setPrevSib (t.bigAllocations child).nextSib (t.bigAllocations child).prevSib
    some (t.modify child fun r => { r with prevSib := 0, nextSib := 0, parent := 0 })

/-! ### The list of top-level records -/

/-- `search_xwards_until_p` over the records met: the first with `p`, if any, and the one before it.
-/
def searchUntil (p : Nat → Bool) : Nat → List Nat → Nat × Nat
  | prev, [] => (0, prev)
  | prev, cur :: l => if p cur then (cur, prev) else searchUntil p cur l

/-- The records from `START` on, forwards. -/
def nextwards (t : Table) : Option (List Nat) :=
  Dll.walk (fun m => (t.bigAllocations m).nextSib) 0 nbigallocs t.start

/-- The records from `START` on, backwards. -/
def prevwards (t : Table) : Option (List Nat) :=
  Dll.walk (fun m => (t.bigAllocations m).prevSib) 0 nbigallocs t.start

/-- `find_toplevel_lowest_ge`. -/
def findToplevelLowestGe (t : Table) (addr : Nat) : Option Nat := do
  let cond := fun cur => (t.bigAllocations cur).end_ - 1 ≥ addr
  let (cur, _) := searchUntil cond 0 (← t.nextwards)
  if cur ≠ 0 ∧ cur ≠ t.start then return cur
  -- nothing from START onwards is ge addr, so nothing is
  if cur = 0 then return 0
  let (_, prev) := searchUntil (fun cur => !cond cur) 0 (← t.prevwards)
  return prev

/-- `find_toplevel_highest_lt`. -/
def findToplevelHighestLt (t : Table) (addr : Nat) : Option Nat := do
  let cond := fun cur => (t.bigAllocations cur).begin < addr
  let (cur, _) := searchUntil cond 0 (← t.prevwards)
  if cur ≠ 0 ∧ cur ≠ t.start then return cur
  -- nothing from START backwards is lt addr, so nothing is
  if cur = 0 then return 0
  let (_, prev) := searchUntil (fun cur => !cond cur) 0 (← t.nextwards)
  return prev

/-- The record that `add_toplevel` puts before `b`, when `next` comes after it. -/
def toplevelPrev (t : Table) (b next : Nat) : Option Nat :=
  if next ≠ 0 then some (t.bigAllocations next).prevSib
  else t.findToplevelHighestLt (t.bigAllocations b).begin

/-- `add_toplevel`. -/
def addToplevel (t : Table) (b : Nat) : Option Table := do
  let next ← t.findToplevelLowestGe (t.bigAllocations b).end_
  let t := t.modify b fun r => { r with nextSib := next }
  let prev ← t.toplevelPrev b next
  let t := t.modify b fun r => { r with prevSib := prev }
  return (t.setNextSib prev b).setPrevSib next b

/-- `unlink_toplevel`. -/
def unlinkToplevel (t : Table) (b : Nat) : Table :=
  let t := t.setNextSib (t.bigAllocations b).prevSib (t.bigAllocations b).nextSib
  t.setPrevSib (t.bigAllocations b).nextSib (t.bigAllocations b).prevSib

/-- Take a record out of the list it is in. -/
def unlink (t : Table) (b : Nat) : Option Table :=
  if (t.bigAllocations b).parent ≠ 0 then t.unlinkChild b else some (t.unlinkToplevel b)

end Table

end Liballocs
