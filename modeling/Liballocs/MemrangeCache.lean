/-
The cache of memory ranges (`include/liballocs_cil_inlines.h`, `src/cache.c`).

Slot zero stands for null; bit `i - 1` of `validity` says whether slot `i` is in use.  The slots in use
are chained from the most recently used to the least, both ways.  A lookup goes along the chain, and an
insertion takes the first free slot or else the last of the chain.  A chain that does not end does not
return; the sanity checks are only code in debug builds.
-/
import Mathlib.Algebra.Group.Nat.Defs
import Mathlib.Data.Int.Init

namespace Liballocs

/-- `LIBALLOCS_MEMRANGE_CACHE_MAX_SIZE`. -/
def memrangeCacheMaxSize : Nat := 8

/-- What an entry of the cache describes.  A type is the address of its `struct uniqtype`. -/
structure Memrange where
  objBase : Nat := 0
  objLimit : Nat := 0
  uniqtype : Nat := 0
  period : Nat := 0
  depth : Int := 0
deriving DecidableEq, Repr

/-- `struct __liballocs_memrange_cache_entry_s`. -/
structure MemrangeCacheEntry extends Memrange where
  prevMru : Nat := 0
  nextMru : Nat := 0
deriving DecidableEq, Repr

/-- `struct __liballocs_memrange_cache`; the defaults are those of `__liballocs_ool_cache`. -/
structure MemrangeCache where
  validity : BitVec 32 := 0
  sizePlusOne : Nat := 1 + memrangeCacheMaxSize
  nextVictim : Nat := 1
  headMru : Nat := 0
  tailMru : Nat := 0
  entries : Nat → MemrangeCacheEntry := fun _ => {}

namespace Memrange

/-- The `diff` of the lookups: a difference of pointers, as a signed number of 64 bits. -/
def diff (m : Memrange) (obj : Nat) : Int := ((obj : Int) - m.objBase).bmod (2 ^ 64)

/-- The period divides the difference, and is the one required if one is. -/
def periodFits (m : Memrange) (obj requirePeriod : Nat) : Bool :=
  m.period != 0 && (requirePeriod == 0 || m.period == requirePeriod)
    && (m.diff obj).tmod m.period == 0

/-- The test of `__liballocs_memrange_cache_lookup`. -/
def hit (obj t requirePeriod : Nat) (m : Memrange) : Bool :=
  m.uniqtype == t && m.objBase ≤ obj && obj < m.objLimit
    && (m.diff obj == 0 || m.periodFits obj requirePeriod)

/-- The test of `__liballocs_memrange_cache_lookup_notype`. -/
def hitNotype (obj requirePeriod : Nat) (m : Memrange) : Bool :=
  m.objBase ≤ obj && obj < m.objLimit
    && ((m.diff obj == 0 && requirePeriod == 0) || m.periodFits obj requirePeriod)

/-- The test of `__liballocs_uncache_all`: the range begins anywhere within the passed-in one. -/
def beginsWithin (allocptr size : Nat) (m : Memrange) : Bool :=
  allocptr ≤ m.objBase && m.objBase < (allocptr + size) % 2 ^ 64

end Memrange

namespace MemrangeCache

/-- `cache->validity & (1u << (i - 1))`. -/
def isValid (c : MemrangeCache) (i : Nat) : Bool := c.validity &&& (1#32 <<< (i - 1)) != 0

/-- Change one entry. -/
def modify (c : MemrangeCache) (i : Nat) (f : MemrangeCacheEntry → MemrangeCacheEntry) :
    MemrangeCache :=
  { c with entries := fun j => if j = i then f (c.entries j) else c.entries j }

/-- `cache->entries[p].next_mru = n`, unless `p` is null. -/
def setNextMru (c : MemrangeCache) (p n : Nat) : MemrangeCache :=
  if p ≠ 0 then c.modify p fun e => { e with nextMru := n } else c

/-- `cache->entries[p].prev_mru = n`, unless `p` is null. -/
def setPrevMru (c : MemrangeCache) (p n : Nat) : MemrangeCache :=
  if p ≠ 0 then c.modify p fun e => { e with prevMru := n } else c

/-- `__liballocs_cache_unlink`. -/
def cacheUnlink (c : MemrangeCache) (i : Nat) : MemrangeCache :=
  -- unset validity and make this the next victim
  let c := { c with validity := c.validity &&& ~~~(1#32 <<< (i - 1)), nextVictim := i }
  let ourNext := (c.entries i).nextMru
  let ourPrev := (c.entries i).prevMru
  let c := (c.setNextMru ourPrev ourNext).setPrevMru ourNext ourPrev
  { c with
    headMru := if c.headMru = i then ourNext else c.headMru
    tailMru := if c.tailMru = i then ourPrev else c.tailMru
    validity := c.validity &&& ~~~(1#32 <<< (i - 1)) }

/-- `__liballocs_cache_push_head_mru`. -/
def cachePushHeadMru (c : MemrangeCache) (i : Nat) : MemrangeCache :=
  let c := c.modify i fun e => { e with prevMru := 0, nextMru := c.headMru }
  let c := c.setPrevMru c.headMru i
  { c with
    headMru := i
    tailMru := if c.tailMru = 0 then i else c.tailMru
    validity := c.validity ||| (1#32 <<< (i - 1)) }

/-- `__liballocs_cache_bump_victim`. -/
def cacheBumpVictim (c : MemrangeCache) (i : Nat) : MemrangeCache :=
  if c.nextVictim = i ∧ c.sizePlusOne > 1 then
    { c with nextVictim := 1 + (i + 1 - 1) % (c.sizePlusOne - 1) }
  else c

/-- `__liballocs_cache_bump_mru`. -/
def cacheBumpMru (c : MemrangeCache) (i : Nat) : MemrangeCache :=
  if c.headMru ≠ i then
    (if c.isValid i then c.cacheUnlink i else c).cachePushHeadMru i
  else c

/-- The loop of the lookups, from slot `i` on; the first slot with a hit, or null. -/
def findFrom (c : MemrangeCache) (hit : Memrange → Bool) : Nat → Nat → Option Nat
  | 0, i => if i = 0 then some 0 else none
  | fuel + 1, i =>
    if i = 0 then some 0
    else if c.isValid i && hit (c.entries i).toMemrange then some i
    else findFrom c hit fuel (c.entries i).nextMru

/-- A lookup.  A hit is moved to the front. -/
def lookupBy (c : MemrangeCache) (hit : Memrange → Bool) : Option (Nat × MemrangeCache) := do
  let i ← c.findFrom hit c.sizePlusOne c.headMru
  return (i, if i = 0 then c else c.cacheBumpMru i)

/-- `__liballocs_memrange_cache_lookup`. -/
def memrangeCacheLookup (c : MemrangeCache) (obj t requirePeriod : Nat) :
    Option (Nat × MemrangeCache) := c.lookupBy (Memrange.hit obj t requirePeriod)

/-- `__liballocs_memrange_cache_lookup_notype`. -/
def memrangeCacheLookupNotype (c : MemrangeCache) (obj requirePeriod : Nat) :
    Option (Nat × MemrangeCache) := c.lookupBy (Memrange.hitNotype obj requirePeriod)

/-- `__builtin_ffs(~v)`: one plus the index of the least significant 0-bit, or zero. -/
def ffsNot (v : BitVec 32) : Nat :=
  match (List.range 32).find? fun k => !v.getLsbD k with
  | some k => k + 1
  | none => 0

/-- `__liballocs_cache_with_type`. -/
def cacheWithType (c : MemrangeCache) (m : Memrange) : MemrangeCache :=
  let free := ffsNot c.validity
  let pos := if free = c.sizePlusOne then c.tailMru else free
  -- the links are kept for the moment
  let c := c.modify pos fun e => { e with toMemrange := m }
  (c.cacheBumpMru pos).cacheBumpVictim pos

/-- The body of the loop of `__liballocs_uncache_all`. -/
def uncacheAt (allocptr size : Nat) (c : MemrangeCache) (i : Nat) : MemrangeCache :=
  if c.isValid i && (c.entries i).toMemrange.beginsWithin allocptr size then
    { c.cacheUnlink i with nextVictim := i }
  else c

/-- `__liballocs_uncache_all`. -/
def uncacheAll (c : MemrangeCache) (allocptr size : Nat) : MemrangeCache :=
  (List.range' 1 (c.sizePlusOne - 1)).foldl (uncacheAt allocptr size) c

end MemrangeCache

end Liballocs
