/-
What is asked of the allocation sites (`src/allocators/generic_small.c`).

Chunks and small objects keep the address they were allocated at, and have their type from its
allocation-site entry.  Here is the `QueryEnv` of `GenericMallocQuery` as the tables of sites give it,
and the end of the query for small objects.
-/
import Liballocs.Allocsites
import Liballocs.GenericMallocQuery
import Liballocs.GenericSmall

namespace Liballocs

/-- The queries' view of the tables; `uniqtype` is the field of that name of an entry. -/
def Allocsites.queryEnv (env : AllocsiteEnv) (s : Allocsites) (uniqtype : Nat → Nat) : QueryEnv where
  findAllocsiteEntryAt := fun allocsite =>
    (s.findAllocsiteEntryAt env allocsite).toOption.join.map uniqtype
  allocsiteId := fun allocsite => BitVec.ofNat 16 ((s.allocsiteId env allocsite).toOption.getD 0)

/-- The end of `get_info` for a small object's entry: the error, `*out_type` and `*out_site`. -/
def Entry.outTypeAndSite (q : QueryEnv) (ent : Entry) : Option LiballocsErr × Nat × Option Nat :=
  if ent.discr < 2 ^ 47 then
    let allocSite := ent.discr
    let allocUniqtype := (q.findAllocsiteEntryAt allocSite).getD 0
    (if allocUniqtype = 0 then some .unrecognisedAllocSite else none, allocUniqtype, some allocSite)
  else (some .unrecognisedAllocSite, 0, none)

end Liballocs
