/-
The ids of allocation sites (`src/allocsites.c`, `include/allocsites.h`).

A loaded file may have an array of allocation sites, sorted by address, which is entered in a spine.
The id of a site is its index plus the start id of its array, in 16 bits.

Symbol lookup, the file of an address and the binary search stand in `AllocsiteEnv`.  `Fault` tells
an access beyond the spine from an abort.
-/
import Mathlib.Algebra.Group.Nat.Defs
import Mathlib.Data.Nat.Notation

namespace Liballocs

/-- `ALLOCSITES_INDEX_SIZE`. -/
def allocsitesIndexSize : Nat := 256

/-- One more than the largest `allocsite_id_t`. -/
def allocsiteIdBound : Nat := 2 ^ 16

/-- How a call can fail to return. -/
inductive Fault where
  | abort
  | outOfRange
deriving DecidableEq, Repr

/-- `struct allocsites_vectors_by_base_id_entry`. -/
structure AllocsitesVector where
  startId : Nat := 0
  count : Nat := 0
  fileBaseAddr : Nat := 0
  ptr : Nat := 0
deriving DecidableEq, Repr

/-- A symbol as `gnu_hash_lookup` finds it: where it is, by `sym_to_addr`, and its `st_size`. -/
structure FoundSym where
  addr : Nat
  stSize : Nat
deriving DecidableEq, Repr

/-- What is used of a `struct allocs_file_metadata`. -/
structure AllocsFileMetadata where
  /-- Null is zero. -/
  metaObjHandle : Nat
  lAddr : Nat
  /-- The symbol named `allocsites` of the meta-object. -/
  allocsites : Option FoundSym
  /-- The element of the spine, by its index. -/
  allocsitesInfo : Option Nat := none
deriving DecidableEq, Repr

/-- What the code relies on. -/
structure AllocsiteEnv where
  /-- `sizeof (struct allocsite_entry)`. -/
  sizeofEntry : Nat
  /-- The field `allocsite_vaddr` of the entry at an address. -/
  allocsiteVaddr : Nat → Nat
  /-- `bsearch_leq_generic`, with the key at each index, the length and the target. -/
  bsearchLeq : (Nat → Nat) → Nat → Nat → Option Nat
  /-- The file whose bigalloc an address is in, by its number in loading order. -/
  getFile : Nat → Option Nat

/-- The spine, how much of it is used, and the metadata of the files loaded. -/
structure Allocsites where
  vectorsByBaseId : Nat → AllocsitesVector := fun _ => {}
  idEntrySlotNextFree : Nat := 0
  files : List AllocsFileMetadata := []

namespace Allocsites

/-- A read of `allocsites_vectors_by_base_id`, which faults behind the end of the array. -/
def read (s : Allocsites) (i : Nat) : Except Fault AllocsitesVector :=
  if i < allocsitesIndexSize then .ok (s.vectorsByBaseId i) else .error .outOfRange

/-- A write to the same array. -/
def write (s : Allocsites) (i : Nat) (v : AllocsitesVector) : Except Fault Allocsites :=
  if i < allocsitesIndexSize then
    .ok { s with vectorsByBaseId := fun j => if j = i then v else s.vectorsByBaseId j }
  else .error .outOfRange

/-- The metadata of a file that has been loaded. -/
def addFile (s : Allocsites) (file : AllocsFileMetadata) : Allocsites :=
  { s with files := s.files ++ [file] }

/-- The start id of the next vector. -/
def nextStartId (s : Allocsites) (slotPos : Nat) : Except Fault Nat := do
  if slotPos = 0 then return 0
  let last ← s.read (slotPos - 1)
  let startId := (last.startId + last.count) % allocsiteIdBound
  -- we've overflowed
  if startId < last.startId then throw .abort
  return startId

/-- `init_allocsites_info`, on a file that is being loaded. -/
def initAllocsitesInfo (env : AllocsiteEnv) (s : Allocsites) (file : AllocsFileMetadata) :
    Except Fault Allocsites := do
  if file.metaObjHandle = 0 then return s.addFile file
  match file.allocsites with
  | none => return s.addFile file
  | some found =>
    let slotPos := s.idEntrySlotNextFree
    let s := { s with idEntrySlotNextFree := (slotPos + 1) % allocsiteIdBound }
    if slotPos > allocsitesIndexSize then throw .abort
    let startId ← s.nextStartId slotPos
    let s ← s.write slotPos
      { startId := startId
        count := found.stSize / env.sizeofEntry % allocsiteIdBound
        fileBaseAddr := file.lAddr
        ptr := found.addr }
    return s.addFile { file with allocsitesInfo := some slotPos }

/-- `get_file`. -/
def getFile (env : AllocsiteEnv) (s : Allocsites) (allocsite : Nat) :
    Option AllocsFileMetadata := do
  let i ← env.getFile allocsite
  s.files[i]?

/-- The address of an entry of an array. -/
def entryAddr (env : AllocsiteEnv) (ptr k : Nat) : Nat := ptr + k * env.sizeofEntry

/-- `__liballocs_find_allocsite_entry_at`. -/
def findAllocsiteEntryAt (env : AllocsiteEnv) (s : Allocsites) (allocsite : Nat) :
    Except Fault (Option Nat) := do
  match s.getFile env allocsite with
  | none => return none
  | some file =>
    match file.allocsitesInfo with
    | none => return none
    | some slot =>
      let info ← s.read slot
      let found := env.bsearchLeq (fun k => env.allocsiteVaddr (entryAddr env info.ptr k))
        info.count (allocsite - file.lAddr)
      return found.map (entryAddr env info.ptr)

/-- `__liballocs_allocsite_id`. -/
def allocsiteId (env : AllocsiteEnv) (s : Allocsites) (allocsite : Nat) : Except Fault Nat := do
  match s.getFile env allocsite with
  | none => return 0
  | some file =>
    match ← s.findAllocsiteEntryAt env allocsite, file.allocsitesInfo with
    | some foundEntry, some slot =>
      let info ← s.read slot
      return (info.startId + (foundEntry - info.ptr) / env.sizeofEntry) % allocsiteIdBound
    | _, _ => return allocsiteIdBound - 1

/-- `__liballocs_allocsite_entry_by_id`: the entry and the base address of its file. -/
def allocsiteEntryById (env : AllocsiteEnv) (s : Allocsites) (id : Nat) :
    Except Fault (Option (Nat × Nat)) := do
  -- the search reads the whole of the spine that is in use
  if s.idEntrySlotNextFree > allocsitesIndexSize then throw .outOfRange
  match env.bsearchLeq (fun i => (s.vectorsByBaseId i).startId) s.idEntrySlotNextFree id with
  | none => return none
  | some i =>
    let found ← s.read i
    return some (entryAddr env found.ptr (id - found.startId), found.fileBaseAddr)

/-- `__liballocs_allocsite_by_id`; null is zero. -/
def allocsiteById (env : AllocsiteEnv) (s : Allocsites) (id : Nat) : Except Fault Nat := do
  match ← s.allocsiteEntryById env id with
  | none => return 0
  | some (entry, fileBaseAddr) => return fileBaseAddr + env.allocsiteVaddr entry

/-- Files are loaded one after the other. -/
def load (env : AllocsiteEnv) (files : List AllocsFileMetadata) : Except Fault Allocsites :=
  files.foldlM (initAllocsitesInfo env) {}

end Allocsites

end Liballocs
