/-
The symbols of a loaded file (`src/allocators/static-symbol.c`, `include/allocmeta.h`).

A segment has a vector of records, sorted by address: symbols, with address and size in one of three
tables of the file, and targets of relocations, which have their own.  `get_info` looks for the last
record at or below an address.  Bigallocs, segments and files are numbers, and the binary search is a
parameter.  `none` is a read past the table of bigallocs.
-/
import Liballocs.Table

namespace Liballocs

/-- The symbol table that a record refers to. -/
inductive RecKind where
  | dynsym
  | symtab
  | extrasym
deriving DecidableEq, Repr

/-- What is used of an `ElfW(Sym)`. -/
structure ElfSym where
  stValue : Nat
  stSize : Nat
deriving DecidableEq, Repr

/-- `union sym_or_reloc_rec`. -/
inductive SymOrRelocRec where
  | sym (kind : RecKind) (idx uniqtypePtrBitsNoLowbits : Nat)
  | reloc (baseVaddr size : Nat)
deriving DecidableEq, Repr, Inhabited

/-- What is used of a `struct allocs_file_metadata` here. -/
structure SymbolTables where
  lAddr : Nat
  loadSite : Nat := 0
  /-- `m.dynsym`, `m.symtab` and `extrasym`. -/
  table : RecKind → Nat → ElfSym

/-- What the allocators of static symbols and sections read and call. -/
structure StaticEnv where
  table : Table
  staticSymbolAllocator : Allocator := .other 0
  staticSectionAllocator : Allocator := .other 1
  /-- The metavector of a segment, by the `allocator_private` of its bigalloc. -/
  metavector : Nat → List SymOrRelocRec
  /-- The metadata of a file, by the `allocator_private` of its bigalloc. -/
  file : Nat → SymbolTables
  /-- `bsearch_leq_generic`, with the key at each index, the length and the target. -/
  bsearchLeq : (Nat → Nat) → Nat → Nat → Option Nat
  pointerToUninterpretedByte : Nat

/-- What `get_info` outputs. -/
structure StaticInfo where
  outType : Nat
  outBase : Nat
  outSize : Nat
  outSite : Nat
deriving DecidableEq, Repr

namespace SymOrRelocRec

/-- `vaddr_from_rec`. -/
def vaddr (file : SymbolTables) : SymOrRelocRec → Nat
  | .sym kind idx _ => (file.table kind idx).stValue
  | .reloc baseVaddr _ => baseVaddr

/-- The `found_limit_vaddr` of `do_lookup`. -/
def limitVaddr (file : SymbolTables) : SymOrRelocRec → Nat
  | .sym kind idx uniqtypePtrBitsNoLowbits =>
    vaddr file (.sym kind idx uniqtypePtrBitsNoLowbits) + (file.table kind idx).stSize
  | .reloc baseVaddr size => baseVaddr + size

/-- The `size` of `get_info`. -/
def outSize (file : SymbolTables) : SymOrRelocRec → Nat
  | .sym kind idx _ => (file.table kind idx).stSize
  | .reloc baseVaddr size => baseVaddr + size

/-- What `get_info` leaves in `*out_type`. -/
def outType (pointerToUninterpretedByte : Nat) : SymOrRelocRec → Nat
  | .sym _ _ uniqtypePtrBitsNoLowbits => uniqtypePtrBitsNoLowbits <<< 3
  | .reloc _ _ => pointerToUninterpretedByte

end SymOrRelocRec

namespace StaticEnv

/-- The bigalloc of the segment, from that of a symbol, of a section or of the segment itself. -/
def segmentBigalloc (env : StaticEnv) (bigalloc : Nat) : Nat :=
  let recs := env.table.bigAllocations
  let b := if (recs bigalloc).allocatedBy = some env.staticSymbolAllocator then (recs bigalloc).parent
    else bigalloc
  if (recs b).allocatedBy = some env.staticSectionAllocator then (recs b).parent else b

/-- The metavector of the segment that a bigalloc is for. -/
def segmentMetavector (env : StaticEnv) (segment : Nat) : List SymOrRelocRec :=
  env.metavector (env.table.bigAllocations segment).allocatorPrivate

/-- The metadata of the file that a segment is in. -/
def segmentFile (env : StaticEnv) (segment : Nat) : SymbolTables :=
  env.file (env.table.bigAllocations (env.table.bigAllocations segment).parent).allocatorPrivate

/-- `do_lookup` once the segment is known. -/
def lookupIn (env : StaticEnv) (segment obj : Nat) : Option SymOrRelocRec :=
  let metavector := env.segmentMetavector segment
  let file := env.segmentFile segment
  let targetVaddr := obj - file.lAddr
  let found := if metavector.length = 0 then none
    else env.bsearchLeq (fun i => (metavector.getD i default).vaddr file) metavector.length targetVaddr
  found.bind fun i =>
    if i = metavector.length ∨ targetVaddr > (metavector.getD i default).limitVaddr file then none
    else some (metavector.getD i default)

/-- `do_lookup`: the bigalloc of the segment and the record. -/
def doLookup (env : StaticEnv) (obj : Nat) (maybeBigalloc : Option Nat) :
    Option (Option (Nat × SymOrRelocRec)) := do
  -- the page number is not an index of this table
  let bigalloc ← maybeBigalloc <|> (if pagenum obj < nbigallocs then some (pagenum obj) else none)
  let segment := env.segmentBigalloc bigalloc
  return (env.lookupIn segment obj).map fun found => (segment, found)

/-- What `get_info` outputs for a record of a segment. -/
def outInfo (env : StaticEnv) (segment : Nat) (found : SymOrRelocRec) : StaticInfo :=
  let file := env.segmentFile segment
  { outType := found.outType env.pointerToUninterpretedByte
    outBase := file.lAddr + found.vaddr file
    outSize := found.outSize file
    outSite := file.loadSite }

/-- `get_info`; nothing is `__liballocs_err_unrecognised_static_object`. -/
def getInfo (env : StaticEnv) (obj : Nat) (maybeBigalloc : Option Nat) :
    Option (Option StaticInfo) := do
  let result ← env.doLookup obj maybeBigalloc
  return result.map fun r => env.outInfo r.1 r.2

end StaticEnv

end Liballocs
