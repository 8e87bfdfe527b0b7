/-
The word of metadata at the end of every heap chunk (`include/malloc-meta.h`).

`struct insert` is one 64-bit word that is read in three ways.  The bit-fields of each view follow one
another from the low end, as in the x86-64 ABI.  Usable sizes are machine words, and subtracting from
them wraps around.
-/
import Mathlib.Data.BitVec

namespace Liballocs

/-- `struct insert`. -/
structure Insert where
  bits : BitVec 64 := 0
deriving DecidableEq, Repr

/-- `struct insert_initial`. -/
@[ext]
structure InsertInitial where
  always0 : BitVec 1
  allocSite : BitVec 47
  unused : BitVec 12
  lifetimePolicies : BitVec 4
deriving DecidableEq, Repr

/-- `struct insert_with_type`. -/
@[ext]
structure InsertWithType where
  always1 : BitVec 1 := 0
  allocSiteId : BitVec 15 := 0
  uniqtypeShifted : BitVec 44 := 0
  lifetimePolicies : BitVec 4 := 0
deriving DecidableEq, Repr

namespace Insert

/-- The member `initial` of the union. -/
def initial (ins : Insert) : InsertInitial where
  always0 := ins.bits.extractLsb' 0 1
  allocSite := ins.bits.extractLsb' 1 47
  unused := ins.bits.extractLsb' 48 12
  lifetimePolicies := ins.bits.extractLsb' 60 4

/-- Store to `initial`. -/
def ofInitial (v : InsertInitial) : Insert where
  bits := v.lifetimePolicies ++ v.unused ++ v.allocSite ++ v.always0

/-- The member `with_type` of the union. -/
def withType (ins : Insert) : InsertWithType where
  always1 := ins.bits.extractLsb' 0 1
  allocSiteId := ins.bits.extractLsb' 1 15
  uniqtypeShifted := ins.bits.extractLsb' 16 44
  lifetimePolicies := ins.bits.extractLsb' 60 4

/-- Store to `with_type`. -/
def ofWithType (v : InsertWithType) : Insert where
  bits := v.lifetimePolicies ++ v.uniqtypeShifted ++ v.allocSiteId ++ v.always1

/-- The member `common` of the union: its `lifetime_policies`. -/
def lifetimePolicies (ins : Insert) : BitVec 4 := ins.bits.extractLsb' 60 4

/-- `initial.unused = 0` and `initial.alloc_site = site`. -/
def setAllocSite (ins : Insert) (site : Nat) : Insert :=
  ofInitial { ins.initial with unused := 0, allocSite := BitVec.ofNat 47 site }

/-- `INSERT_IS_WITH_TYPE`. -/
def isWithType (ins : Insert) : Bool := ins.initial.unused != 0

/-- `ins->with_type.alloc_site_id`: a signed field of 15 bits, read as an `unsigned short`. -/
def allocSiteId (ins : Insert) : BitVec 16 := ins.withType.allocSiteId.signExtend 16

end Insert

/-- `UNIQTYPE_SHIFT_FOR_INSERT`. -/
def uniqtypeShiftForInsert (u : Nat) : Nat := u >>> 3

/-- `UNIQTYPE_UNSHIFT_FROM_INSERT`. -/
def uniqtypeUnshiftFromInsert (bits : Nat) : Nat := bits <<< 3

/-- The uniqtype that an insert with a type holds. -/
def Insert.uniqtype (ins : Insert) : Nat :=
  uniqtypeUnshiftFromInsert ins.withType.uniqtypeShifted.toNat

/-- `sizeof (struct insert)`. -/
def sizeofInsert : Nat := 8

/-- Subtraction of 64-bit words. -/
def sub64 (a b : Nat) : Nat := if b ≤ a then a - b else 2 ^ 64 - (b - a)

/-- `caller_usable_size_for_chunk_and_usable_size`. -/
def callerUsableSizeForChunkAndUsableSize (allocUsableSize : Nat) : Nat :=
  sub64 allocUsableSize sizeofInsert

/-- `insert_for_chunk_and_caller_usable_size`. -/
def insertForChunkAndCallerUsableSize (userptr callerUsableSize : Nat) : Nat :=
  userptr + callerUsableSize

/-- `caller_usable_size_for_chunk`. -/
def callerUsableSizeForChunk (userptr : Nat) (sizefn : Nat → Nat) : Nat :=
  callerUsableSizeForChunkAndUsableSize (sizefn userptr)

/-- `insert_for_chunk`. -/
def insertForChunk (userptr : Nat) (sizefn : Nat → Nat) : Nat :=
  insertForChunkAndCallerUsableSize userptr (callerUsableSizeForChunk userptr sizefn)

end Liballocs
