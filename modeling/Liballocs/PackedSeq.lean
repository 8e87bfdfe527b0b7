/-
Packed sequences (`src/allocators/packed-seq.c`).

A bigalloc can be a sequence of elements that its family enumerates, such as the strings of a string
table.  What has been enumerated is cached: the starts in a bitmap and, for families with a metavector,
one narrow record for each element.

Of the bitmap the first `starts_bitmap_nwords` words exist, and a write beyond them does not return.
The bitmap helpers are a library's, and `bitmap_rfind_first_set_leq_l` may start at the end or read
beyond it, which does not return.  A `realloc` to no bytes returns null, and the program exits.  Memory
does not change, and addresses do not wrap around.
-/
import Liballocs.GenericMallocQuery
import Liballocs.Uniqtype
import Mathlib.Data.Nat.Count

namespace Liballocs

/-- The records of a metavector, by `one_plus_log2_metavector_entry_size_bytes`. -/
inductive MetavectorKind where
  | noMetavector
  | rec16
  | rec32
deriving DecidableEq, Repr

namespace MetavectorKind

/-- `METAVECTOR_ENTRY_SIZE_BYTES`. -/
def entrySizeBytes : MetavectorKind → Nat
  | noMetavector => 0
  | rec16 => 2
  | rec32 => 4

/-- The width of `type_idx`. -/
def typeIdxBits : MetavectorKind → Nat
  | noMetavector => 0
  | rec16 => 4
  | rec32 => 10

/-- The width of `size_nalign`. -/
def sizeNalignBits : MetavectorKind → Nat
  | noMetavector => 0
  | rec16 => 9
  | rec32 => 18

/-- The width of `size_delta_nbytes`. -/
def sizeDeltaBits : MetavectorKind → Nat
  | noMetavector => 0
  | rec16 => 3
  | rec32 => 4

end MetavectorKind

/-- `struct packed_sequence_metavector_rec16` and `struct packed_sequence_metavector_rec32`. -/
structure MetavectorRec where
  typeIdx : Nat
  sizeNalign : Nat
  sizeDeltaNbytes : Nat
deriving DecidableEq, Repr

/-- Writing the fields, which cut their values. -/
def MetavectorKind.record (k : MetavectorKind) (typeIdx sizeNalign sizeDeltaNbytes : Nat) :
    MetavectorRec where
  typeIdx := typeIdx % 2 ^ k.typeIdxBits
  sizeNalign := sizeNalign % 2 ^ k.sizeNalignBits
  sizeDeltaNbytes := sizeDeltaNbytes % 2 ^ k.sizeDeltaBits

/-- `struct packed_sequence_family`. -/
structure PackedSequenceFamily where
  /-- The size and the type of the element at a position; nothing for `(size_t) -1`. -/
  enumerate : Nat → Nat → Option (Nat × Nat)
  /-- A field of three bits in the source; nothing here depends on that. -/
  log2Align : Nat := 0
  metavector : MetavectorKind := .noMetavector
  /-- The `ntypes` types. -/
  typesTable : List Nat := []

/-- `struct packed_sequence` without the family. -/
structure PackedSequence where
  /-- The first `metavector_nused` records. -/
  metavector : List MetavectorRec := []
  metavectorSize : Nat := 0
  startsBitmap : Nat → Bool := fun _ => false
  startsBitmapNwords : Nat := 0
  offsetCachedUpTo : Nat := 0

/-- `INITIAL_METAVECTOR_SIZE`. -/
def initialMetavectorSize : Nat := 8

namespace PackedSequenceFamily

variable (fam : PackedSequenceFamily)

/-- `1u << log2_align`. -/
def align : Nat := 2 ^ fam.log2Align

/-- `find_idx`, an `unsigned`. -/
def findIdx (u : Nat) : Nat := (fam.typesTable.findIdx? (· == u)).getD (2 ^ 32 - 1)

/-- `bitmap_base_addr` for a sequence at `begin`. -/
def bitmapBaseAddr (begin : Nat) : Nat := roundDown begin fam.align

/-- The bit of an address. -/
def bitOf (begin addr : Nat) : Nat := (addr - fam.bitmapBaseAddr begin) / fam.align

/-! ### Caching -/

/-- The bitmap grows to cover the target. -/
def growBitmap (begin targetOffset : Nat) (seq : PackedSequence) : PackedSequence :=
  let bitmapNaddrs := begin + targetOffset + 1 - fam.bitmapBaseAddr begin
  let bitmapNbits := divideRoundingUp bitmapNaddrs fam.align
  let bitmapNwords := divideRoundingUp bitmapNbits bitmapWordNbits
  if seq.startsBitmapNwords < bitmapNwords then
    { seq with
      startsBitmapNwords := bitmapNwords
      startsBitmap := fun i =>
        if seq.startsBitmapNwords * bitmapWordNbits ≤ i ∧ i < bitmapNwords * bitmapWordNbits then false
        else seq.startsBitmap i }
  else seq

/-- The metavector has room for another record. -/
def growMetavector (seq : PackedSequence) : Option PackedSequence :=
  if seq.metavector.length = seq.metavectorSize then
    let size :=
      if seq.metavectorSize ≠ 0 then 2 * seq.metavectorSize % 2 ^ 32 else initialMetavectorSize
    -- the number of bytes is an `unsigned`
    if size * fam.metavector.entrySizeBytes % 2 ^ 32 = 0 then none
    else some { seq with metavectorSize := size }
  else some seq

/-- The record of an element. -/
def recordOf (cur curSz u : Nat) : MetavectorRec :=
  let curEnd := cur + curSz
  let curNextStart := roundUp curEnd fam.align
  fam.metavector.record (fam.findIdx u) ((curNextStart - cur) / fam.align) (curNextStart - curEnd)

/-- The record of the element at `cur` goes into the metavector, if there is one. -/
def pushRecord (seq : PackedSequence) (cur curSz u : Nat) : Option PackedSequence :=
  if fam.metavector = .noMetavector then some seq
  else do
    let seq ← fam.growMetavector seq
    return { seq with metavector := seq.metavector ++ [fam.recordOf cur curSz u] }

/-- The body of the loop of `ensure_cached_up_to`: the element at `cur` is cached. -/
def cacheElement (begin : Nat) (seq : PackedSequence) (cur curSz u : Nat) : Option PackedSequence := do
  let seq ← fam.pushRecord seq cur curSz u
  let bit := fam.bitOf begin cur
  if bit < seq.startsBitmapNwords * bitmapWordNbits then
    some { seq with
      startsBitmap := Function.update seq.startsBitmap bit true
      offsetCachedUpTo := (roundUp (cur + curSz) fam.align - begin) % 2 ^ 32 }
  else none

/-- The loop of `ensure_cached_up_to`, from the element at `cur` on. -/
def cacheLoop (begin end_ targetOffset : Nat) : Nat → PackedSequence → Nat → Option PackedSequence
  | 0, _, _ => none
  | fuel + 1, seq, cur =>
    match fam.enumerate cur end_ with
    | none => some seq
    | some (curSz, u) => do
      let seq ← fam.cacheElement begin seq cur curSz u
      if cur + curSz ≥ begin + targetOffset then some seq
      else cacheLoop begin end_ targetOffset fuel seq (roundUp (cur + curSz) fam.align)

/-- `ensure_cached_up_to` for a bigalloc.  The loop takes at most a turn for each byte. -/
def ensureCachedUpTo (begin end_ : Nat) (seq : PackedSequence) (offset : Nat) : Option PackedSequence :=
  if seq.offsetCachedUpTo < offset then
    let targetOffset := min (end_ - begin) (max (2 * seq.offsetCachedUpTo % 2 ^ 32) offset)
    fam.cacheLoop begin end_ targetOffset (targetOffset + 2) (fam.growBitmap begin targetOffset seq)
      (begin + seq.offsetCachedUpTo)
  else some seq

end PackedSequenceFamily

/-! ### Queries -/

/-- What queries take from outside: the types, the constructor of array types, and the helper on
bitmaps. -/
structure SeqEnv where
  types : Nat → Uniqtype := fun _ => {}
  /-- `UNIQTYPE_ARRAY_LENGTH_UNBOUNDED`. -/
  arrayLengthUnbounded : Nat := 2 ^ 31 - 1
  /-- `__liballocs_get_or_create_array_type`. -/
  getOrCreateArrayType : Nat → Nat → Nat := fun _ _ => 0
  /-- Does `bitmap_rfind_first_set_leq_l` start at the end when asked to start beyond it? -/
  rfindClamps : Bool := false
  /-- The searches in bitmaps. -/
  bitmaps : Bits.Searches := .byOne

/-- `FIXUP_T`: an array type without a length is given one, an `unsigned`. -/
def SeqEnv.fixupT (env : SeqEnv) (t sz : Nat) : Option Nat :=
  let u := env.types t
  if t ≠ 0 ∧ u.isArrayType ∧ u.arrayLength = env.arrayLengthUnbounded then
    let posMaxoff := (env.types u.arrayElementType).posMaxoff
    if posMaxoff = 0 then none
    else some (env.getOrCreateArrayType u.arrayElementType (sz / posMaxoff % 2 ^ 32))
  else some t

namespace PackedSequence

variable (seq : PackedSequence)

/-- The number of bits that the words of the bitmap hold. -/
def nbits : Nat := seq.startsBitmapNwords * bitmapWordNbits

/-- `bitmap_rfind_first_set_leq_l`. -/
def bitmapRfindFirstSetLeq (env : SeqEnv) (startIdx : Nat) : Option (Option Nat) :=
  if startIdx < seq.nbits then some (env.bitmaps.lastLeq seq.startsBitmap startIdx)
  else if env.rfindClamps then
    some (if seq.nbits = 0 then none else env.bitmaps.lastLeq seq.startsBitmap (seq.nbits - 1))
  else none

/-- `bitmap_count_set_l` from the first bit to before the given one. -/
def bitmapCountSet (env : SeqEnv) (idx : Nat) : Nat := env.bitmaps.countBelow seq.startsBitmap idx

end PackedSequence

/-- What `get_info` writes. -/
structure SeqInfo where
  outType : Nat
  outBase : Nat
  outSize : Nat
deriving DecidableEq, Repr

/-- What the callback of a walk is given: the object, its type, the coordinate. -/
structure WalkCall where
  obj : Nat
  type : Nat
  coord : Nat
deriving DecidableEq, Repr

namespace PackedSequenceFamily

variable (fam : PackedSequenceFamily) (env : SeqEnv)

/-- What `get_info` takes from the record of the start: the type, the size and the base.  Without a
metavector none is set, and the shift by minus one goes into no result. -/
def foundInfo (begin : Nat) (seq : PackedSequence) (foundIdx : Nat) : Option (Nat × Nat × Nat) :=
  if fam.metavector = .noMetavector then some (0, 2 ^ 64 - 1, 0)
  else do
    let countBefore := seq.bitmapCountSet env foundIdx
    let ent ← seq.metavector[countBefore]?
    let foundT ← fam.typesTable[ent.typeIdx]?
    some (foundT, sub64 (ent.sizeNalign * fam.align) ent.sizeDeltaNbytes,
      fam.bitmapBaseAddr begin + foundIdx * fam.align)

/-- `get_info` for an object in the bigalloc: nothing is found for the error. -/
def getInfo (begin end_ : Nat) (seq : PackedSequence) (obj : Nat) :
    Option (PackedSequence × Option SeqInfo) := do
  let targetOffset := (obj - begin) % 2 ^ 32
  let seq ← fam.ensureCachedUpTo begin end_ seq ((targetOffset + 1) % 2 ^ 32)
  let queryIdx := fam.bitOf begin (begin + targetOffset)
  match ← seq.bitmapRfindFirstSetLeq env queryIdx with
  | none => some (seq, none)
  | some foundIdx => do
    let (foundT, sz, base) ← fam.foundInfo env begin seq foundIdx
    let outType ← env.fixupT foundT sz
    some (seq, some { outType, outBase := base, outSize := sz })

/-- The type and the size that `walk_allocations` takes for the `n`th element, of `paddedSz` bytes. -/
def walkType (seq : PackedSequence) (n paddedSz : Nat) : Option (Nat × Nat) :=
  if fam.metavector = .noMetavector then do
    let t ← fam.typesTable[0]?
    some (t, paddedSz)
  else do
    let ent ← seq.metavector[n]?
    let t ← fam.typesTable[ent.typeIdx]?
    some (t, sub64 paddedSz ent.sizeDeltaNbytes)

/-- `padded_sz`: the distance to the next bit, or to the end. -/
def paddedSize (end_ obj curBitIdx : Nat) : Option Nat → Nat
  | none => sub64 end_ obj
  | some nextBitIdx => (nextBitIdx - curBitIdx) * fam.align

/-- The loop of `walk_allocations` from a bit on: the calls of `cb`, and the last result. -/
def walkLoop (begin end_ : Nat) (seq : PackedSequence) (maybeRangeEnd : Option Nat) (n : Nat)
    (cb : WalkCall → Nat) : Nat → Option Nat → Nat → Option (List WalkCall × Nat)
  | 0, _, _ => none
  | _ + 1, none, _ => some ([], 0)
  | fuel + 1, some curBitIdx, coord => do
    let obj := fam.bitmapBaseAddr begin + curBitIdx * fam.align
    if maybeRangeEnd.any (· ≤ obj) then some ([], 0)
    else
      let nextBitIdx :=
        bitmapFindFirstSet1Geq env.bitmaps seq.startsBitmap seq.startsBitmapNwords (curBitIdx + 1)
      let paddedSz := fam.paddedSize end_ obj curBitIdx nextBitIdx
      let (t, actualSz) ← fam.walkType seq n paddedSz
      let type ← env.fixupT t actualSz
      let call := { obj, type, coord := coord + 1 }
      let ret := cb call
      if ret ≠ 0 then some ([call], ret)
      else do
        let (calls, ret) ← walkLoop begin end_ seq maybeRangeEnd n cb fuel nextBitIdx (coord + 1)
        some (call :: calls, ret)

/-- `walk_allocations` of a range in the bigalloc. -/
def walkAllocations (begin end_ : Nat) (seq : PackedSequence) (cb : WalkCall → Nat)
    (maybeRangeBegin maybeRangeEnd : Option Nat) :
    Option (PackedSequence × List WalkCall × Nat) := do
  let seq ← fam.ensureCachedUpTo begin end_ seq (sub64 (maybeRangeEnd.getD end_) begin % 2 ^ 32)
  let bitmapStartIdx :=
    sub64 (maybeRangeBegin.getD begin) (fam.bitmapBaseAddr begin) / fam.align % 2 ^ 32
  let bitmapPreCount := seq.bitmapCountSet env bitmapStartIdx % 2 ^ 32
  let (calls, ret) ← fam.walkLoop env begin end_ seq maybeRangeEnd bitmapPreCount cb (seq.nbits + 2)
    (some bitmapStartIdx) bitmapPreCount
  some (seq, calls, ret)

end PackedSequenceFamily

/-! ### Strings -/

/-- Where the string at `pos` ends: after its zero byte, or at the end. -/
def stringEnd (mem : Nat → Nat) : Nat → Nat → Nat
  | 0, pos => pos
  | fuel + 1, pos => if mem pos = 0 then pos + 1 else stringEnd mem fuel (pos + 1)

/-- `enumerate_string8_nulterm`, where `arr0` is the type of arrays of characters. -/
def enumerateString8Nulterm (mem : Nat → Nat) (arr0 pos end_ : Nat) : Option (Nat × Nat) :=
  if pos = end_ then none else some (stringEnd mem (end_ - pos) pos - pos, arr0)

/-- `__string8_nulterm_packed_sequence`. -/
def string8NultermPackedSequence (mem : Nat → Nat) (arr0 : Nat) : PackedSequenceFamily where
  enumerate := enumerateString8Nulterm mem arr0
  typesTable := [arr0]

end Liballocs
