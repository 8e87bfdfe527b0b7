/-
Mapping sequences, as `src/allocators/mmap.c` keeps them.

A top-level mmap bigalloc has one `struct mapping_sequence` of at most eight entries that follow each
other in memory.  `augmentSequence` appends a mapping or overwrites a stretch, splitting the entries it
cuts; `deleteMappingSequenceSpan` trims or clears what a span covers and closes the gaps.

`mappings` is a function on indices, of which the first `nused` are live; the other slots are kept,
since the deletion loop reads all eight.  The build is the default one, with `NDEBUG`.  `none` is a
call that aborts or searches past the array.
-/
import Mathlib.Data.List.Basic
import Liballocs.Lib.Segments

namespace Liballocs

/-- `MAPPING_SEQUENCE_MAX_LEN`. -/
def mappingSequenceMaxLen : Nat := 8

/-- `PROT_NONE`, the only protection `augment_sequence` looks at. -/
def protNone : Nat := 0

/-- `struct mapping_entry`.  A null `caller` is `0`. -/
structure MappingEntry where
  begin : Nat := 0
  end_ : Nat := 0
  prot : Nat := 0
  flags : Nat := 0
  offset : Nat := 0
  isAnon : Bool := false
  caller : Nat := 0
deriving DecidableEq, Repr, Inhabited

/-- `struct mapping_sequence`.  A null `filename` is `none`. -/
structure MappingSequence where
  begin : Nat := 0
  end_ : Nat := 0
  filename : Option String := none
  nused : Nat := 0
  mappings : Nat → MappingEntry := fun _ => {}

/-- What `augment_sequence` is asked to describe: its arguments other than the sequence. -/
structure Mapping where
  begin : Nat
  end_ : Nat
  prot : Nat
  flags : Nat
  offset : Nat
  filename : Option String
  caller : Nat
deriving DecidableEq, Repr

/-- The entry a request is recorded as. -/
def Mapping.entry (r : Mapping) : MappingEntry where
  begin := r.begin
  end_ := r.end_
  prot := r.prot
  flags := r.flags
  offset := r.offset
  isAnon := r.filename.isNone
  caller := r.caller

namespace MappingSequence

/-- `s->mappings[i] = e`. -/
def setMapping (s : MappingSequence) (i : Nat) (e : MappingEntry) : MappingSequence :=
  { s with mappings := Function.update s.mappings i e }

/-- `s->mappings[i].begin = a`. -/
def setMappingBegin (s : MappingSequence) (i a : Nat) : MappingSequence :=
  s.setMapping i { s.mappings i with begin := a }

/-- `s->mappings[i].end = a`. -/
def setMappingEnd (s : MappingSequence) (i a : Nat) : MappingSequence :=
  s.setMapping i { s.mappings i with end_ := a }

/-- `memmove` of `n` entries from index `src` to index `dst`. -/
def memmove (m : Nat → MappingEntry) (dst src n : Nat) : Nat → MappingEntry := fun i =>
  if dst ≤ i ∧ i < dst + n then m (src + (i - dst)) else m i

/-- `copy_all_left_from_by`. -/
def copyAllLeftFromBy (s : MappingSequence) (fr by_ : Nat) : MappingSequence :=
  { s with
    mappings := memmove s.mappings (fr - by_) fr (s.nused - fr)
    nused := s.nused - by_ }

/-- `copy_all_right_from_by`. -/
def copyAllRightFromBy (s : MappingSequence) (fr by_ : Nat) : MappingSequence :=
  { s with
    mappings := memmove s.mappings (fr + by_) fr (s.nused - fr)
    nused := s.nused + by_ }

/-- `__mmap_allocator_find_entry`: the first live entry that holds `addr`. -/
def findEntry (s : MappingSequence) (addr : Nat) : Option MappingEntry :=
  ((List.range s.nused).map s.mappings).find? fun e => e.begin ≤ addr && addr < e.end_

/-! ### `augment_sequence` -/

/-- The `OVERLAPS` macro.  Ranges that touch, the first before the second, count as overlapping. -/
def overlaps (b1 e1 b2 e2 : Nat) : Bool := b1 < e2 && e1 ≥ b2

/-- Does entry `i` overlap the request? -/
def overlapsAt (s : MappingSequence) (r : Mapping) (i : Nat) : Bool :=
  overlaps (s.mappings i).begin (s.mappings i).end_ r.begin r.end_

/-- The upward search for the first affected entry. -/
def firstOverlapped (s : MappingSequence) (r : Mapping) : Option Nat :=
  (List.range mappingSequenceMaxLen).find? (s.overlapsAt r)

/-- The downward search from the last live entry for the last affected one. -/
def lastOverlapped (s : MappingSequence) (r : Mapping) : Option Nat :=
  (List.range s.nused).reverse.find? (s.overlapsAt r)

variable (objectBelow : Nat → Nat)

/-- `filename_is_consistent` for a clean extension; `objectBelow` is
`get_highest_loaded_object_below`. -/
def extensionFilenameIsConsistent (s : MappingSequence) (r : Mapping) : Bool :=
  let last := s.mappings (s.nused - 1)
  -- both anonymous
  (r.filename.isNone && s.filename.isNone)
  || s.nused == 0
  -- anonymous guard-page regions can always be added
  || (r.prot == protNone && r.filename.isNone)
  -- at most one trailing anonymous mapping, made by the same object
  || (r.filename.isNone && s.filename.isSome && !last.isAnon
      && ((r.caller == 0 && last.caller == 0) || objectBelow r.caller == objectBelow last.caller))
  || (r.filename.isSome && s.filename.isSome && r.filename == s.filename)

/-- `maybe_mapping_preceding_overlap`; `none` is `-1`. -/
def precedingOverlap (first : Nat) (beginPartial : Bool) : Option Nat :=
  if beginPartial then some first else if first = 0 then none else some (first - 1)

/-- `maybe_mapping_following_overlap`; `none` is `-1`. -/
def followingOverlap (s : MappingSequence) (last : Nat) (endPartial : Bool) : Option Nat :=
  let i := if endPartial then last else last + 1
  if i ≥ s.nused then none else some i

/-- Would the request put a named mapping after an anonymous one? -/
def risingEdge (s : MappingSequence) (r : Mapping) (preceding following : Option Nat) : Bool :=
  (match preceding with
    | none => false
    | some i => (s.mappings i).isAnon && r.filename.isSome)
  || (match following with
    | none => false
    | some i => r.filename.isNone && !(s.mappings i).isAnon)

/-- `filename_is_consistent` for a request that overlaps the sequence. -/
def overlapFilenameIsConsistent (s : MappingSequence) (r : Mapping) (first last : Nat)
    (beginPartial endPartial : Bool) : Bool :=
  if (r.filename.isNone && s.filename.isNone) || s.nused == 0 then true
  else if r.filename.isSome && s.filename.isSome && r.filename != s.filename then false
  else
    !s.risingEdge r (precedingOverlap first beginPartial) (s.followingOverlap last endPartial)
    && (r.caller == 0 || (s.mappings first).caller == 0
        || objectBelow r.caller == objectBelow (s.mappings first).caller)

/-- Record the request after the last entry. -/
def extend (s : MappingSequence) (r : Mapping) : MappingSequence :=
  { begin := if s.begin = 0 then r.begin else s.begin
    end_ := r.end_
    filename := if s.filename.isNone then r.filename else s.filename
    nused := s.nused + 1
    mappings := Function.update s.mappings s.nused r.entry }

/-- The state of the splitting code: the sequence and the two indices it keeps. -/
structure Splitting where
  seq : MappingSequence
  first : Nat
  last : Nat

/-- Eliminate partial overlap at the beginning. -/
def splitAtBegin (c : Splitting) (begin : Nat) : Splitting :=
  let seq := c.seq.copyAllRightFromBy c.first 1
  let last := if c.first ≠ c.last then c.last + 1 else c.last
  let seq := seq.setMappingEnd c.first begin
  let seq := seq.setMappingBegin (c.first + 1) begin
  { seq := seq
    first := c.first + 1
    last := if c.first = last then last + 1 else last }

/-- Eliminate partial overlap at the end. -/
def splitAtEnd (c : Splitting) (end_ : Nat) : Splitting :=
  let seq := c.seq.copyAllRightFromBy c.last 1
  let seq := seq.setMappingBegin (c.last + 1) end_
  { c with seq := seq.setMappingEnd c.last end_ }

/-- Delete in-the-middle mappings that are fully overlapped, leaving one. -/
def dropObsolete (c : Splitting) : Splitting :=
  if c.last - c.first + 1 > 1 then
    let n := c.last - c.first
    { c with seq := c.seq.copyAllLeftFromBy (c.last + 1) n, last := c.last - n }
  else c

/-- Overwrite the stretch the request covers. -/
def overwrite (s : MappingSequence) (r : Mapping) (first last : Nat)
    (beginPartial endPartial : Bool) : MappingSequence :=
  let c : Splitting := ⟨s, first, last⟩
  let c := if beginPartial then splitAtBegin c r.begin else c
  let c := if endPartial then splitAtEnd c r.end_ else c
  let c := dropObsolete c
  c.seq.setMapping c.first r.entry

/-- `augment_sequence`.  The result is the returned flag and the sequence afterwards. -/
def augmentSequence (s : MappingSequence) (r : Mapping) : Option (Bool × MappingSequence) :=
  let isCleanExtension := s.end_ == 0 || s.end_ == r.begin
  let boundsWouldRemainContiguous :=
    isCleanExtension || overlaps s.begin s.end_ r.begin r.end_
  let beginAddrUnchanged := r.begin ≥ s.begin
  let notTooMany := s.nused ≠ mappingSequenceMaxLen
  if boundsWouldRemainContiguous ∧ beginAddrUnchanged ∧ notTooMany then
    if isCleanExtension then
      if s.extensionFilenameIsConsistent objectBelow r then some (true, s.extend r)
      else some (false, s)
    else do
      let first ← s.firstOverlapped r
      let last ← s.lastOverlapped r
      let beginPartial := (s.mappings first).begin != r.begin
      let endPartial := (s.mappings last).end_ != r.end_
      if !s.overlapFilenameIsConsistent objectBelow r first last beginPartial endPartial then
        return (false, s)
      -- check we have room to copy right
      let nspare := mappingSequenceMaxLen - s.nused
      if nspare < beginPartial.toNat + endPartial.toNat then
        return (false, s)
      return (true, s.overwrite r first last beginPartial endPartial)
  else some (false, s)

/-! ### `delete_mapping_sequence_span` -/

/-- What the deletion loop does to slot `i`. -/
def deleteSpanAt (addr length : Nat) (s : MappingSequence) (i : Nat) : Option MappingSequence :=
  let m := s.mappings i
  if m.begin ≤ addr + length ∧ m.end_ > addr then
    -- we can't punch holes, yet
    if addr > m.begin ∧ addr + length < m.end_ then none
    else
      let leftAtBeginning := if addr > m.begin then addr - m.begin else 0
      let leftAtEnd := if addr + length > m.end_ then 0 else m.end_ - (addr + length)
      if leftAtBeginning = 0 ∧ leftAtEnd = 0 then some (s.setMapping i {})
      else
        let currentLength := m.end_ - m.begin
        if leftAtBeginning = 0 then
          let b := m.begin + (currentLength - leftAtEnd)
          let s := s.setMappingBegin i b
          some (if i = 0 then { s with begin := b } else s)
        else
          let e := m.end_ - (currentLength - leftAtBeginning)
          let s := s.setMappingEnd i e
          some (if i + 1 = s.nused then { s with end_ := e } else s)
  else some s

/-- Close over every cleared entry from index `i` on.  The loop runs at most `nused - i` times. -/
def compact : Nat → Nat → MappingSequence → MappingSequence
  | 0, _, s => s
  | fuel + 1, i, s =>
    if i < s.nused then
      if (s.mappings i).begin = 0 then
        let m := memmove s.mappings i (i + 1) (s.nused - (i + 1))
        compact fuel i
          { s with mappings := Function.update m (s.nused - 1) {}, nused := s.nused - 1 }
      else compact fuel (i + 1) s
    else s

/-- Push the bounds that fall in the deleted span out of it. -/
def adjustBounds (addr length : Nat) (s : MappingSequence) : MappingSequence :=
  { s with
    begin := if s.begin ≥ addr ∧ s.begin < addr + length then addr + length else s.begin
    end_ := if s.end_ > addr ∧ s.end_ ≤ addr + length then addr else s.end_ }

/-- `delete_mapping_sequence_span`. -/
def deleteMappingSequenceSpan (s : MappingSequence) (addr length : Nat) :
    Option MappingSequence := do
  let s ← (List.range mappingSequenceMaxLen).foldlM (deleteSpanAt addr length) s
  return adjustBounds addr length (compact s.nused 0 s)

end MappingSequence

end Liballocs
