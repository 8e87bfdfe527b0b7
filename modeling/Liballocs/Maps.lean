/-
Start-up: what is mapped already (`src/allocators/mmap.c`).

`add_missing_mappings_from_proc` gathers the lines of `/proc/<pid>/maps` into a current sequence for as
long as `augment_sequence` takes them; a line that it refuses has the sequence registered, which
reconciles it with the bigallocs at its two ends.  Reading the file is librunt's; messages are left out.
-/
import Mathlib.Algebra.Group.Nat.Defs
import Liballocs.Mmap

namespace Liballocs

/-- What is looked at of librunt's `struct maps_entry`: `r`, `w`, `x` and `p` are the permission
characters, `rest` is the path field. -/
structure MapsEntry where
  first : Nat
  second : Nat
  r : Char
  w : Char
  x : Char
  p : Char
  offset : Nat
  rest : String
deriving DecidableEq, Repr

/-- `0 == strncmp(text, start, strlen(start))`. -/
def startsWith (text start : String) : Bool := start.toList.isPrefixOf text.toList

namespace MapsEntry

/-- The `filename` of `extend_current`, null being `some none`; `none` if the entry is unclassifiable.
-/
def filename (ent : MapsEntry) : Option (Option String) :=
  match ent.rest.toList with
  | [] => some none
  | '/' :: _ => some (some ent.rest)
  -- the name of the stack is kept, to identify the sequence later
  | '[' :: _ => some (if startsWith ent.rest "[stack" then some ent.rest else none)
  | _ => none

/-- The `prot` argument of `augment_sequence`. -/
def prot (ent : MapsEntry) : Nat :=
  (if ent.r = 'r' then protRead else 0) ||| (if ent.w = 'w' then protWrite else 0)
    ||| (if ent.x = 'x' then protExec else 0)

/-- The `flags` argument of `augment_sequence`. -/
def flags (ent : MapsEntry) (filename : Option String) : Nat :=
  (if ent.p = 'p' then mapPrivate else mapShared) ||| (if filename.isNone then mapAnonymous else 0)

/-- What `augment_sequence` is asked for. -/
def mapping (ent : MapsEntry) (filename : Option String) : Mapping where
  begin := ent.first
  end_ := ent.second
  prot := ent.prot
  flags := ent.flags filename
  offset := ent.offset
  filename := filename
  caller := 0

end MapsEntry

namespace MappingSequence

/-- `extend_current`. -/
def extendCurrent (objectBelow : Nat → Nat) (cur : MappingSequence) (ent : MapsEntry) :
    Option (Bool × MappingSequence) :=
  match ent.filename with
  | some filename => cur.augmentSequence objectBelow (ent.mapping filename)
  | none => some (false, cur)

/-! ### Comparing sequences -/

/-- `mapping_entries_equal`.  `mapping_entry_equal` compares all fields. -/
def mappingEntriesEqual (e1 e2 : Nat → MappingEntry) (n : Nat) : Bool :=
  (List.range n).all fun i => e1 i = e2 i

/-- `mapping_sequence_prefix`. -/
def mappingSequencePrefix (s1 s2 : MappingSequence) : Bool :=
  s1.nused ≤ s2.nused
    && (mappingEntriesEqual s1.mappings s2.mappings s1.nused
      -- allow a trailing anonymous mapping to be a shorter one
      || (mappingEntriesEqual s1.mappings s2.mappings (s1.nused - 1)
          && s1.nused == s2.nused
          && (s1.mappings (s1.nused - 1)).isAnon
          && (s2.mappings (s2.nused - 1)).isAnon
          && (s1.mappings (s1.nused - 1)).begin == (s2.mappings (s2.nused - 1)).begin
          && (s1.mappings (s1.nused - 1)).end_ ≤ (s2.mappings (s2.nused - 1)).end_))

/-- `mapping_sequence_suffix`. -/
def mappingSequenceSuffix (s1 s2 : MappingSequence) : Bool :=
  s1.nused ≤ s2.nused
    && mappingEntriesEqual (fun i => s2.mappings (s2.nused - s1.nused + i)) s1.mappings s1.nused

/-- `mem_range_suffix`. -/
def memRangeSuffix (s1 s2 : MappingSequence) : Bool := s1.end_ == s2.end_ && s1.begin > s2.begin

/-- Delete the entries of `existing` from the end of the sequence. -/
def withoutSuffix (s existing : MappingSequence) : MappingSequence :=
  { s with
    end_ := existing.begin
    nused := s.nused - existing.nused
    mappings := fun i =>
      if s.nused - existing.nused ≤ i ∧ i < s.nused then {} else s.mappings i }

end MappingSequence

namespace Table

variable (env : Env)

/-! ### Registering a sequence -/

/-- The label `go_ahead`. -/
def goAhead (t : Table) (s : MappingSequence) : Option Table := do
  let (b, t) ← t.addMappingSequenceBigallocCopyingSeq env s
  -- is this the stack sequence?
  match s.filename with
  | some filename => if startsWith filename "[stack" then env.auxvNotifyInitStack t b else some t
  | none => some t

/-- The label `report_problem`, with an existing sequence.  Without one it aborts. -/
def reportProblem (t : Table) (existing s : MappingSequence) : Option Table :=
  if env.executableDataSegmentStart ≠ 0 ∧ existing.begin ≤ env.executableDataSegmentStart
      ∧ env.executableDataSegmentStart < existing.end_ then none
  else do
    let t ← deleteAllBigallocsOverlappingRange env existing.end_
      ((existing.end_ - existing.begin) / pageSize + 1) t existing.begin
    t.goAhead env s

/-- The sequence begins where nothing is, and ends in the top-level bigalloc `parentEnd`. -/
def reconcileAtEnd (t : Table) (parentEnd : Nat) (s : MappingSequence) : Option Table := do
  let p := (t.bigAllocations parentEnd).allocatorPrivate
  let existing ← t.sequences p
  if existing.memRangeSuffix s then
    -- a "false sequence": its end existed before
    if existing.mappingSequenceSuffix s then t.goAhead env (s.withoutSuffix existing)
    else t.reportProblem env existing s
  else if s.nused = 1 ∧ existing.nused = 1 then
    -- the new mapping is bigger, so extend the existing
    let t ← t.preExtendBigalloc env parentEnd s.begin
    return t.setSequence p { existing.setMapping 0 (s.mappings 0) with begin := s.begin }
  else t.reportProblem env existing s

/-- The sequence begins in the top-level bigalloc `parentBegin`, and ends where nothing is. -/
def reconcileAtBegin (t : Table) (parentBegin : Nat) (s : MappingSequence) : Option Table := do
  let p := (t.bigAllocations parentBegin).allocatorPrivate
  if (← t.sequences p).mappingSequencePrefix s then
    let t ← t.extendBigalloc env parentBegin s.end_
    return t.setSequence p s
  else none

/-- The sequence begins and ends in the top-level bigalloc `parent`. -/
def reconcileWithin (t : Table) (parent : Nat) (s : MappingSequence) : Option Table := do
  let p := (t.bigAllocations parent).allocatorPrivate
  let existing ← t.sequences p
  if existing.mappingSequenceSuffix s && s.mappingSequenceSuffix existing then return t
  else if s.mappingSequencePrefix existing then
    if s.end_ = existing.end_ then return t.setSequence p s
    else (t.setSequence p s).truncateBigallocAtEnd env parent s.end_
  else t.reportProblem env existing s

/-- `add_mapping_sequence_bigalloc_if_absent`. -/
def addMappingSequenceBigallocIfAbsent (t : Table) (s : MappingSequence) : Option Table := do
  let parentBegin ← t.rootOf nbigallocs (t.pageindex (pagenum s.begin))
  let parentEnd ← t.rootOf nbigallocs (t.pageindex (pagenum (s.end_ - 1)))
  -- if we've strayed into the auxv, our work is done
  if parentBegin ≠ 0 ∧ parentBegin = parentEnd
      ∧ (t.bigAllocations parentBegin).allocatedBy = some .auxv then return t
  else if parentBegin = 0 ∧ parentEnd = 0 then t.goAhead env s
  else if parentBegin = 0 then t.reconcileAtEnd env parentEnd s
  else if parentEnd = 0 then t.reconcileAtBegin env parentBegin s
  else if parentBegin = parentEnd then t.reconcileWithin env parentBegin s
  -- we cover more than one mapping sequence
  else none

/-! ### Gathering lines -/

/-- Begin a new sequence with the entry, the current one being registered. -/
def flushCurrent (t : Table) (cur : MappingSequence) (ent : MapsEntry) :
    Option (Table × MappingSequence) := do
  let t ← t.addMappingSequenceBigallocIfAbsent env cur
  let (beganNew, cur) ← MappingSequence.extendCurrent env.objectBelow {} ent
  if beganNew then return (t, cur) else none

/-- Take the entry into the current sequence, or begin a new one with it. -/
def gather (t : Table) (cur : MappingSequence) (ent : MapsEntry) :
    Option (Table × MappingSequence) := do
  let (extended, cur) ← cur.extendCurrent env.objectBelow ent
  if extended then return (t, cur) else t.flushCurrent env cur ent

/-- `add_missing_cb` on the table and the current sequence; `endAddr` is the end of the executable. -/
def addMissingCb (endAddr : Nat) (st : Table × MappingSequence) (ent : MapsEntry) :
    Option (Table × MappingSequence) :=
  let size := ent.second - ent.first
  -- if this mapping looks like a memtable, we skip it
  if size > env.biggestSaneUserAlloc then some st
  -- don't add kernel pages: their addresses are negative as signed numbers
  else if size = 0 ∨ ent.first ≥ 2 ^ 63 then some st
  else if startsWith ent.rest "[heap" then
    -- the heap, of which only what is really bss of the executable is taken
    if ent.first < endAddr then st.1.gather env st.2 { ent with second := endAddr, rest := "" }
    else some st
  else st.1.gather env st.2 ent

/-- `add_missing_mappings_from_proc`, for the entries `ents`. -/
def addMissingMappingsFromProc (executableEndAddr : Nat) (ents : List MapsEntry) (t : Table) :
    Option Table := do
  let (t, current) ← ents.foldlM (addMissingCb env executableEndAddr) (t, {})
  if current.nused > 0 then t.addMappingSequenceBigallocIfAbsent env current else some t

end Table

end Liballocs
