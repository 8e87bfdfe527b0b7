/-
The bitmap of an arena stays within its words, or does not.

An insertion grows the bitmap to the end of the request and sets the bit of its start.  For a request
of no bytes at the first address of a word, the word is not there.  A query starts at the bit of its
address, which the bitmap need not reach.
-/
import Liballocs.Proofs.GenericMallocIndex
import Liballocs.GenericMallocQuery

namespace Liballocs

/-- The bytes that a word of the bitmap stands for. -/
def wordBytes : Nat := mallocAlign * bitmapWordNbits

theorem bitmapFindFirstSet1Geq_eq_some {bitmaps : Bits.Searches} {bitmap : Nat → Bool}
    {nwords start i : Nat} (h1 : start ≤ i) (h2 : i < nwords * bitmapWordNbits)
    (hi : bitmap i = true) (hno : ∀ j, start ≤ j → j < i → bitmap j = false) :
    bitmapFindFirstSet1Geq bitmaps bitmap nwords start = some i :=
  (bitmaps.firstGeq_eq_some_iff _ _ _ _).mpr ⟨hi, ⟨h1, h2⟩, hno⟩

namespace MallocIndex

open Table

variable {env : Env} {al : Allocator} {A p x : Nat} {c d : Chunk} {m m' m₀ : MallocIndex}
  {es : List Event} {info info' : ArenaBitmapInfo} {q : QueryEnv}

/-! ### What insertions and deletions do to the bitmap -/

theorem ensureHasBitmapTo_nwords (end_ : Nat) :
    (info.ensureHasBitmapTo end_).nwords
      = max info.nwords (sub64 (roundUp end_ wordBytes % 2 ^ 64) info.bitmapBaseAddr / wordBytes) := by
  unfold ArenaBitmapInfo.ensureHasBitmapTo wordBytes
  dsimp only
  split
  · rename_i h
    exact (Nat.max_eq_right h.le).symm
  · rename_i h
    exact (Nat.max_eq_left (Nat.le_of_not_lt h)).symm

/-- What an insertion that returned has done, but for the table and the bits. -/
structure Inserted (m : MallocIndex) (c : Chunk) (p : Nat) (m' : MallocIndex) : Prop where
  bit_lt : m.info.bitOf c.ptr < m'.info.nwords * bitmapWordNbits
  nwords : m'.info.nwords = (m.info.ensureHasBitmapTo (c.ptr + c.requested)).nwords
  base : m'.info.bitmapBaseAddr = m.info.bitmapBaseAddr
  biggest : m'.info.biggestUnpromotedObject = if c.promoted then m.info.biggestUnpromotedObject
    else max (callerUsableSizeForChunkAndUsableSize c.usable) m.info.biggestUnpromotedObject
  insert : p = insertForChunkAndCallerUsableSize c.ptr (callerUsableSizeForChunkAndUsableSize c.usable)
  stored : m'.inserts p = (m.inserts p).setAllocSite c.caller

theorem genericMallocIndexInsert_inserted
    (hrun : m.genericMallocIndexInsert env al c.ptr c.requested c.caller (fun _ => c.usable)
      = some (p, m')) : Inserted m c p m' := by
  obtain ⟨arena, t1, t2, hi⟩ := genericMallocIndexInsert_eq_some hrun
  refine ⟨hi.bit_lt, hi.nwords, hi.base, hi.unpromoted, hi.insert, ?_⟩
  rw [hi.inserts, Function.update_self]

theorem genericMallocIndexDelete_info (hrun : m.genericMallocIndexDelete env al p = some m') :
    m'.info.nwords = m.info.nwords ∧ m'.info.bitmapBaseAddr = m.info.bitmapBaseAddr
      ∧ m'.info.biggestUnpromotedObject = m.info.biggestUnpromotedObject := by
  obtain ⟨⟨b, t1⟩, -, hrun⟩ := of_bind hrun
  dsimp only at hrun
  split at hrun
  · obtain ⟨al', -, hrun⟩ := of_bind hrun
    obtain ⟨⟨_, t2⟩, -, hrun⟩ := of_bind hrun
    obtain rfl := Option.some.inj hrun
    exact ⟨rfl, rfl, rfl⟩
  · obtain ⟨⟨_, t2⟩, -, hrun⟩ := of_bind hrun
    obtain ⟨info', hbit, hrun⟩ := of_bind hrun
    obtain rfl := Option.some.inj hrun
    obtain ⟨rfl, -⟩ := Bitmap.writeBit_eq_some hbit
    exact ⟨rfl, rfl, rfl⟩

/-! ### Runs -/

/-- The base stays where it is, and the bits of the live chunks are in the bitmap. -/
structure Reaches (m₀ m : MallocIndex) (es : List Event) : Prop where
  base : m.info.bitmapBaseAddr = m₀.info.bitmapBaseAddr
  live : ∀ c ∈ live es, m.info.bitOf c.ptr < m.info.nwords * bitmapWordNbits

theorem Inserted.nwords_le (hi : Inserted m c p m') : m.info.nwords ≤ m'.info.nwords := by
  rw [hi.nwords, ensureHasBitmapTo_nwords]
  exact Nat.le_max_left _ _

theorem Reaches.insert (h : Reaches m₀ m es) (hi : Inserted m c p m') :
    Reaches m₀ m' (.insert c :: es) := by
  refine ⟨hi.base.trans h.base, fun d hd => ?_⟩
  rw [ArenaBitmapInfo.bitOf, hi.base]
  rcases hd with rfl | hd
  · exact hi.bit_lt
  · exact (h.live d hd).trans_le (Nat.mul_le_mul_right _ hi.nwords_le)

theorem Reaches.delete (h : Reaches m₀ m es)
    (hrun : m.genericMallocIndexDelete env al p = some m') : Reaches m₀ m' (.delete c :: es) := by
  obtain ⟨hnw, hbase, -⟩ := genericMallocIndexDelete_info hrun
  refine ⟨hbase.trans h.base, fun d hd => ?_⟩
  have hlt := h.live d hd.1
  rwa [ArenaBitmapInfo.bitOf, hbase, hnw]

theorem Runs.reaches (h : Runs env al A m₀ es m) : Reaches m₀ m es := by
  induction h with
  | start => exact ⟨rfl, fun c hc => absurd hc id⟩
  | insert _ _ _ hrun ih => exact ih.insert (genericMallocIndexInsert_inserted hrun)
  | delete _ _ hrun ih => exact ih.delete hrun

/-- The live chunks' bits are in the bitmap, which is no longer than the address space. -/
structure Covers (m₀ m : MallocIndex) (es : List Event) : Prop where
  base : m.info.bitmapBaseAddr = m₀.info.bitmapBaseAddr
  live : ∀ c ∈ live es, m.info.bitOf c.ptr < m.info.nwords * bitmapWordNbits
  nwords : m.info.nwords * wordBytes ≤ 2 ^ 64

theorem sub64_le {a b : Nat} (ha : a < 2 ^ 64) : sub64 a b ≤ 2 ^ 64 := by
  unfold sub64
  split <;> omega

section

variable (h : Runs env al A m₀ es m) (h0 : m₀.info.nwords = 0)

include h h0

theorem Runs.nwords_le : m.info.nwords * wordBytes ≤ 2 ^ 64 := by
  induction h with
  | start =>
    rw [h0]
    omega
  | @insert m m' es c p _ _ _ hrun ih =>
    rw [(genericMallocIndexInsert_inserted hrun).nwords, ensureHasBitmapTo_nwords]
    rcases max_choice m.info.nwords
      (sub64 (roundUp (c.ptr + c.requested) wordBytes % 2 ^ 64) m.info.bitmapBaseAddr / wordBytes)
      with hm | hm
    · rw [hm]
      exact ih
    · rw [hm]
      exact (Nat.div_mul_le_self _ _).trans (sub64_le (Nat.mod_lt _ (by decide)))
  | delete _ _ hrun ih =>
    rw [(genericMallocIndexDelete_info hrun).1]
    exact ih

theorem Runs.covers : Covers m₀ m es :=
  ⟨h.reaches.base, h.reaches.live, h.nwords_le h0⟩

end

/-! ### Accesses -/

theorem isSome_writeBit (i : Nat) (v : Bool) :
    (info.writeBit i v).isSome ↔ i < info.nwords * bitmapWordNbits := by
  unfold ArenaBitmapInfo.writeBit
  split <;> simp [*]

/-- The rounded end does not wrap around below the last word of the address space. -/
theorem sub64_roundUp {b end_ : Nat} (hb : b ≤ end_) (hend : end_ ≤ 2 ^ 64 - wordBytes) :
    sub64 (roundUp end_ wordBytes % 2 ^ 64) b = roundUp end_ wordBytes - b := by
  have hle : end_ ≤ roundUp end_ wordBytes ∧ roundUp end_ wordBytes < 2 ^ 64 := by
    simp only [roundUp, wordBytes, mallocAlign, bitmapWordNbits] at hend ⊢
    omega
  rw [Nat.mod_eq_of_lt hle.2, sub64, if_pos (hb.trans hle.1)]

/-- The bit of an aligned address is in the bitmap up to `size` bytes behind it, unless there are none
and the address is the first of a word. -/
theorem bitOf_lt_ensured_iff (size : Nat) (hb : wordBytes ∣ info.bitmapBaseAddr)
    (hle : info.bitmapBaseAddr ≤ p) (hend : p + size ≤ 2 ^ 64 - wordBytes) :
    info.bitOf p < (info.ensureHasBitmapTo (p + size)).nwords * bitmapWordNbits
      ↔ 0 < size ∨ ¬ wordBytes ∣ p ∨ info.bitOf p / bitmapWordNbits < info.nwords := by
  have hword : info.bitOf p < (info.ensureHasBitmapTo (p + size)).nwords * bitmapWordNbits
      ↔ info.bitOf p / bitmapWordNbits < info.nwords
        ∨ info.bitOf p / bitmapWordNbits < (roundUp (p + size) wordBytes - info.bitmapBaseAddr)
          / wordBytes := by
    rw [← Nat.div_lt_iff_lt_mul (by decide), ensureHasBitmapTo_nwords, lt_max_iff,
      sub64_roundUp (hle.trans (Nat.le_add_right p size)) hend]
  have hnew : info.bitOf p / bitmapWordNbits < (roundUp (p + size) wordBytes - info.bitmapBaseAddr)
      / wordBytes ↔ 0 < size ∨ ¬ wordBytes ∣ p := by
    obtain ⟨k, hk⟩ := hb
    simp only [ArenaBitmapInfo.bitOf, roundUp, wordBytes, mallocAlign, bitmapWordNbits] at hk hle ⊢
    omega
  rw [hword, hnew]
  constructor
  · rintro (h | h | h)
    · exact .inr (.inr h)
    · exact .inl h
    · exact .inr (.inl h)
  · rintro (h | h | h)
    · exact .inr (.inl h)
    · exact .inr (.inr h)
    · exact .inl h

theorem isSome_bitmapRfindFirstSetLeq (hidden i : Nat) :
    (info.bitmapRfindFirstSetLeq q hidden i).isSome
      ↔ q.rfindClamps = true ∨ i < (info.nwords - hidden) * bitmapWordNbits := by
  unfold ArenaBitmapInfo.bitmapRfindFirstSetLeq
  dsimp only
  split
  · simp [*]
  · split <;> simp_all

theorem nbitsHidden_eq (info : ArenaBitmapInfo) (q : QueryEnv) (mem : Nat) :
    ∃ k, info.nbitsHidden q mem = k * bitmapWordNbits := by
  unfold ArenaBitmapInfo.nbitsHidden
  dsimp only
  split
  · split
    · exact ⟨_, Nat.mul_comm _ _⟩
    · exact ⟨0, by simp⟩
  · exact ⟨0, by simp⟩

/-- What a lookup answers that has found the bit `i`. -/
def objectAt (info : ArenaBitmapInfo) (sizefn : Nat → Nat) (i : Nat) : Nat × Nat × Nat :=
  let start := info.bitmapBaseAddr + mallocAlign * i
  (insertForChunk start sizefn, start, usersize start sizefn)

theorem lookupObjectInfoViaBitmap_eq (sizefn : Nat → Nat) :
    info.lookupObjectInfoViaBitmap q x sizefn
      = (info.bitmapRfindFirstSetLeq q (info.nbitsHidden q x / bitmapWordNbits)
          (sub64 (info.startIdx x) (info.nbitsHidden q x))).map
        fun found => found.map fun i => objectAt info sizefn (i + info.nbitsHidden q x) := by
  rw [Option.map_eq_bind]
  rfl

/-- A lookup stays within the bitmap exactly when it begins in it, at or above the hidden part. -/
theorem isSome_lookup_iff (sizefn : Nat → Nat) (hnw : info.nwords * wordBytes ≤ 2 ^ 64) :
    (info.lookupObjectInfoViaBitmap q x sizefn).isSome ↔ q.rfindClamps = true
      ∨ (info.nbitsHidden q x ≤ info.startIdx x
        ∧ info.startIdx x / bitmapWordNbits < info.nwords) := by
  obtain ⟨k, hk⟩ := nbitsHidden_eq info q x
  rw [lookupObjectInfoViaBitmap_eq, Option.isSome_map, isSome_bitmapRfindFirstSetLeq, hk,
    Nat.mul_div_cancel _ (by decide)]
  refine or_congr_right ?_
  simp only [wordBytes, mallocAlign, bitmapWordNbits] at hnw ⊢
  rw [sub64]
  by_cases hle : k * 64 ≤ info.startIdx x
  · rw [if_pos hle]
    omega
  · rw [if_neg hle]
    omega

/-! ### The result -/

/-- The access of `__generic_malloc_index_insert` to the bitmap is in bounds. -/
def InsertInBounds (info : ArenaBitmapInfo) (c : Chunk) : Prop :=
  let info := info.ensureHasBitmapTo ((c.ptr + c.requested) % 2 ^ 64)
  (info.writeBit (info.bitOf c.ptr) true).isSome

instance (info : ArenaBitmapInfo) (c : Chunk) : Decidable (InsertInBounds info c) :=
  inferInstanceAs (Decidable (_ = true))

/-- The access of `__generic_malloc_index_delete` to the bitmap is in bounds. -/
def DeleteInBounds (info : ArenaBitmapInfo) (c : Chunk) : Prop :=
  (info.writeBit (info.bitOf c.ptr) false).isSome

/-- **Which accesses to the bitmap are in bounds** after any run of insertions and deletions:
insertions of at least one byte, or not at the first address of a word, or in a word that is there;
all deletions; and lookups that begin in a word that is there. -/
theorem bitmap_in_bounds_iff (env : Env) (al : Allocator) (A : Nat) (m₀ m : MallocIndex)
    (es : List Event) (q : QueryEnv) (h₀ : Start al A m₀) (hrun : Runs env al A m₀ es m) :
    (∀ c : Chunk, (m₀.table.bigAllocations A).begin ≤ c.ptr →
      c.ptr + c.requested ≤ (m₀.table.bigAllocations A).end_ → (InsertInBounds m.info c
        ↔ 0 < c.requested ∨ ¬ wordBytes ∣ c.ptr
          ∨ m.info.bitOf c.ptr / bitmapWordNbits < m.info.nwords))
    ∧ (∀ c ∈ live es, DeleteInBounds m.info c)
    ∧ ∀ x sizefn, (m₀.table.bigAllocations A).begin ≤ x →
      ((m.info.lookupObjectInfoViaBitmap q x sizefn).isSome ↔ q.rfindClamps = true
        ∨ (m.info.nbitsHidden q x ≤ m.info.startIdx x
          ∧ m.info.startIdx x / bitmapWordNbits < m.info.nwords)) := by
  have hcov := hrun.covers (by rw [h₀.info]; rfl)
  have hbase : m.info.bitmapBaseAddr = (m₀.table A).begin / wordBytes * wordBytes := by
    rw [hcov.base, h₀.info]
    rfl
  refine ⟨fun c hc hend => ?_, fun c hc => ?_, fun x sizefn _ => isSome_lookup_iff sizefn hcov.nwords⟩
  · unfold InsertInBounds
    rw [ensureHasBitmapTo_mod, isSome_writeBit, ArenaBitmapInfo.bitOf, ensureHasBitmapTo_base]
    refine bitOf_lt_ensured_iff c.requested (hbase ▸ Nat.dvd_mul_left _ _) ?_
      (hend.trans h₀.arena.end_le)
    rw [hbase]
    exact (Nat.div_mul_le_self _ _).trans hc
  · exact (isSome_writeBit _ _).mpr (hcov.live c hc)

/-- A chunk of no bytes at the beginning of the arena. -/
def sampleEmpty : Chunk := { sampleSmall with requested := 0 }

theorem bitmap_in_bounds_sample : ∃ m,
    Runs sampleEnv .genericMalloc 1 sampleArena sampleEvents m
      ∧ InsertInBounds m.info sampleNext ∧ DeleteInBounds m.info sampleSmall
      ∧ DeleteInBounds m.info sampleHigh
      ∧ (m.info.lookupObjectInfoViaBitmap {} 1048600 fun _ => 120).isSome := by
  obtain ⟨m, hrun, hlook⟩ := exists_runs (P := fun m => m.info.nbitsHidden {} 1048600
    ≤ m.info.startIdx 1048600 ∧ m.info.startIdx 1048600 / bitmapWordNbits < m.info.nwords)
    sampleEvents_fits (by decide +kernel)
  obtain ⟨h1, h2, h3⟩ := bitmap_in_bounds_iff sampleEnv .genericMalloc 1 sampleArena m _ {}
    sampleArena_start hrun
  refine ⟨m, hrun, (h1 _ ?_ ?_).mpr (.inl (by decide)),
    h2 _ (mem_sampleEvents.mpr (.inr rfl)), h2 _ (mem_sampleEvents.mpr (.inl rfl)),
    (h3 1048600 _ ?_).mpr (.inr hlook)⟩
  · rw [sampleArena_begin]
    decide
  · rw [sampleArena_end]
    decide
  · rw [sampleArena_begin]
    decide

/-- A chunk of no bytes at the beginning of the arena does not get in; with one small chunk there, a
lookup two pages further up leaves the bitmap. -/
theorem bitmap_out_of_bounds : Start .genericMalloc 1 sampleArena
    ∧ Fits sampleArena.table .genericMalloc 1 sampleEmpty
    ∧ ¬ InsertInBounds sampleArena.info sampleEmpty
    ∧ sampleArena.genericMallocIndexInsert sampleEnv .genericMalloc 1048576 0 4198400 (fun _ => 120)
      = none
    ∧ ∃ m, Runs sampleEnv .genericMalloc 1 sampleArena [.insert sampleSmall] m
      ∧ 1056768 ∈ m.table.addrs 1
      ∧ (m.info.lookupObjectInfoViaBitmap {} 1056768 fun _ => 120) = none := by
  refine ⟨sampleArena_start, sampleArena_started.2 _ (by decide), by decide, ?_, ?_⟩
  · have heval : (sampleArena.genericMallocIndexInsert sampleEnv .genericMalloc 1048576 0 4198400
        fun _ => 120).isNone := by
      decide +kernel
    exact Option.isNone_iff_eq_none.mp heval
  · simp only [addrs, Set.mem_ofPred_eq]
    exact exists_runs (by decide) (by decide +kernel)

end MallocIndex

end Liballocs
