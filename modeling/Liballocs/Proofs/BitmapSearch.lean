/-
The search in the bitmap of an arena.

A lookup goes down from the bit of an address, not further than the biggest chunk that was not
promoted.  Two computations can go wrong: the bit number has 32 bits, and the lower end wraps around
for the lowest addresses.  What is found is never compared with the address.
-/
import Liballocs.Proofs.GenericMallocQuery

namespace Liballocs.MallocIndex

open Forest

open Table

variable {env : Env} {al : Allocator} {A p x ins b : Nat} {c d : Chunk} {m m' m₀ : MallocIndex}
  {es : List Event} {info : ArenaBitmapInfo} {q : QueryEnv} {sizefn : Nat → Nat}

/-! ### The live chunks and the bound -/

/-- What holds of the live chunks, and that the bound is good for the unpromoted ones. -/
structure Bounds (m : MallocIndex) (es : List Event) : Prop extends Biggest m es where
  aligned : ∀ c ∈ live es, mallocAlign ∣ c.ptr
  size : ∀ c ∈ live es, sizeofInsert ≤ c.usable
  apart : (live es).Pairwise Chunk.Apart

theorem Bounds.insert (h : Bounds m es) (h16 : mallocAlign ∣ c.ptr) (hsize : sizeofInsert ≤ c.usable)
    (hapart : ∀ d ∈ live es, c.Apart d) (hi : Inserted m c p m') : Bounds m' (.insert c :: es) := by
  refine ⟨h.toBiggest.insert hsize hi, ?_, ?_,
    Set.Pairwise.insert h.apart fun d hd _ => ⟨hapart d hd, (hapart d hd).symm⟩⟩
  · rintro d (rfl | hd)
    · exact h16
    · exact h.aligned d hd
  · rintro d (rfl | hd)
    · exact hsize
    · exact h.size d hd

theorem Bounds.delete (h : Bounds m es) (hrun : m.genericMallocIndexDelete env al p = some m') :
    Bounds m' (.delete c :: es) :=
  ⟨h.toBiggest.delete hrun, fun d hd => h.aligned d hd.1, fun d hd => h.size d hd.1,
    h.apart.mono Set.sdiff_subset⟩

theorem Runs.bounds (h : Runs env al A m₀ es m) (h0 : m₀.info.biggestUnpromotedObject = 0) :
    Bounds m es := by
  induction h with
  | start =>
    refine ⟨⟨fun c hc => absurd hc id, ?_⟩, fun c hc => absurd hc id, fun c hc => absurd hc id,
      Set.pairwise_empty _⟩
    rw [h0]
    decide
  | insert _ hfits hapart hrun ih =>
    exact ih.insert hfits.aligned (Nat.le_of_add_left_le hfits.size) hapart
      (genericMallocIndexInsert_inserted hrun)
  | delete _ _ hrun ih => exact ih.delete hrun

theorem mem_of_live : ∀ {es : List Event}, c ∈ live es → Event.insert c ∈ es
  | .insert d :: es, h => by
    rcases h with rfl | h
    · exact (.head _)
    · exact .tail _ (mem_of_live h)
  | .delete d :: es, h => .tail _ (mem_of_live h.1)

/-! ### The search from an address of a chunk -/

/-- The bits that are set are just those of the chunks. -/
def ExactBits (info : ArenaBitmapInfo) (chunks : Set Chunk) : Prop :=
  ∀ i, info.bitmap i = true ↔ ∃ c ∈ chunks, c.ptr = info.bitmapBaseAddr + mallocAlign * i

theorem Bounds.lastSet_eq (h : Bounds m es) (hex : ExactBits m.info (live es)) (hc : c ∈ live es)
    (hbit : m.info.bitmapBaseAddr + mallocAlign * m.info.bitOf c.ptr = c.ptr) (h1 : c.ptr ≤ x)
    (h2 : x < c.ptr + c.usable) :
    Bits.lastSet m.info.bitmap (m.info.bitOf x) = some (m.info.bitOf c.ptr) := by
  refine Bits.lastSet_eq_some_iff.mpr ⟨bitOf_mono h1, (hex _).mpr ⟨c, hc, hbit.symm⟩, fun i hi hix => ?_⟩
  by_contra hset
  obtain ⟨d, hd, hdp⟩ := (hex i).mp (Bool.of_not_eq_false hset)
  simp only [ArenaBitmapInfo.bitOf, mallocAlign] at *
  have hne : c ≠ d := by
    rintro rfl
    omega
  rcases h.apart hc hd hne with hap | hap <;> omega

/-- A lookup of the address finds what starts there, in debug and other builds, whatever the sizes
are. -/
def FindsStart (info : ArenaBitmapInfo) (x start : Nat) : Prop :=
  ∀ (q : QueryEnv) (sizefn : Nat → Nat), q.rfindClamps = true →
    ∃ ins size, info.lookupObjectInfoViaBitmap q x sizefn = some (some (ins, start, size))

/-- A successful lookup has found a visible bit, at or below the one it started from. -/
theorem lookup_eq_some {start size : Nat}
    (h : info.lookupObjectInfoViaBitmap q x sizefn = some (some (ins, start, size))) :
    ∃ i, i ≤ sub64 (info.startIdx x) (info.nbitsHidden q x)
      ∧ start = info.bitmapBaseAddr + mallocAlign * (i + info.nbitsHidden q x) := by
  rw [lookupObjectInfoViaBitmap_eq, Option.map_eq_some_iff] at h
  obtain ⟨found, hfound, hmap⟩ := h
  obtain ⟨i, hi, hobj⟩ := Option.map_eq_some_iff.mp hmap
  rw [hi] at hfound
  refine ⟨i, ?_, (congrArg (fun o => o.2.1) hobj).symm⟩
  simp only [ArenaBitmapInfo.bitmapRfindFirstSetLeq, Bits.Searches.lastLeq_eq] at hfound
  split at hfound
  · exact (Bits.lastSet_eq_some_iff.mp (Option.some.inj hfound)).1
  · split at hfound
    · split at hfound
      · cases hfound
      · have hle := (Bits.lastSet_eq_some_iff.mp (Option.some.inj hfound)).1
        omega
    · cases hfound

theorem FindsStart.bitOf_lt (h : FindsStart info x p) (hnear : x < p + 131072) :
    info.bitOf x < 2 ^ 32 := by
  obtain ⟨ins, size, hlook⟩ := h { ndebug := false, rfindClamps := true } (fun _ => 0) rfl
  obtain ⟨i, hi, hp⟩ := lookup_eq_some hlook
  have hhid : info.nbitsHidden { ndebug := false, rfindClamps := true } x = 0 := rfl
  rw [hhid, sub64, if_pos (Nat.zero_le _), ArenaBitmapInfo.startIdx] at hi
  simp only [ArenaBitmapInfo.bitOf, mallocAlign] at hi hp ⊢
  omega

theorem FindsStart.biggest_le (h : FindsStart info x p) (hb : wordBytes ∣ info.bitmapBaseAddr)
    (hpx : p ≤ x) (hbounded : info.biggestUnpromotedObject ≤ 131072) :
    info.biggestUnpromotedObject ≤ x := by
  by_contra hlt
  obtain ⟨ins, size, hlook⟩ := h { ndebug := true, rfindClamps := true } (fun _ => 0) rfl
  obtain ⟨i, -, hp⟩ := lookup_eq_some hlook
  have hhid : x < info.bitmapBaseAddr
      + mallocAlign * info.nbitsHidden { ndebug := true, rfindClamps := true } x := by
    unfold ArenaBitmapInfo.nbitsHidden
    dsimp only
    obtain ⟨k, hk⟩ := hb
    rw [if_pos rfl, sub64, if_neg hlt]
    split
    · simp only [roundDown, wordBytes, mallocAlign, bitmapWordNbits] at hk ⊢
      omega
    · rename_i hfake
      simp only [roundDown, wordBytes, mallocAlign, bitmapWordNbits] at hk hfake
      omega
  simp only [mallocAlign] at hp hhid
  omega

theorem Runs.base_eq (h : Runs env al A m₀ es m) (h0 : Start al A m₀) :
    m.info.bitmapBaseAddr = (m₀.table A).begin / wordBytes * wordBytes := by
  rw [h.reaches.base, h0.info]
  rfl

section

variable (hexact : ExactBits m.info (live es)) (hc : c ∈ live es) (hp : ¬ c.promoted) (h1 : c.ptr ≤ x)
  (h2 : x < c.ptr + callerUsableSizeForChunkAndUsableSize c.usable)

include hexact hc hp h1 h2

theorem Bounds.findsStart (h : Bounds m es) (hcov : Reaches m₀ m es)
    (hb : wordBytes ∣ m.info.bitmapBaseAddr)
    (hbase : ∀ d ∈ live es, m.info.bitmapBaseAddr ≤ d.ptr) (h32 : m.info.bitOf x < 2 ^ 32)
    (hbig : m.info.biggestUnpromotedObject ≤ x) :
    FindsStart m.info x c.ptr := by
  intro q sizefn hclamps
  have hptr := fun d hd => Bitmap.base_add_bitOf hb (h.aligned d hd) (hbase d hd)
  have hbiggest := h.biggest c hc hp
  rw [callerUsableSize_eq (h.size c hc)] at h2
  have hcovered : ∀ i, m.info.bitmap i = true → i < m.info.nwords * bitmapWordNbits := by
    intro i hi
    obtain ⟨d, hd, hdp⟩ := (hexact i).mp hi
    obtain rfl := (Bitmap.eq_bitOf_iff hb (h.aligned d hd) (hbase d hd)).mp hdp
    exact hcov.live d hd
  have hhid : m.info.nbitsHidden q x ≤ m.info.bitOf c.ptr :=
    nbitsHidden_le hb hbig (hbase c hc) (by omega)
  have hlook := lookup_eq_of_lastSet sizefn (hptr c hc)
    (h.lastSet_eq hexact hc (hptr c hc) h1 (by omega))
    (lookup_eq_lastSet sizefn h32 hcovered (.inl hclamps) (hhid.trans (bitOf_mono h1)))
  rw [if_pos hhid] at hlook
  exact ⟨_, _, hlook⟩

variable (hrun : Runs env al A m₀ es m) (h0 : Start al A m₀)

include hrun h0

theorem Runs.findsStart (hin : ∀ d, Event.insert d ∈ es → (m₀.table A).begin ≤ d.ptr)
    (h32 : m.info.bitOf x < 2 ^ 32) (hbig : m.info.biggestUnpromotedObject ≤ x) :
    FindsStart m.info x c.ptr := by
  refine (hrun.bounds (by rw [h0.info]; rfl)).findsStart hexact hc hp h1 h2 hrun.reaches
    (hrun.base_eq h0 ▸ Nat.dvd_mul_left _ _) ?_ h32 hbig
  intro d hd
  rw [hrun.base_eq h0]
  exact (Nat.div_mul_le_self _ _).trans (hin d (mem_of_live hd))

end

/-- **Both searches find an unpromoted chunk from exactly those of its addresses whose bit number fits
into 32 bits and that are no less than the biggest size.** -/
theorem findsStart_iff (env : Env) (al : Allocator) (A : Nat) (m₀ m : MallocIndex) (es : List Event)
    (c : Chunk) (x : Nat) (h₀ : Start al A m₀) (hrun : Runs env al A m₀ es m)
    (hin : ∀ d, Event.insert d ∈ es → (m₀.table.bigAllocations A).begin ≤ d.ptr)
    (hexact : ExactBits m.info (live es)) (hc : c ∈ live es) (hp : ¬ c.promoted)
    (hx : c.ptr ≤ x ∧ x < c.ptr + callerUsableSizeForChunkAndUsableSize c.usable) :
    FindsStart m.info x c.ptr
      ↔ m.info.bitOf x < 2 ^ 32 ∧ m.info.biggestUnpromotedObject ≤ x := by
  constructor
  · intro hfinds
    have h := hrun.bounds (by rw [h₀.info]; rfl)
    have hle := usable_le_of_not_promoted hp
    have hx2 := hx.2
    rw [callerUsableSize_eq (h.size c hc)] at hx2
    exact ⟨hfinds.bitOf_lt (by omega),
      hfinds.biggest_le (hrun.base_eq h₀ ▸ Nat.dvd_mul_left _ _) hx.1
        (Nat.le_of_add_right_le h.bounded)⟩
  · intro ⟨h32, hbig⟩
    exact hrun.findsStart hexact hc hp hx.1 hx.2 h₀ hin h32 hbig

theorem Indexed.exactBits (h : Indexed al A m es) (hst : stale es = ∅) :
    ExactBits m.info (live es) := by
  intro i
  rw [h.bits i, hst]
  simp

theorem findsStart_sample : ∃ m,
    Runs sampleEnv .genericMalloc 1 sampleArena sampleEvents m
      ∧ FindsStart m.info 1048600 1048576 := by
  obtain ⟨m, hrun, hfinds⟩ := exists_runs (P := fun m => m.info.bitOf 1048600 < 2 ^ 32
    ∧ m.info.biggestUnpromotedObject ≤ 1048600) sampleEvents_fits (by decide +kernel)
  have h := hrun.indexed sampleArena_start sampleEvents_requested
  refine ⟨m, hrun, (findsStart_iff sampleEnv .genericMalloc 1 sampleArena m _ sampleSmall 1048600
    sampleArena_start hrun ?_ (h.exactBits sampleEvents_stale) (mem_sampleEvents.mpr (.inr rfl))
    (by decide) (by decide)).mpr hfinds⟩
  intro d hd
  rw [sampleArena_begin]
  simp only [sampleEvents, List.mem_cons, reduceCtorEq, Event.insert.injEq, false_or,
    List.not_mem_nil, or_false] at hd
  rcases hd with rfl | rfl | rfl <;> decide

/-- An arena in the lowest addresses, and a chunk of 100,000 bytes at its beginning. -/
def lowRequest : NewRequest := { ptr := 65536, size := 131072, allocatedBy := some .mmap }

/-- A chunk that is larger than its own address. -/
def lowChunk : Chunk := { ptr := 65536, requested := 100000, usable := 100008, caller := 0 }

theorem lowArena_started : Start .genericMalloc 1 (arenaOf lowRequest)
    ∧ Fits (arenaOf lowRequest).table .genericMalloc 1 lowChunk := by
  obtain ⟨hstart, hfits⟩ := arenaOf_start (r := lowRequest) (by decide) (by decide +kernel)
  exact ⟨hstart, hfits _ (by decide)⟩

/-- The bounded search misses the chunk from its first address, which is below its size. -/
theorem lookup_misses_start : ∃ m, Start .genericMalloc 1 (arenaOf lowRequest)
    ∧ Runs sampleEnv .genericMalloc 1 (arenaOf lowRequest) [.insert lowChunk] m
    ∧ ExactBits m.info (live [.insert lowChunk]) ∧ ¬ lowChunk.promoted
    ∧ m.info.lookupObjectInfoViaBitmap { rfindClamps := true } 65536 (fun _ => 100008)
      = some none := by
  obtain ⟨p, m, hm, hx⟩ : ∃ p m, (arenaOf lowRequest).genericMallocIndexInsert sampleEnv
      .genericMalloc lowChunk.ptr lowChunk.requested lowChunk.caller (fun _ => lowChunk.usable)
      = some (p, m) ∧ m.info.lookupObjectInfoViaBitmap { rfindClamps := true } 65536 (fun _ => 100008)
        = some none := by decide +kernel
  obtain ⟨hstart, hfits⟩ := lowArena_started
  have hrun : Runs sampleEnv .genericMalloc 1 (arenaOf lowRequest) [.insert lowChunk] m :=
    .insert .start hfits (fun d hd => absurd hd id) hm
  have h := hrun.indexed hstart fun c hc => by
    obtain rfl : c = lowChunk := by simpa using hc
    decide
  exact ⟨m, hstart, hrun, h.exactBits (by simp [stale]), by decide, hx⟩

/-! ### The search from any address -/

/-- Nothing that the search could come upon begins at or below the address. -/
def NothingBelow (q : QueryEnv) (m : MallocIndex) (es : List Event) (x : Nat) : Prop :=
  ∀ p, Begins es p → p ≤ x → m.info.bitOf p < m.info.nbitsHidden q x

/-- The object that the search comes upon. -/
structure Nearest (q : QueryEnv) (m : MallocIndex) (es : List Event) (x p : Nat) : Prop where
  begins : Begins es p
  le : p ≤ x
  last : ∀ p', Begins es p' → p' ≤ x → p' ≤ p
  visible : m.info.nbitsHidden q x ≤ m.info.bitOf p

/-- A query from an address of the arena that is in nothing under it finds nothing, or the nearest
object below. -/
theorem Indexed.getInfoLocate_cases (env : Env) (h : Indexed al A m es) (hx : x ∈ m.table.addrs A)
    (h32 : m.info.bitOf x < 2 ^ 32)
    (hin : q.rfindClamps = true ∨ m.info.bitOf x < m.info.nwords * bitmapWordNbits)
    (hhid : m.info.nbitsHidden q x ≤ m.info.bitOf x) :
    (NothingBelow q m es x ∧ ∀ sizefn, m.getInfoLocate env al q sizefn x A = some (none, m))
      ∨ ∃ p, Nearest q m es x p ∧ ∀ sizefn, m.getInfoLocate env al q sizefn x A
        = some (some (insertForChunk p sizefn, p,
          callerUsableSizeForChunkAndUsableSize (usersize p sizefn)), m) := by
  have hlook := fun sizefn => lookup_eq_lastSet (q := q) sizefn h32 h.covered hin hhid
  rcases h.lastSet_cases (h.base_le.trans hx.1) with ⟨hj, hno⟩ | ⟨p, hp, hlast⟩
  · refine .inl ⟨fun p hp hpx => absurd hpx (hno p hp), fun sizefn => ?_⟩
    rw [h.getInfoLocate_arena hx, hlook, hj]
    rfl
  · have hfound := fun sizefn =>
      lookup_eq_of_lastSet sizefn (h.base_add_bitOf_begins hp.begins) hlast (hlook sizefn)
    by_cases hvis : m.info.nbitsHidden q x ≤ m.info.bitOf p
    · refine .inr ⟨p, ⟨hp.begins, hp.le, hp.last, hvis⟩, fun sizefn => ?_⟩
      rw [h.getInfoLocate_arena hx, hfound, if_pos hvis]
      rfl
    · refine .inl ⟨fun p' hp' hpx => ?_, fun sizefn => ?_⟩
      · exact (bitOf_mono (hp.last p' hp' hpx)).trans_lt (Nat.lt_of_not_le hvis)
      · rw [h.getInfoLocate_arena hx, hfound, if_neg hvis]
        rfl

theorem Nearest.toLastBegin (hn : Nearest q m es x p) : LastBegin es x p := ⟨hn.begins, hn.le, hn.last⟩

/-! ### Queries from addresses in no chunk -/

/-- A query that answers describes an object that holds the address; from an address in no live chunk
it says that nothing is there. -/
def AnswersWithin (env : Env) (al : Allocator) (q : QueryEnv) (m : MallocIndex) (es : List Event)
    (x b : Nat) : Prop :=
  ∀ sizefn : Nat → Nat, (∀ d ∈ live es, sizefn d.ptr = d.usable) → ∀ typeOrSite, ∃ o m',
    m.genericMallocGetInfo env al q sizefn x b typeOrSite = some (o, m')
      ∧ (o.err = some .unindexedHeapObject ∨ (o.outBase ≤ x ∧ x < o.outBase + o.outSize))
      ∧ ((∀ c ∈ live es, ¬ (c.ptr ≤ x ∧ x < c.ptr + c.usable)) →
        o.err = some .unindexedHeapObject)

theorem extract_err_ne (q : QueryEnv) (ins : Insert) :
    (extractAndOutputAllocSiteAndType q ins).err ≠ some .unindexedHeapObject := by
  unfold extractAndOutputAllocSiteAndType
  dsimp only
  split
  · split <;> simp
  · split <;> simp

theorem genericMallocGetInfo_err_ne {base size : Nat} {typeOrSite : Bool} {o : ObjectInfo}
    {m'' : MallocIndex}
    (hloc : m.getInfoLocate env al q sizefn x b = some (some (ins, base, size), m'))
    (hrun : m.genericMallocGetInfo env al q sizefn x b typeOrSite = some (o, m'')) :
    o.err ≠ some .unindexedHeapObject := by
  unfold genericMallocGetInfo at hrun
  rw [hloc] at hrun
  cases typeOrSite with
  | false =>
    obtain ⟨rfl, -⟩ := Prod.mk.inj (Option.some.inj hrun)
    simp
  | true =>
    obtain ⟨rfl, -⟩ := Prod.mk.inj (Option.some.inj hrun)
    exact extract_err_ne q _

theorem answersWithin_of_none
    (hloc : ∀ sizefn, m.getInfoLocate env al q sizefn x b = some (none, m)) :
    AnswersWithin env al q m es x b := by
  intro sizefn _ typeOrSite
  refine ⟨{ err := some .unindexedHeapObject }, m, ?_, .inl rfl, fun _ => rfl⟩
  unfold genericMallocGetInfo
  rw [hloc]
  rfl

theorem answersWithin_iff_of_some {p : Nat} {ins size : (Nat → Nat) → Nat}
    (hloc : ∀ sizefn, m.getInfoLocate env al q sizefn x b
      = some (some (ins sizefn, p, size sizefn), m)) :
    AnswersWithin env al q m es x b ↔ ∀ sizefn : Nat → Nat,
      (∀ d ∈ live es, sizefn d.ptr = d.usable) →
        (p ≤ x ∧ x < p + size sizefn) ∧ ∃ c ∈ live es, c.ptr ≤ x ∧ x < c.ptr + c.usable := by
  constructor
  · intro h sizefn hsizefn
    obtain ⟨o, m', hrun, hin, hout⟩ := h sizefn hsizefn false
    have hne := genericMallocGetInfo_err_ne (hloc sizefn) hrun
    obtain ⟨o', m'', hrun', hbase, hsize⟩ := genericMallocGetInfo_located (hloc sizefn) false
    obtain rfl : o = o' := congrArg Prod.fst (Option.mem_unique hrun hrun')
    rw [← hbase, ← hsize]
    refine ⟨hin.resolve_left hne, ?_⟩
    by_contra hno
    push Not at hno
    exact hne (hout fun c hc hx => (hno c hc hx.1).not_gt hx.2)
  · intro h sizefn hsizefn typeOrSite
    obtain ⟨o, m', hrun, hbase, hsize⟩ := genericMallocGetInfo_located (hloc sizefn) typeOrSite
    obtain ⟨hin, c, hc, hx⟩ := h sizefn hsizefn
    exact ⟨o, m', hrun, .inr (by rw [hbase, hsize]; exact hin), fun hno => absurd hx (hno c hc)⟩

/-- The address is in a live chunk that the search comes upon, and in the size reported, from which an
insert has been taken off twice. -/
structure FoundIn (q : QueryEnv) (m : MallocIndex) (es : List Event) (x : Nat) (c : Chunk) : Prop where
  live : c ∈ live es
  le : c.ptr ≤ x
  lt_usable : x < c.ptr + c.usable
  lt_size : x < c.ptr
    + callerUsableSizeForChunkAndUsableSize (callerUsableSizeForChunkAndUsableSize c.usable)
  noStale : NoStale es c x
  visible : m.info.nbitsHidden q x ≤ m.info.bitOf c.ptr

/-- With a size function that is right, a query from a stale bit comes out empty. -/
theorem Indexed.exists_sizefn_empty (h : Indexed al A m es) (hst : p ∈ stale es) :
    ∃ sizefn : Nat → Nat, (∀ d ∈ live es, sizefn d.ptr = d.usable)
      ∧ callerUsableSizeForChunkAndUsableSize (usersize p sizefn) = 0 := by
  obtain ⟨sizefn, hlive, helse⟩ := h.exists_sizefn 16
  refine ⟨sizefn, hlive, ?_⟩
  rw [usersize, helse p fun d hd => (h.stale_ptr p hst).2.2 d hd]
  rfl

theorem Nearest.answers_iff (hn : Nearest q m es x p) (h : Indexed al A m es)
    (hloc : ∀ sizefn, m.getInfoLocate env al q sizefn x A = some (some (insertForChunk p sizefn, p,
          callerUsableSizeForChunkAndUsableSize (usersize p sizefn)), m)) :
    AnswersWithin env al q m es x A ↔ ∃ c, FoundIn q m es x c := by
  rw [answersWithin_iff_of_some hloc]
  constructor
  · intro hall
    have hstale : p ∉ stale es := by
      intro hst
      obtain ⟨sizefn, hlive, hzero⟩ := h.exists_sizefn_empty hst
      obtain ⟨⟨hle, hlt⟩, -⟩ := hall sizefn hlive
      omega
    obtain ⟨sizefn, hlive, -⟩ := h.exists_sizefn 16
    obtain ⟨⟨hle, hlt⟩, c, hc, hx1, hx2⟩ := hall sizefn hlive
    obtain ⟨rfl, hno⟩ := (hn.toLastBegin.eq_ptr h hc hx1 hx2).resolve_right fun hst => hstale hst.1
    rw [usersize, hlive c hc] at hlt
    exact ⟨c, hc, hx1, hx2, hlt, hno, hn.visible⟩
  · intro hfound sizefn hlive
    obtain ⟨c, hf⟩ := hfound
    obtain ⟨hptr, -⟩ := (hn.toLastBegin.eq_ptr h hf.live hf.le hf.lt_usable).resolve_right
      fun hst => hf.noStale p hst.1 hst.2
    refine ⟨⟨hn.le, ?_⟩, c, hf.live, hf.le, hf.lt_usable⟩
    rw [hptr, usersize, hlive c hf.live]
    exact hf.lt_size

/-- **Queries from the addresses of an arena answer within what they describe exactly if** the address
is in the bigalloc of a promoted chunk, or nothing visible begins below it, or it is in the size
reported for the chunk that the search comes upon. -/
theorem answersWithin_iff (env : Env) (al : Allocator) (A : Nat) (m₀ m : MallocIndex)
    (es : List Event) (q : QueryEnv) (x b : Nat) (h₀ : Start al A m₀) (hrun : Runs env al A m₀ es m)
    (hreq : ∀ c, Event.insert c ∈ es → 0 < c.requested) (hspace : UserSpace m.table A)
    (hleaf : m.table.leafBigallocFor x = some b)
    (hb : b = A ∨ Below m.table.up b A ∧ (m.table.bigAllocations b).allocatedBy = some al)
    (h32 : m.info.bitOf x < 2 ^ 32)
    (hin : q.rfindClamps = true ∨ m.info.bitOf x < m.info.nwords * bitmapWordNbits) :
    AnswersWithin env al q m es x b
      ↔ b ≠ A ∨ NothingBelow q m es x ∨ ∃ c, FoundIn q m es x c := by
  have h := hrun.indexed h₀ hreq
  have hbounded := (hrun.bounds (by rw [h₀.info]; rfl)).bounded
  obtain ⟨b', hb', hdeep⟩ := h.wellFormed.leafBigallocFor_spec x
  obtain rfl := Option.mem_unique hleaf hb'
  by_cases hbA : b = A
  · subst hbA
    have hx : x ∈ m.table.addrs b := (hdeep.resolve_left fun hd => h.arena.inUse.ne_zero hd.1).2.1
    have hbase := h.base_le.trans hx.1
    have hlow := hspace.trans hx.1
    have hhid : m.info.nbitsHidden q x ≤ m.info.bitOf x :=
      nbitsHidden_le h.base_dvd (by omega) hbase (Nat.le_add_right _ _)
    rcases h.getInfoLocate_cases env hx h32 hin hhid with ⟨hno, hloc⟩ | ⟨p, hn, hloc⟩
    · exact ⟨fun _ => .inr (.inl hno), fun _ => answersWithin_of_none hloc⟩
    · rw [hn.answers_iff h hloc]
      refine ⟨fun hf => .inr (.inr hf), ?_⟩
      rintro (hne | hno | hf)
      · exact absurd rfl hne
      · exact absurd hn.visible (hno p hn.begins hn.le).not_ge
      · exact hf
  · obtain ⟨hbelow, hal⟩ := hb.resolve_left hbA
    refine ⟨fun _ => .inl hbA, fun _ => ?_⟩
    have hb0 : b ≠ 0 := by
      rintro rfl
      exact hbA (eq_null_of_below h.wellFormed.links.up_zero hbelow).symm
    obtain ⟨hu, hx, -⟩ := hdeep.resolve_left fun hd => hb0 hd.1
    obtain ⟨c, hc, -, hn⟩ := h.only b hu hbelow hbA hal
    have hx1 : c.ptr ≤ x := hn.begin_eq ▸ hx.1
    have hx2 : x < c.ptr + c.requested := hn.end_eq ▸ hx.2
    have hsize := (h.fits c hc).1.size
    exact (answersWithin_iff_of_some (getInfoLocate_promoted hn)).mpr fun _ _ =>
      ⟨⟨hx1, hx2⟩, c, hc, hx1, by omega⟩

theorem answersWithin_sample : ∃ m,
    Runs sampleEnv .genericMalloc 1 sampleArena sampleEvents m
      ∧ AnswersWithin sampleEnv .genericMalloc {} m sampleEvents 1048600 1 := by
  obtain ⟨m, hrun, hspace, hleaf, h32, hin, hvis⟩ := exists_runs
    (P := fun m => 131072 ≤ (m.table 1).begin ∧ m.table.leafBigallocFor 1048600 = some 1
      ∧ m.info.bitOf 1048600 < 2 ^ 32 ∧ m.info.bitOf 1048600 < m.info.nwords * bitmapWordNbits
      ∧ m.info.nbitsHidden {} 1048600 ≤ m.info.bitOf 1048576) sampleEvents_fits (by decide +kernel)
  refine ⟨m, hrun, (answersWithin_iff sampleEnv .genericMalloc 1 sampleArena m _ {} 1048600 1
    sampleArena_start hrun sampleEvents_requested hspace hleaf (.inl rfl) h32
    (.inr hin)).mpr (.inr (.inr ⟨sampleSmall, mem_sampleEvents.mpr (.inr rfl), by decide, by decide,
      by decide, fun p hp => ?_, hvis⟩))⟩
  simp [sampleEvents_stale] at hp

/-- Two hundred bytes behind the start of the small chunk is no live chunk; a query answers with an
object that ends 96 bytes below. -/
theorem getInfo_answers_outside : ∃ m o m',
    Runs sampleEnv .genericMalloc 1 sampleArena [.insert sampleSmall] m
      ∧ m.table.leafBigallocFor 1048776 = some 1
      ∧ (∀ c ∈ live [.insert sampleSmall], ¬ (c.ptr ≤ 1048776 ∧ 1048776 < c.ptr + c.usable))
      ∧ m.genericMallocGetInfo sampleEnv .genericMalloc {} (fun _ => 120) 1048776 1 false
        = some (o, m')
      ∧ o.err = none ∧ o.outBase = 1048576 ∧ o.outSize = 104 := by
  obtain ⟨m, hrun, hleaf, o, m', hget⟩ := exists_runs (l := [.insert sampleSmall]) (P := fun m =>
    m.table.leafBigallocFor 1048776 = some 1 ∧ ∃ o m',
      m.genericMallocGetInfo sampleEnv .genericMalloc {} (fun _ => 120) 1048776 1 false = some (o, m')
      ∧ o.err = none ∧ o.outBase = 1048576 ∧ o.outSize = 104) (by decide) (by decide +kernel)
  refine ⟨m, o, m', hrun, hleaf, ?_, hget⟩
  intro c hc
  obtain rfl : c = sampleSmall := by simpa [live] using hc
  decide

end Liballocs.MallocIndex
