/-
The parts of an alloca'd region.

The size asked for has sixteen bytes more than the trailer needs.  Eight hold the size of the chunk;
the others are wasted before that word if the address is a multiple of sixteen, and else count as part
of the chunk.
-/
import Liballocs.Proofs.AllocaNotify
import Liballocs.Proofs.MmapFree
import Mathlib.Order.Interval.Set.Disjoint

namespace Liballocs.AllocaState

open Forest

open Table

variable {env : Env} {s s' s₀ s₁ : AllocaState} {allocated b begin bp counter lo orig p ptr : Nat}
  {requested caller usable : Nat} {addrs : Set Nat} {cs : List Chunk}

/-- `__liballocs_alloca_size` does not wrap around. -/
def AllocaSizeFits (orig : Nat) : Prop :=
  padToAlign allocaHeaderSize allocaAlign + padToAlign (orig + allocaTrailerSize) allocaAlign < 2 ^ 64

/-! ### Sizes -/

theorem padToAlign_bounds (n : Nat) :
    allocaAlign ∣ padToAlign n allocaAlign ∧ n ≤ padToAlign n allocaAlign
      ∧ padToAlign n allocaAlign < n + allocaAlign := by
  unfold padToAlign allocaAlign
  split <;> omega

theorem allocaSize_eq (h : AllocaSizeFits orig) :
    allocaSize orig = allocaAlign + padToAlign (orig + allocaTrailerSize) allocaAlign := by
  have hpad : padToAlign allocaHeaderSize allocaAlign = allocaAlign := rfl
  have hb := padToAlign_bounds (orig + allocaTrailerSize)
  unfold AllocaSizeFits at h
  rw [hpad] at h
  unfold allocaSize
  dsimp only
  rw [hpad, Nat.mod_eq_of_lt (show orig + allocaTrailerSize < 2 ^ 64 by omega),
    Nat.mod_eq_of_lt (show padToAlign (orig + allocaTrailerSize) allocaAlign < 2 ^ 64 by omega),
    Nat.mod_eq_of_lt h]

/-- Where the chunk is, and how large. -/
structure Layout (orig allocated : Nat) : Prop where
  aligned : allocaAlign ∣ userchunkOf allocated
  header : allocated + allocaHeaderSize ≤ userchunkOf allocated
  inside : userchunkOf allocated + nonHeaderSize allocated (allocaSize orig)
    = allocated + allocaSize orig
  room : orig + sizeofInsert ≤ nonHeaderSize allocated (allocaSize orig)

theorem layout (hsize : AllocaSizeFits orig) (halign : allocaHeaderSize ∣ allocated)
    (hregion : allocated + allocaSize orig ≤ 2 ^ 64) : Layout orig allocated := by
  have hsz := allocaSize_eq hsize
  obtain ⟨-, hb, -⟩ := padToAlign_bounds (orig + allocaTrailerSize)
  obtain ⟨hdvd, hlo, hlt⟩ := padToAlign_bounds (allocated + allocaHeaderSize)
  -- both are multiples of eight, so the chunk is eight or sixteen bytes into the region
  have hhi : padToAlign (allocated + allocaHeaderSize) allocaAlign ≤ allocated + allocaAlign := by
    simp only [allocaHeaderSize, allocaAlign] at hdvd hlo hlt halign ⊢
    omega
  have htrailer : allocaTrailerSize = 8 := rfl
  have hchunk : userchunkOf allocated = padToAlign (allocated + allocaHeaderSize) allocaAlign := by
    unfold userchunkOf
    rw [Nat.mod_eq_of_lt (show allocated + allocaHeaderSize < 2 ^ 64 by omega),
      Nat.mod_eq_of_lt (by omega)]
  have husable : nonHeaderSize allocated (allocaSize orig)
      = allocaSize orig - (userchunkOf allocated - allocated) := by
    have h1 : sub64 (userchunkOf allocated) allocated = userchunkOf allocated - allocated :=
      if_pos (by omega)
    rw [nonHeaderSize, h1]
    exact if_pos (by omega)
  rw [← hchunk] at hdvd hlo hhi
  refine ⟨hdvd, hlo, ?_, ?_⟩
  · omega
  · rw [sizeofInsert]
    omega

/-! ### What a notification does to the memory of the stack -/

/-- Nothing has been written to memory. -/
def SameMemory (s s' : AllocaState) : Prop := s'.words = s.words ∧ s'.inserts = s.inserts

theorem SameMemory.trans (h : s.SameMemory s₁) (h' : s₁.SameMemory s') : s.SameMemory s' :=
  ⟨h'.1.trans h.1, h'.2.trans h.2⟩

theorem claimArena_memory (h : s.claimArena b = some s') : s.SameMemory s' := by
  unfold claimArena at h
  dsimp only at h
  split at h
  · cases h
  · obtain rfl := Option.some.inj h
    split <;> split <;> exact ⟨rfl, rfl⟩

theorem ensureArenaCoversAddr_memory (h : s.ensureArenaCoversAddr env b ptr = some s') :
    s.SameMemory s' := by
  unfold ensureArenaCoversAddr at h
  split at h
  · cases h
  split at h
  · obtain rfl := Option.some.inj h
    exact ⟨rfl, rfl⟩
  · obtain ⟨s₁, hgrow, rfl⟩ := Option.map_eq_some_iff.mp h
    unfold preExtendTo at hgrow
    split at hgrow
    · obtain ⟨t, -, rfl⟩ := Option.map_eq_some_iff.mp hgrow
      exact ⟨rfl, rfl⟩
    · obtain rfl := Option.some.inj hgrow
      exact ⟨rfl, rfl⟩

theorem arenaInfoForUserptr_memory {al : Allocator} {info : Nat}
    (h : s.arenaInfoForUserptr env al ptr = some (info, s')) : s.SameMemory s' := by
  obtain ⟨⟨b, s₁⟩, harena, h⟩ := of_bind h
  obtain ⟨-, rfl⟩ := Prod.mk.inj (Option.some.inj h)
  obtain ⟨⟨n, t⟩, -, harena⟩ := of_bind harena
  dsimp only at harena
  split at harena
  · obtain ⟨-, rfl⟩ := Prod.mk.inj (Option.some.inj harena)
    exact ⟨rfl, rfl⟩
  · obtain ⟨⟨m, t'⟩, -, harena⟩ := of_bind harena
    split at harena
    · cases harena
    · obtain ⟨-, rfl⟩ := Prod.mk.inj (Option.some.inj harena)
      unfold ensureArenaHasInfo
      dsimp only
      split <;> exact ⟨rfl, rfl⟩

/-- Whatever the frame, a notification writes one insert and nothing else. -/
theorem allocaAllocatorNotify_memory
    (h : s.allocaAllocatorNotify env ptr requested counter caller bp = some s') :
    s'.words = s.words ∧ s'.inserts = Function.update s.inserts (insertForChunk ptr s.usableSize)
      ((s.inserts (insertForChunk ptr s.usableSize)).setAllocSite caller) := by
  obtain ⟨⟨b, t⟩, -, h⟩ := of_bind h
  obtain ⟨s₁, hclaim, h⟩ := of_bind h
  obtain ⟨s2, hcover, h⟩ := of_bind h
  obtain ⟨⟨info, s3⟩, hinfo, h⟩ := of_bind h
  have hsame : s.SameMemory s3 := (((show s.SameMemory { s with table := t } from ⟨rfl, rfl⟩).trans
    (claimArena_memory hclaim)).trans (ensureArenaCoversAddr_memory hcover)).trans
      (arenaInfoForUserptr_memory hinfo)
  have husable : s3.usableSize = s.usableSize := by
    funext q
    rw [usableSize, usableSize, hsame.1]
  dsimp only at h
  unfold indexInsert at h
  split at h
  · cases h
  · obtain ⟨⟨ins, m⟩, hrun, rfl⟩ := Option.map_eq_some_iff.mp h
    obtain ⟨arena, t1, t2, hi⟩ := MallocIndex.genericMallocIndexInsert_eq_some hrun
    refine ⟨hsame.1, ?_⟩
    show m.inserts = _
    rw [hi.inserts, hi.insert, husable]
    show Function.update s3.inserts _ ((s3.inserts _).setAllocSite caller) = _
    rw [hsame.2]

/-- Whatever the call returns is the chunk, with its size before and a fresh insert in it. -/
theorem notifyAndAdjustAlloca_eq_some {chunk : Nat} (hl : Layout orig allocated)
    (hcounter : counter + 8 ≤ allocated ∨ allocated + allocaSize orig ≤ counter)
    (h : s.notifyAndAdjustAlloca env allocated orig (allocaSize orig) counter caller bp
      = some (chunk, s')) :
    chunk = userchunkOf allocated ∧ s'.usableSize chunk = nonHeaderSize allocated (allocaSize orig)
      ∧ s'.inserts (insertForChunk chunk s'.usableSize) = ({} : Insert).setAllocSite caller := by
  obtain ⟨s₁, hnotify, h⟩ := of_bind h
  obtain ⟨rfl, rfl⟩ := Prod.mk.inj (Option.some.inj h)
  obtain ⟨hwords, hinserts⟩ := allocaAllocatorNotify_memory hnotify
  have hheader := hl.header
  have hinside := hl.inside
  have hroom := hl.room
  simp only [allocaHeaderSize, sizeofInsert] at hheader hroom
  have hne : userchunkOf allocated - 8 ≠ counter := by omega
  have hword : s₁.words (userchunkOf allocated - 8) = nonHeaderSize allocated (allocaSize orig) := by
    rw [hwords]
    unfold announce setWord
    dsimp only
    rw [Function.update_of_ne hne, Function.update_self]
  have husable : s₁.usableSize = ((s.zero allocated (allocaSize orig)).announce
      (userchunkOf allocated) (nonHeaderSize allocated (allocaSize orig)) counter).usableSize := by
    funext q
    rw [usableSize, usableSize, hwords]
  refine ⟨rfl, hword, ?_⟩
  rw [hinserts, husable, Function.update_self]
  have hins : insertForChunk (userchunkOf allocated) s₁.usableSize
      = userchunkOf allocated + (nonHeaderSize allocated (allocaSize orig) - 8) := by
    rw [insertForChunk, callerUsableSizeForChunk, usableSize, hword,
      insertForChunkAndCallerUsableSize, callerUsableSizeForChunkAndUsableSize, sub64, sizeofInsert,
      if_pos (by omega)]
  rw [← husable, hins]
  have hzero : (s.zero allocated (allocaSize orig)).inserts
      (userchunkOf allocated + (nonHeaderSize allocated (allocaSize orig) - 8)) = {} :=
    if_pos ⟨by omega, by omega⟩
  exact congrArg (fun i : Insert => i.setAllocSite caller) hzero

/-! ### The call returns -/

theorem FrameIndexed.exists_promote (h : FrameIndexed env s₀ lo bp b ptr addrs s)
    (hpos : 0 < requested) (hend : ptr + requested ≤ bp)
    (hsane : requested ≤ env.biggestSaneUserAlloc) (hfree : s₀.table.HasFree 2) :
    ∃ t, MallocIndex.promote env s.table b ptr requested = some t := by
  have hb := h.framed.inUse
  have hbegin := h.framed.begin_eq
  have hr : s.table.ValidRequest
      { ptr := ptr, size := requested, maybeParent := b,
        allocatedBy := (s.table b).suballocator } b := by
    refine ⟨?_, .inr rfl, ?_, fun _ => ⟨hb, ?_, ?_⟩, fun n _ hup => absurd hup (h.framed.childless n),
      fun h0 => absurd h0 hb.ne_zero⟩
    · show 0 < ptr
      rw [← hbegin]
      exact Nat.pos_of_ne_zero hb.2.2.1
    · show ptr < ptr + requested
      omega
    · exact hbegin.le
    · rw [h.framed.end_eq]
      exact hend
  obtain ⟨n, hn⟩ := (hfree.of_one h.framed.only).findFreeBigalloc
  obtain ⟨t, -, hnew⟩ := hr.newBigalloc_eq h.framed.wellFormed (if_pos hb.ne_zero) hsane hn
  unfold MallocIndex.promote
  simp only [if_neg hb.ne_zero, hnew, some_bind, Option.pure_def]
  exact ⟨_, rfl⟩

/-- **A notification returns**, however large the chunk. -/
theorem FrameIndexed.exists_indexInsert (h : FrameIndexed env s₀ lo bp b ptr addrs s)
    (caller : Nat) (hsize : s.usableSize ptr = usable) (hend : ptr + usable ≤ bp)
    (hreq : requested + sizeofInsert ≤ usable)
    (hquiet : env.systrapIsInitialized = true ∨ 0 < requested)
    (hlarge : 131072 < usable → 0 < requested ∧ requested ≤ env.biggestSaneUserAlloc
      ∧ s₀.table.HasFree 2) :
    ∃ s', s.indexInsert env s₀.nextInfo ptr requested caller = some s' := by
  simp only [sizeofInsert] at hreq
  obtain ⟨t, ht⟩ : ∃ t, (if shouldPromoteToBigalloc (s.usableSize ptr) = true
      then MallocIndex.promote env s.table b ptr requested else some s.table) = some t := by
    rw [hsize]
    split
    · rename_i hp
      obtain ⟨hpos, hsane, hfree⟩ := hlarge (by simpa [shouldPromoteToBigalloc] using hp)
      exact h.exists_promote hpos (by omega) hsane hfree
    · exact ⟨_, rfl⟩
  obtain ⟨ins, m', hrun, -⟩ := h.exists_insert caller le_rfl (by omega) hquiet ht
  refine ⟨s.setIndex s₀.nextInfo m', ?_⟩
  rw [AllocaState.indexInsert, if_neg h.info_ne, hrun]
  rfl

/-- The region is free stack of the frame: below the counter and the chunks, the first of which begins
with the word for its size. -/
structure FreeBelow (env : Env) (t : Table) (p lo counter : Nat) (cs : List Chunk)
    (allocated size : Nat) : Prop where
  lo_le : lo ≤ allocated
  le_counter : allocated + size ≤ counter
  below : ∀ c ∈ cs, allocated + size + allocaHeaderSize ≤ c.ptr
  first : cs = [] → (t.bigAllocations p).begin ≤ allocated ∨ Claims env t p lo (userchunkOf allocated)

/-- **The call returns** in every frame with chunks further up, or none. -/
theorem notifyAndAdjustAlloca_returns (hsize : AllocaSizeFits orig) (hl : Layout orig allocated)
    (h : FrameStart env s₀ p lo counter bp)
    (hcs : FrameChunks env s₀.table p lo counter cs)
    (hrun : notifyChunks env counter bp s₀ cs = some s)
    (hfree : FreeBelow env s₀.table p lo counter cs allocated (allocaSize orig))
    (hquiet : env.systrapIsInitialized = true ∨ 0 < orig)
    (hroom : 131072 < nonHeaderSize allocated (allocaSize orig) → s₀.table.HasFree 2)
    (caller : Nat) :
    ∃ s', s.notifyAndAdjustAlloca env allocated orig (allocaSize orig) counter caller bp
      = some (userchunkOf allocated, s') := by
  obtain ⟨s2, hrun2, hran⟩ := h.run hcs
  obtain rfl := Option.mem_unique hrun hrun2
  have hsz := allocaSize_eq hsize
  obtain ⟨-, -, hpad⟩ := padToAlign_bounds (orig + allocaTrailerSize)
  have hheader := hl.header
  have hinside := hl.inside
  have hreq := hl.room
  have hlo := hfree.lo_le
  have hle := hfree.le_counter
  have hcounter := h.counter_le
  have hsane := h.space.sane
  have hround := le_roundUp bp
  have hbelow := hfree.below
  simp only [allocaHeaderSize, allocaTrailerSize, allocaAlign, sizeofInsert]
    at hheader hreq hbelow hsz hpad
  set chunk := userchunkOf allocated
  set usable := nonHeaderSize allocated (allocaSize orig)
  set s' := (s.zero allocated (allocaSize orig)).announce chunk usable counter with hs'
  obtain ⟨b, s₁, hprep, hindexed, hwords, -⟩ := hran.exists_prepared h hcs
    (show lo ≤ chunk by omega) (fun hnil => (hfree.first hnil).imp_left fun hle => by omega)
    (fun d hd => by have := hbelow d hd; omega) (by omega)
    (show s'.table = s.table from rfl) rfl rfl
  have hne : chunk - 8 ≠ counter := by omega
  have husable : s₁.usableSize chunk = usable := by
    rw [usableSize, hwords, hs']
    unfold announce setWord
    dsimp only
    rw [Function.update_of_ne hne, Function.update_self]
  obtain ⟨s3, hinsert⟩ := hindexed.exists_indexInsert caller husable (by omega) hreq hquiet
    fun hlarge => ⟨by omega, by omega, hroom hlarge⟩
  have hinfo := hindexed.arenaInfoForUserptr le_rfl (by omega)
  refine ⟨s3, ?_⟩
  unfold notifyAndAdjustAlloca
  refine Option.bind_eq_some_iff.mpr ⟨s3, ?_, rfl⟩
  exact (hprep.notify_eq hinfo).trans hinsert

/-- **The parts of an alloca'd region do not overlap**: whatever the requested size, unless the size
asked of alloca wraps around, and whatever the address that is a multiple of eight, the chunk is a
multiple of sixteen, and the word for the size, the requested bytes and the insert are apart from each
other and inside the region.  This is the chunk that the call returns, the index finds the insert when
it reads the size back, and in every frame the call does return. -/
theorem notifyAndAdjustAlloca_layout (orig allocated : Nat) (hsize : AllocaSizeFits orig)
    (halign : 8 ∣ allocated) (hregion : allocated + allocaSize orig ≤ 2 ^ 64) :
    let chunk := userchunkOf allocated
    let usable := nonHeaderSize allocated (allocaSize orig)
    let region := Set.Ico allocated (allocated + allocaSize orig)
    let sizeWord := Set.Ico (chunk - 8) (chunk - 8 + 8)
    let requested := Set.Ico chunk (chunk + orig)
    let insert := Set.Ico (chunk + usable - sizeofInsert) (chunk + usable - sizeofInsert + sizeofInsert)
    (16 ∣ chunk ∧ sizeWord ⊆ region ∧ requested ⊆ region ∧ insert ⊆ region
      ∧ Disjoint sizeWord requested ∧ Disjoint sizeWord insert ∧ Disjoint requested insert)
    ∧ (∀ (env : Env) (s : AllocaState) (counter caller bp chunk' : Nat) (s' : AllocaState),
      counter + 8 ≤ allocated ∨ allocated + allocaSize orig ≤ counter →
      s.notifyAndAdjustAlloca env allocated orig (allocaSize orig) counter caller bp
        = some (chunk', s') →
      chunk' = chunk ∧ s'.usableSize chunk' = usable
        ∧ insertForChunk chunk' s'.usableSize = chunk + usable - sizeofInsert
        ∧ s'.inserts (insertForChunk chunk' s'.usableSize) = ({} : Insert).setAllocSite caller)
    ∧ (∀ (env : Env) (s₀ s : AllocaState) (p lo counter caller bp : Nat) (cs : List Chunk),
      FrameStart env s₀ p lo counter bp →
      FrameChunks env s₀.table p lo counter cs →
      notifyChunks env counter bp s₀ cs = some s →
      FreeBelow env s₀.table p lo counter cs allocated (allocaSize orig) →
      (env.systrapIsInitialized = true ∨ 0 < orig) → (131072 < usable → s₀.table.HasFree 2) →
      ∃ s', s.notifyAndAdjustAlloca env allocated orig (allocaSize orig) counter caller bp
        = some (chunk, s')) := by
  intro chunk usable region sizeWord requested insert
  have hl := layout hsize halign hregion
  have hheader : allocated + 8 ≤ chunk := hl.header
  have hinside : chunk + usable = allocated + allocaSize orig := hl.inside
  have hroom : orig + 8 ≤ usable := hl.room
  have hi8 : sizeofInsert = 8 := rfl
  refine ⟨⟨hl.aligned, ?_, ?_, ?_, ?_, ?_, ?_⟩, ?_, ?_⟩
  · exact Set.Ico_subset_Ico (by omega) (by omega)
  · exact Set.Ico_subset_Ico (by omega) (by omega)
  · exact Set.Ico_subset_Ico (by omega) (by omega)
  · exact Set.Ico_disjoint_Ico.mpr (by omega)
  · exact Set.Ico_disjoint_Ico.mpr (by omega)
  · exact Set.Ico_disjoint_Ico.mpr (by omega)
  · intro env s counter caller bp chunk' s' hcounter hrun
    obtain ⟨rfl, husable, hinsert⟩ := notifyAndAdjustAlloca_eq_some hl hcounter hrun
    refine ⟨rfl, husable, ?_, hinsert⟩
    rw [insertForChunk, callerUsableSizeForChunk, husable, insertForChunkAndCallerUsableSize,
      callerUsableSizeForChunkAndUsableSize, sub64, if_pos (by omega)]
    omega
  · intro env s₀ s p lo counter caller bp cs h hcs hrun hfree hquiet hlarge
    exact notifyAndAdjustAlloca_returns hsize hl h hcs hrun hfree hquiet hlarge caller

/-- A hundred bytes at an address that is not a multiple of sixteen. -/
theorem notifyAndAdjustAlloca_layout_sample : ∃ s₀ s' : AllocaState,
    s₀.notifyAndAdjustAlloca alignedEnv 61432 100 128 65200 1 65280 = some (61440, s')
    ∧ s'.usableSize 61440 = 120
    ∧ s'.inserts 61552 = ({} : Insert).setAllocSite 1 := by
  obtain ⟨used, t, -, hb, -, hstart⟩ := sampleStack_frameStart
  obtain ⟨-, hreturned, hreturns⟩ :=
    notifyAndAdjustAlloca_layout 100 61432 (by unfold AllocaSizeFits; decide) (by decide) (by decide)
  have hchunks : FrameChunks alignedEnv t 2 20000 65200 [] :=
    ⟨fun c hc => absurd hc (by simp), List.Pairwise.nil, fun c hc => absurd hc (by simp), .inl rfl⟩
  have hfree : FreeBelow alignedEnv t 2 20000 65200 [] 61432 (allocaSize 100) :=
    ⟨by decide, by decide, fun c hc => absurd hc (by simp), fun _ => .inl (by rw [hb]; decide)⟩
  obtain ⟨s', hrun⟩ := hreturns alignedEnv { table := t } { table := t } 2 20000 65200 1 65280 []
    hstart hchunks rfl hfree (.inl rfl) (fun hc => absurd hc (by decide))
  obtain ⟨-, husable, hins, hinsert⟩ :=
    hreturned alignedEnv { table := t } 65200 1 65280 _ s' (.inr (by decide)) hrun
  rw [hins] at hinsert
  exact ⟨_, s', hrun, husable, hinsert⟩

end Liballocs.AllocaState
