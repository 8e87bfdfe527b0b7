/-
The chunks of a stack frame are indexed.

When the frame grows downwards, words are put before the old ones of its bitmap and the base goes down
by as much, so each bit still stands for the same address.  Seen as the set of those (`marked`), the
bitmap does not change.  It reaches up to the end of the frame, so insertions find it long enough.
-/
import Liballocs.Proofs.ArenaBitmap
import Liballocs.Proofs.StackFrame

namespace Liballocs

open Forest Function

/-! ### The bitmap -/

namespace ArenaBitmapInfo

variable {info info' : ArenaBitmapInfo} {a begin end_ i x : Nat}

/-- The addresses whose bits are set. -/
def marked (info : ArenaBitmapInfo) : Set Nat :=
  { a | ∃ i, i < info.nwords * bitmapWordNbits ∧ info.bitmap i = true
    ∧ a = info.bitmapBaseAddr + mallocAlign * i }

/-- The bitmap covers the range, to whole words and no further. -/
structure CoversRange (info : ArenaBitmapInfo) (begin end_ : Nat) : Prop where
  base : info.bitmapBaseAddr = roundDown begin wordBytes
  limit : info.bitmapBaseAddr + info.nwords * wordBytes = roundUp end_ wordBytes

section

variable (h : info.CoversRange begin end_)
include h

theorem CoversRange.dvd : mallocAlign * bitmapWordNbits ∣ info.bitmapBaseAddr := by
  rw [h.base]
  exact Nat.dvd_mul_left _ _

theorem CoversRange.base_le (hx : begin ≤ x) : info.bitmapBaseAddr ≤ x := by
  rw [h.base]
  exact (roundDown_le begin wordBytes).trans hx

theorem CoversRange.bitOf_lt (h1 : begin ≤ x) (h2 : x < end_) :
    info.bitOf x < info.nwords * bitmapWordNbits := by
  have hbase := h.base_le h1
  have hlimit := h.limit
  simp only [bitOf, wordBytes, mallocAlign, bitmapWordNbits, roundUp] at *
  omega

theorem CoversRange.nwords_pos (hlt : begin < end_) : 0 < info.nwords := by
  have hlimit := h.bitOf_lt le_rfl hlt
  exact Nat.pos_of_ne_zero fun h0 => by simp [h0] at hlimit

theorem CoversRange.ensureHasBitmapTo_eq (hb : begin ≤ x) (hx : x ≤ end_)
    (hend : end_ ≤ 2 ^ 64 - wordBytes) : info.ensureHasBitmapTo x = info := by
  have hlimit := h.limit
  have hle := roundUp_mono wordBytes hx
  have hword := MallocIndex.sub64_roundUp (h.base_le hb) (hx.trans hend)
  unfold wordBytes at hword
  unfold ensureHasBitmapTo
  dsimp only
  rw [hword, if_neg]
  simp only [wordBytes, mallocAlign, bitmapWordNbits] at *
  omega

end

theorem marked_set (hi : i < info.nwords * bitmapWordNbits) :
    ({ info with bitmap := update info.bitmap i true } : ArenaBitmapInfo).marked
      = insert (info.bitmapBaseAddr + mallocAlign * i) info.marked := by
  ext a
  simp only [marked, Set.mem_insert_iff, Set.mem_ofPred_eq, Function.update_apply]
  constructor
  · rintro ⟨j, hj, hbit, rfl⟩
    by_cases hji : j = i
    · exact .inl (by rw [hji])
    · rw [if_neg hji] at hbit
      exact .inr ⟨j, hj, hbit, rfl⟩
  · rintro (rfl | ⟨j, hj, hbit, rfl⟩)
    · exact ⟨i, hi, by simp, rfl⟩
    · exact ⟨j, hj, by simp [hbit], rfl⟩

theorem marked_clear (i : Nat) :
    ({ info with bitmap := update info.bitmap i false } : ArenaBitmapInfo).marked
      = info.marked \ {info.bitmapBaseAddr + mallocAlign * i} := by
  ext a
  simp only [marked, Set.mem_sdiff, Set.mem_singleton_iff, Set.mem_ofPred_eq, Function.update_apply]
  constructor
  · rintro ⟨j, hj, hbit, rfl⟩
    by_cases hji : j = i
    · rw [if_pos hji] at hbit
      exact absurd hbit Bool.false_ne_true
    · rw [if_neg hji] at hbit
      refine ⟨⟨j, hj, hbit, rfl⟩, fun hc => hji ?_⟩
      simp only [mallocAlign] at hc
      omega
  · rintro ⟨⟨j, hj, hbit, rfl⟩, hne⟩
    have hji : j ≠ i := fun hc => hne (by rw [hc])
    exact ⟨j, hj, by rw [if_neg hji]; exact hbit, rfl⟩

theorem coverage_mul (begin end_ : Nat) :
    divideRoundingUp ((roundUp end_ wordBytes - roundDown begin wordBytes) / allocaAlign)
        bitmapWordNbits * wordBytes = roundUp end_ wordBytes - roundDown begin wordBytes := by
  simp only [divideRoundingUp, wordBytes, mallocAlign, allocaAlign, bitmapWordNbits, roundUp,
    roundDown]
  omega

/-- Words put before the others, with the base moved down, leave each address its bit. -/
theorem marked_prepend {n newBase : Nat} (hlt : info.nwords < n) (h0 : info.bitmapBaseAddr ≠ 0)
    (hle : (n - info.nwords) * wordBytes ≤ info.bitmapBaseAddr) :
    (info.reallocBitmapPrepend n newBase).marked = info.marked := by
  have hbytes : (n - info.nwords) * bitmapWordNbits * allocaAlign ≤ info.bitmapBaseAddr := by
    simp only [wordBytes, mallocAlign, bitmapWordNbits, allocaAlign] at hle ⊢
    omega
  have hbits : n * bitmapWordNbits
      = info.nwords * bitmapWordNbits + (n - info.nwords) * bitmapWordNbits := by
    rw [← Nat.add_mul, Nat.add_sub_cancel' hlt.le]
  have haddr : ∀ j, info.bitmapBaseAddr - (n - info.nwords) * bitmapWordNbits * allocaAlign
      + mallocAlign * (j + (n - info.nwords) * bitmapWordNbits)
        = info.bitmapBaseAddr + mallocAlign * j := by
    intro j
    simp only [allocaAlign, mallocAlign] at hbytes ⊢
    omega
  unfold reallocBitmapPrepend
  rw [if_pos hlt]
  dsimp only
  rw [if_neg h0, sub64, if_pos hbytes]
  ext a
  constructor
  · intro ha
    obtain ⟨j, hj, hbit, rfl⟩ := ha
    dsimp only at hj hbit
    split at hbit
    · exact absurd hbit Bool.false_ne_true
    · rename_i hge
      refine ⟨j - (n - info.nwords) * bitmapWordNbits, by omega, hbit, ?_⟩
      rw [← haddr, Nat.sub_add_cancel (not_lt.mp hge)]
  · intro ha
    obtain ⟨j, hj, hbit, rfl⟩ := ha
    refine ⟨j + (n - info.nwords) * bitmapWordNbits, by dsimp only; omega, ?_, (haddr j).symm⟩
    dsimp only
    rw [if_neg (by omega), Nat.add_sub_cancel]
    exact hbit

theorem coversRange_new (hlt : begin < end_) :
    let info : ArenaBitmapInfo := ({ bitmapBaseAddr := 0 } : ArenaBitmapInfo).reallocBitmapPrepend
      (divideRoundingUp ((roundUp end_ wordBytes - roundDown begin wordBytes) / allocaAlign)
        bitmapWordNbits) (roundDown begin wordBytes)
    info.CoversRange begin end_ ∧ info.marked = ∅ := by
  intro info
  have hmul := coverage_mul begin end_
  have hle : roundDown begin wordBytes < roundUp end_ wordBytes := by
    simp only [roundDown, roundUp, wordBytes, mallocAlign, bitmapWordNbits]
    omega
  have hpos : 0 < divideRoundingUp ((roundUp end_ wordBytes - roundDown begin wordBytes)
      / allocaAlign) bitmapWordNbits := by
    refine Nat.pos_of_ne_zero fun hc => ?_
    rw [hc] at hmul
    omega
  have hinfo : info.bitmapBaseAddr = roundDown begin wordBytes
      ∧ info.nwords = divideRoundingUp ((roundUp end_ wordBytes - roundDown begin wordBytes)
        / allocaAlign) bitmapWordNbits ∧ ∀ i, info.bitmap i = false := by
    simp only [info, reallocBitmapPrepend]
    rw [if_pos hpos]
    simp
  obtain ⟨hbase, hnw, hbits⟩ := hinfo
  refine ⟨⟨hbase, ?_⟩, ?_⟩
  · rw [hnw, hbase, hmul]
    omega
  · refine Set.eq_empty_iff_forall_notMem.mpr fun a ha => ?_
    obtain ⟨i, -, hbit, -⟩ := ha
    rw [hbits i] at hbit
    exact Bool.false_ne_true hbit

/-- The range grows downwards, the bitmap with it, and the same addresses are marked. -/
theorem CoversRange.grow (h : info.CoversRange begin end_) (hx : x ≤ begin) :
    let info' := info.reallocBitmapPrepend
      (divideRoundingUp ((roundUp end_ wordBytes - roundDown x wordBytes) / allocaAlign)
        bitmapWordNbits) (roundDown x wordBytes)
    info'.CoversRange x end_ ∧ info'.marked = info.marked := by
  intro info'
  have hmul := coverage_mul x end_
  have hbase := h.base
  have hlimit := h.limit
  have hmono := roundDown_mono wordBytes hx
  set n := divideRoundingUp ((roundUp end_ wordBytes - roundDown x wordBytes) / allocaAlign)
    bitmapWordNbits
  by_cases hn : info.nwords < n
  · have hsub : (n - info.nwords) * wordBytes = info.bitmapBaseAddr - roundDown x wordBytes := by
      rw [Nat.sub_mul]
      omega
    have h0 : info.bitmapBaseAddr ≠ 0 := by
      intro hc
      simp only [wordBytes, mallocAlign, bitmapWordNbits] at hsub
      omega
    have hbytes : (n - info.nwords) * bitmapWordNbits * allocaAlign
        = info.bitmapBaseAddr - roundDown x wordBytes := by
      rw [← hsub]
      simp only [wordBytes, mallocAlign, bitmapWordNbits, allocaAlign]
      omega
    refine ⟨?_, marked_prepend hn h0 (hsub ▸ Nat.sub_le _ _)⟩
    have hfields : info'.bitmapBaseAddr = roundDown x wordBytes ∧ info'.nwords = n := by
      simp only [info', reallocBitmapPrepend]
      rw [if_pos hn]
      dsimp only
      rw [if_neg h0, hbytes, sub64, if_pos (Nat.sub_le _ _)]
      exact ⟨by omega, rfl⟩
    exact ⟨hfields.1, by rw [hfields.1, hfields.2, hmul]; omega⟩
  · have hsame : info' = info := if_neg hn
    have heq : roundDown begin wordBytes = roundDown x wordBytes := by
      have hle' := Nat.mul_le_mul_right wordBytes (not_lt.mp hn)
      omega
    rw [hsame]
    exact ⟨⟨hbase.trans heq, hlimit⟩, rfl⟩

end ArenaBitmapInfo

namespace MallocIndex

open Table

variable {env : Env} {al : Allocator} {A ptr size caller : Nat} {m : MallocIndex}
  {sizefn : Nat → Nat}

/-- A lookup of an indexed page, or with system calls trapped, leaves the table alone. -/
theorem exists_findBigallocFromTop {t : Table} {x : Nat} (h : t.WellFormed) (bySuballocator : Bool)
    (hq : env.systrapIsInitialized = true ∨ t.pageindex (pagenum x) ≠ 0) :
    ∃ n, t.findBigallocFromTop env x al bySuballocator = some (n, t) := by
  obtain ⟨n, hn, -⟩ := h.findBigallocFromEntry_spec al bySuballocator x
  refine ⟨n, ?_⟩
  unfold findBigallocFromTop
  rw [if_neg, hn]
  · rfl
  · intro hc
    rcases hq with hq | hq
    · rw [hq] at hc
      exact absurd hc.2 (by decide)
    · exact hq hc.1

theorem exists_genericMallocIndexInsert {t : Table} (caller : Nat)
    (hlast : ∃ n, m.table.findBigallocFromTop env (sub64 ((ptr + size) % 2 ^ 64) 1) al true
      = some (n, m.table))
    (hfirst : m.table.findBigallocFromTop env ptr al true = some (A, m.table))
    (htable : (if shouldPromoteToBigalloc (sizefn ptr) = true then promote env m.table A ptr size
      else some m.table) = some t)
    (hbit : m.info.bitOf ptr < (m.info.ensureHasBitmapTo (ptr + size)).nwords * bitmapWordNbits) :
    ∃ p m', m.genericMallocIndexInsert env al ptr size caller sizefn = some (p, m')
      ∧ m'.table = t := by
  obtain ⟨n, hlast⟩ := hlast
  have hbit' := hbit
  rw [ArenaBitmapInfo.bitOf, ← ensureHasBitmapTo_base (ptr + size)] at hbit'
  unfold genericMallocIndexInsert
  dsimp only
  rw [ensureHasBitmapTo_mod, hlast]
  cases hp : shouldPromoteToBigalloc (sizefn ptr) with
  | true =>
    rw [hp, if_pos rfl] at htable
    simp only [hfirst, htable, some_bind, if_true,
      ArenaBitmapInfo.writeBit, ArenaBitmapInfo.bitOf, if_pos hbit', Option.pure_def]
    exact ⟨_, _, rfl, rfl⟩
  | false =>
    rw [hp, if_neg Bool.false_ne_true] at htable
    obtain rfl := Option.some.inj htable
    simp only [hfirst, some_bind, Bool.false_eq_true,
      if_false, ArenaBitmapInfo.writeBit, ArenaBitmapInfo.bitOf, if_pos hbit', Option.pure_def]
    exact ⟨_, _, rfl, rfl⟩

end MallocIndex

/-! ### A frame and its index -/

/-- A chunk of a frame with this counter: request and insert are inside, and it is not promoted. -/
structure Chunk.FitsFrame (c : Chunk) (lo counter : Nat) : Prop where
  aligned : mallocAlign ∣ c.ptr
  lo_le : lo ≤ c.ptr
  le_counter : c.ptr + c.usable ≤ counter
  size : c.requested + sizeofInsert ≤ c.usable
  small : c.usable ≤ 131072

namespace AllocaState

open Table

variable {env : Env} {s s' s₀ : AllocaState} {b begin bp lo ptr x : Nat} {c : Chunk}
  {addrs : Set Nat}

/-- The frame `b` has the info that `s₀` had next, whose bitmap covers it and has the bits of `addrs`
set.  All other infos are those of `s₀`. -/
structure FrameIndexed (env : Env) (s₀ : AllocaState) (lo bp b begin : Nat) (addrs : Set Nat)
    (s : AllocaState) : Prop where
  framed : Framed env s₀.table lo bp b begin s.table
  suballocator : (s.table.bigAllocations b).suballocator = some allocaAllocator
  private_eq : (s.table.bigAllocations b).suballocatorPrivate = s₀.nextInfo
  info_ne : s₀.nextInfo ≠ 0
  covers : (s.infos s₀.nextInfo).CoversRange begin bp
  marked_eq : (s.infos s₀.nextInfo).marked = addrs
  others : ∀ q, q ≠ s₀.nextInfo → s.infos q = s₀.infos q

namespace FrameIndexed

section

variable (h : FrameIndexed env s₀ lo bp b begin addrs s)

include h

theorem infoOf_eq :
    s.infoOf b = s.infos s₀.nextInfo := by
  rw [infoOf, h.private_eq]

theorem of_eq (htable : s'.table = s.table)
    (hinfos : s'.infos = s.infos) : FrameIndexed env s₀ lo bp b begin addrs s' := by
  refine ⟨?_, ?_, ?_, h.info_ne, ?_, ?_, ?_⟩
  · rw [htable]
    exact h.framed
  · rw [htable]
    exact h.suballocator
  · rw [htable]
    exact h.private_eq
  · rw [hinfos]
    exact h.covers
  · rw [hinfos]
    exact h.marked_eq
  · rw [hinfos]
    exact h.others

end

theorem of_start (h : FrameIndexed env s' lo bp b begin addrs s) (htable : s'.table = s₀.table)
    (hinfos : s'.infos = s₀.infos) (hnext : s'.nextInfo = s₀.nextInfo) :
    FrameIndexed env s₀ lo bp b begin addrs s := by
  obtain ⟨h1, h2, h3, h4, h5, h6, h7⟩ := h
  rw [htable] at h1
  rw [hnext] at h3 h4 h5 h6 h7
  rw [hinfos] at h7
  exact ⟨h1, h2, h3, h4, h5, h6, h7⟩

section

variable (h : FrameIndexed env s₀ lo bp b begin addrs s)
include h

/-- **The frame is made to cover an address below it**, and the same addresses are marked. -/
theorem ensureArenaCoversAddr (hlo : lo ≤ x) (hx : x ≤ begin) :
    ∃ s', s.ensureArenaCoversAddr env b x = some s' ∧ FrameIndexed env s₀ lo bp b x addrs s'
      ∧ s'.words = s.words ∧ s'.inserts = s.inserts := by
  have hprivate : (s.table b).suballocatorPrivate ≠ 0 := by
    rw [h.private_eq]
    exact h.info_ne
  have hlt := h.framed.begin_lt
  unfold AllocaState.ensureArenaCoversAddr
  rw [if_neg hprivate, h.infoOf_eq, h.framed.begin_eq]
  rcases Nat.eq_or_lt_of_le hx with rfl | hx'
  · rw [if_pos ⟨h.covers.nwords_pos hlt, le_rfl⟩]
    exact ⟨s, rfl, h, rfl, rfl⟩
  · obtain ⟨t', hrun, hself, hframed⟩ := h.framed.grow hlo hx'
    have hgrow : s.preExtendTo env b x = some { s with table := t' } := by
      rw [preExtendTo, h.framed.begin_eq, if_pos hx', hrun]
      rfl
    obtain ⟨hcovers, hmarked⟩ := h.covers.grow hx
    have hinfos : (({ s with table := t' } : AllocaState).coverArena b).infos
        = update s.infos s₀.nextInfo ((s.infos s₀.nextInfo).reallocBitmapPrepend
          (divideRoundingUp ((roundUp bp wordBytes - roundDown x wordBytes) / allocaAlign)
            bitmapWordNbits) (roundDown x wordBytes)) := by
      simp only [coverArena, infoOf, hself, h.private_eq, h.framed.end_eq]
      rfl
    rw [if_neg fun hc => hc.2.not_gt hx', hgrow]
    refine ⟨_, rfl, ⟨hframed, ?_, ?_, h.info_ne, ?_, ?_, fun q hq => ?_⟩, rfl, rfl⟩
    · show (t' b).suballocator = _
      rw [hself]
      exact h.suballocator
    · show (t' b).suballocatorPrivate = _
      rw [hself]
      exact h.private_eq
    · rw [hinfos, update_self]
      exact hcovers
    · rw [hinfos, update_self, hmarked]
      exact h.marked_eq
    · rw [hinfos, update_of_ne hq]
      exact h.others q hq

theorem arenaInfoForUserptr (h1 : begin ≤ x)
    (h2 : x < bp) : s.arenaInfoForUserptr env allocaAllocator x = some (s₀.nextInfo, s) := by
  have hfind : s.table.findBigallocFromTop env x allocaAllocator true = some (b, s.table) :=
    (h.framed.isArena h.suballocator).find_suballocator h.framed.wellFormed
      (h.framed.mem_addrs h1 h2)
  unfold AllocaState.arenaInfoForUserptr arenaForUserptr
  simp [hfind, some_bind, ne_eq, h.framed.inUse.ne_zero, Option.pure_def, h.private_eq]

theorem setIndex {m : MallocIndex} {addrs' : Set Nat} (htable : m.table = s.table)
    (hnwords : m.info.nwords = (s.infos s₀.nextInfo).nwords)
    (hbase : m.info.bitmapBaseAddr = (s.infos s₀.nextInfo).bitmapBaseAddr)
    (hmarked : m.info.marked = addrs') :
    FrameIndexed env s₀ lo bp b begin addrs' (s.setIndex s₀.nextInfo m) := by
  have hinfos : (s.setIndex s₀.nextInfo m).infos = update s.infos s₀.nextInfo m.info := rfl
  refine ⟨?_, ?_, ?_, h.info_ne, ?_, ?_, fun q hq => ?_⟩
  · show Framed env s₀.table lo bp b begin m.table
    rw [htable]
    exact h.framed
  · show (m.table b).suballocator = _
    rw [htable]
    exact h.suballocator
  · show (m.table b).suballocatorPrivate = _
    rw [htable]
    exact h.private_eq
  · rw [hinfos, update_self]
    exact ⟨hbase.trans h.covers.base, by rw [hbase, hnwords]; exact h.covers.limit⟩
  · rw [hinfos, update_self]
    exact hmarked
  · rw [hinfos, update_of_ne hq]
    exact h.others q hq

theorem exists_insert {requested : Nat} {t : Table} (caller : Nat) (hbegin : begin ≤ ptr)
    (hptr : ptr + requested < bp) (hquiet : env.systrapIsInitialized = true ∨ 0 < requested)
    (htable : (if shouldPromoteToBigalloc (s.usableSize ptr) = true
      then MallocIndex.promote env s.table b ptr requested else some s.table) = some t) :
    ∃ ins m', (s.index s₀.nextInfo).genericMallocIndexInsert env allocaAllocator ptr requested caller
        s.usableSize = some (ins, m') ∧ m'.table = t := by
  have hwf := h.framed.wellFormed
  have hmem : ∀ y, ptr ≤ y → y < bp → y ∈ s.table.addrs b := fun y h1 h2 =>
    h.framed.mem_addrs (hbegin.trans h1) h2
  have hpos := h.framed.inUse.2.2.1
  rw [h.framed.begin_eq] at hpos
  have hend := h.framed.end_le
  have hlast : ∃ n, s.table.findBigallocFromTop env (sub64 ((ptr + requested) % 2 ^ 64) 1)
      allocaAllocator true = some (n, s.table) := by
    rw [MallocIndex.lastByte_eq (by omega) (by omega)]
    apply MallocIndex.exists_findBigallocFromTop hwf
    rcases hquiet with hq | hq
    · exact .inl hq
    · exact .inr (hwf.pageindex_ne_zero h.framed.inUse (hmem _ (by omega) (by omega)))
  have hfirst : s.table.findBigallocFromTop env ptr allocaAllocator true = some (b, s.table) :=
    (h.framed.isArena h.suballocator).find_suballocator hwf (hmem _ le_rfl (by omega))
  refine MallocIndex.exists_genericMallocIndexInsert (m := s.index s₀.nextInfo) caller hlast hfirst
    htable ?_
  show _ < ((s.infos s₀.nextInfo).ensureHasBitmapTo _).nwords * _
  rw [h.covers.ensureHasBitmapTo_eq (by omega) (by omega) hend]
  exact h.covers.bitOf_lt hbegin (by omega)

theorem indexInsert (hc : c.FitsFrame begin bp) (hsize : s.usableSize c.ptr = c.usable)
    (hquiet : env.systrapIsInitialized = true ∨ 0 < c.requested) :
    ∃ s', s.indexInsert env s₀.nextInfo c.ptr c.requested c.caller = some s'
      ∧ FrameIndexed env s₀ lo bp b begin (insert c.ptr addrs) s' ∧ s'.words = s.words
      ∧ s'.inserts = update s.inserts (c.ptr + (c.usable - sizeofInsert))
        ((s.inserts (c.ptr + (c.usable - sizeofInsert))).setAllocSite c.caller) := by
  have hsz := hc.size
  have hle := hc.le_counter
  have hlt : c.ptr < bp := by
    simp only [sizeofInsert] at hsz
    omega
  have hsmall : (if shouldPromoteToBigalloc (s.usableSize c.ptr) = true
      then MallocIndex.promote env s.table b c.ptr c.requested else some s.table) = some s.table := by
    have hs := hc.small
    rw [hsize, if_neg]
    simp only [shouldPromoteToBigalloc, decide_eq_true_eq]
    omega
  obtain ⟨ins, m', hrun, htable⟩ := h.exists_insert c.caller hc.lo_le
    (show c.ptr + c.requested < bp by simp only [sizeofInsert] at hsz; omega) hquiet hsmall
  have hensure : (s.infos s₀.nextInfo).ensureHasBitmapTo (c.ptr + c.requested)
      = s.infos s₀.nextInfo := by
    have hbegin := hc.lo_le
    exact h.covers.ensureHasBitmapTo_eq (by omega) (by omega) h.framed.end_le
  have hbit := h.covers.bitOf_lt hc.lo_le hlt
  obtain ⟨arena, t1, t2, hi⟩ := MallocIndex.genericMallocIndexInsert_eq_some hrun
  have hins : ins = c.ptr + (c.usable - sizeofInsert) := by
    rw [hi.insert, insertForChunk, callerUsableSizeForChunk, hsize]
    rw [insertForChunkAndCallerUsableSize, callerUsableSizeForChunkAndUsableSize, sub64, if_pos]
    omega
  have hnwords : m'.info.nwords = (s.infos s₀.nextInfo).nwords := by
    rw [hi.nwords]
    exact congrArg ArenaBitmapInfo.nwords hensure
  have hbase : m'.info.bitmapBaseAddr = (s.infos s₀.nextInfo).bitmapBaseAddr := hi.base
  have hbits : m'.info.bitmap = update (s.infos s₀.nextInfo).bitmap
      ((s.infos s₀.nextInfo).bitOf c.ptr) true := by
    rw [hi.bitmap]
    exact congrArg (fun info : ArenaBitmapInfo => update info.bitmap _ true) hensure
  have hmarked : m'.info.marked = insert c.ptr addrs := by
    have hset := ArenaBitmapInfo.marked_set hbit
    rw [MallocIndex.Bitmap.base_add_bitOf h.covers.dvd hc.aligned (h.covers.base_le hc.lo_le),
      h.marked_eq] at hset
    rw [← hset]
    unfold ArenaBitmapInfo.marked
    rw [hnwords, hbase, hbits]
  refine ⟨s.setIndex s₀.nextInfo m', ?_, h.setIndex htable hnwords hbase hmarked, rfl, ?_⟩
  · rw [AllocaState.indexInsert, if_neg h.info_ne, hrun]
    rfl
  · show m'.inserts = _
    rw [hi.inserts, hins]
    rfl

theorem indexDelete (h1 : begin ≤ x) (h2 : x < bp) (hx : mallocAlign ∣ x) :
    ∃ s', s.indexDelete env s₀.nextInfo x = some s'
      ∧ FrameIndexed env s₀ lo bp b begin (addrs \ {x}) s' ∧ s'.words = s.words
      ∧ s'.inserts = s.inserts := by
  have hwf := h.framed.wellFormed
  have harena := h.framed.isArena h.suballocator
  have hmem := h.framed.mem_addrs h1 h2
  have hnone : s.table.findBigallocFromTop env x allocaAllocator false = some (0, s.table) :=
    harena.find_none env hwf hmem fun n _ hup => absurd hup (h.framed.childless n)
  have hfind : s.table.findBigallocFromTop env x allocaAllocator true = some (b, s.table) :=
    harena.find_suballocator hwf hmem
  have hbit := h.covers.bitOf_lt h1 h2
  set info := s.infos s₀.nextInfo with hinfo
  set m' : MallocIndex :=
    { table := s.table
      info := { info with bitmap := update info.bitmap (info.bitOf x) false }
      inserts := s.inserts } with hm'
  have hrun : (s.index s₀.nextInfo).genericMallocIndexDelete env allocaAllocator x = some m' := by
    unfold MallocIndex.genericMallocIndexDelete index
    simp [hnone, hfind, some_bind, ne_eq, ← hinfo, ArenaBitmapInfo.writeBit, if_pos hbit, Option.pure_def, hm']
  have hmarked : m'.info.marked = addrs \ {x} := by
    have hclear : m'.info.marked
        = info.marked \ {info.bitmapBaseAddr + mallocAlign * info.bitOf x} :=
      ArenaBitmapInfo.marked_clear _
    rwa [MallocIndex.Bitmap.base_add_bitOf h.covers.dvd hx (h.covers.base_le h1),
      h.marked_eq] at hclear
  refine ⟨s.setIndex s₀.nextInfo m', ?_, h.setIndex rfl rfl rfl hmarked, rfl, rfl⟩
  rw [AllocaState.indexDelete, if_neg h.info_ne, hrun]
  rfl

end

end FrameIndexed

end AllocaState

end Liballocs
