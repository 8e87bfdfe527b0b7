/-
A frame unindexes its chunks when it is left.

The loop goes up from the stack pointer along the set bits until it has seen as many bytes as the
counter says.  The bits are those of the frame's chunks, so it stops at the highest and not before.
The first chunk may lie below the stack as it is known; the notification then makes the stack grow
before the frame is made.
-/
import Liballocs.Proofs.AllocaNotify

namespace Liballocs

open Forest

namespace ArenaBitmapInfo

variable {info info' : ArenaBitmapInfo} {begin end_ i x y : Nat}

section

variable (h : info.CoversRange begin end_) (h' : info'.CoversRange begin end_)

include h h'

theorem CoversRange.nwords_eq : info'.nwords = info.nwords := by
  have h1 := h.limit
  have h2 := h'.limit
  rw [h.base] at h1
  rw [h'.base] at h2
  simp only [wordBytes, mallocAlign, bitmapWordNbits] at h1 h2
  omega

theorem CoversRange.bitOf_eq (x : Nat) : info'.bitOf x = info.bitOf x := by
  rw [bitOf, bitOf, h.base, h'.base]

end

theorem bitOf_mono (hxy : x ≤ y) : info.bitOf x ≤ info.bitOf y :=
  Nat.div_le_div_right (Nat.sub_le_sub_right hxy _)

theorem bitOf_base_add (i : Nat) : info.bitOf (info.bitmapBaseAddr + mallocAlign * i) = i := by
  simp only [bitOf, mallocAlign]
  omega

theorem bitmap_of_mem_marked (hx : x ∈ info.marked) : info.bitmap (info.bitOf x) = true := by
  obtain ⟨i, -, hbit, rfl⟩ := hx
  rwa [bitOf_base_add]

end ArenaBitmapInfo

namespace AllocaState

open Table

variable {env : Env} {s s' s₀ : AllocaState} {b begin bp counter lo p sp x : Nat}
  {t : Table}
  {c : Chunk} {cs ds : List Chunk}

/-! ### The loop -/

/-- What the loop needs to know of a chunk. -/
structure Unindexable (s : AllocaState) (begin bp : Nat) (c : Chunk) : Prop where
  aligned : mallocAlign ∣ c.ptr
  begin_le : begin ≤ c.ptr
  lt : c.ptr < bp
  pos : 0 < c.usable
  size : s.usableSize c.ptr = c.usable

theorem FrameIndexed.find_lowest {start : Nat}
    (h : FrameIndexed env s₀ lo bp b begin { a | ∃ d ∈ c :: ds, d.ptr = a } s)
    (hc : s.Unindexable begin bp c) (hlow : ∀ d ∈ ds, c.ptr < d.ptr)
    (hstart : start ≤ (s.infos s₀.nextInfo).bitOf c.ptr) :
    bitmapFindFirstSet1Geq env.bitmaps (s.infos s₀.nextInfo).bitmap (s.infos s₀.nextInfo).nwords
      start
      = some ((s.infos s₀.nextInfo).bitOf c.ptr) := by
  have hmarked := h.marked_eq
  have hlt := h.covers.bitOf_lt hc.begin_le hc.lt
  refine bitmapFindFirstSet1Geq_eq_some hstart hlt
    (ArenaBitmapInfo.bitmap_of_mem_marked (by rw [hmarked]; exact ⟨c, by simp, rfl⟩)) ?_
  intro j _ hj
  by_contra hset
  have hmem : (s.infos s₀.nextInfo).bitmapBaseAddr + mallocAlign * j
      ∈ (s.infos s₀.nextInfo).marked := ⟨j, by omega, by simpa using hset, rfl⟩
  rw [hmarked] at hmem
  obtain ⟨d, hd, hptr⟩ := hmem
  have hle : c.ptr ≤ d.ptr := by
    rcases List.mem_cons.mp hd with rfl | hd
    · exact le_rfl
    · exact (hlow d hd).le
  have hbit : (s.infos s₀.nextInfo).bitOf c.ptr ≤ (s.infos s₀.nextInfo).bitOf d.ptr :=
    ArenaBitmapInfo.bitOf_mono hle
  rw [hptr, ArenaBitmapInfo.bitOf_base_add] at hbit
  omega

/-- **The loop unindexes the chunks from the lowest up**, and then has seen all bytes. -/
theorem FrameIndexed.unindexLoop {fuel start total n : Nat}
    (h : FrameIndexed env s₀ lo bp b begin { a | ∃ d ∈ ds, d.ptr = a } s) (hne : ds ≠ [])
    (hds : ∀ d ∈ ds, s.Unindexable begin bp d) (hasc : ds.Pairwise fun c d => c.ptr < d.ptr)
    (hstart : ∀ d ∈ ds, start ≤ (s.infos s₀.nextInfo).bitOf d.ptr)
    (hfuel : (s.infos s₀.nextInfo).nwords * bitmapWordNbits < fuel + start)
    (htotal : total + (ds.map Chunk.usable).sum = n) (hn : n < 2 ^ 64) :
    ∃ s', unindexLoop env s₀.nextInfo n fuel s start total
        = some (s', ds.map fun d => (d.ptr, d.usable))
      ∧ FrameIndexed env s₀ lo bp b begin ∅ s' ∧ s'.words = s.words ∧ s'.inserts = s.inserts := by
  induction ds generalizing s fuel start total with
  | nil => exact absurd rfl hne
  | cons d ds ih =>
    have hd := hds d (.head _)
    obtain ⟨hlow, hasc'⟩ := List.pairwise_cons.mp hasc
    have hlt := h.covers.bitOf_lt hd.begin_le hd.lt
    have hstart_d := hstart d (.head _)
    obtain ⟨fuel, rfl⟩ : ∃ k, fuel = k + 1 := ⟨fuel - 1, by omega⟩
    have hfind := h.find_lowest hd hlow hstart_d
    have haddr : (s.infos s₀.nextInfo).bitmapBaseAddr
        + (s.infos s₀.nextInfo).bitOf d.ptr * allocaAlign = d.ptr := by
      rw [Nat.mul_comm]
      exact MallocIndex.Bitmap.base_add_bitOf h.covers.dvd hd.aligned (h.covers.base_le hd.begin_le)
    have hinfo := h.arenaInfoForUserptr hd.begin_le hd.lt
    obtain ⟨s1, hdelete, hindexed, hwords, hinserts⟩ := h.indexDelete hd.begin_le hd.lt hd.aligned
    have hrest : { a | ∃ e ∈ d :: ds, e.ptr = a } \ {d.ptr} = { a | ∃ e ∈ ds, e.ptr = a } := by
      ext a
      constructor
      · rintro ⟨⟨e, he, rfl⟩, hne⟩
        rcases List.mem_cons.mp he with rfl | he
        · exact absurd rfl hne
        · exact ⟨e, he, rfl⟩
      · rintro ⟨e, he, rfl⟩
        exact ⟨⟨e, List.mem_cons_of_mem d he, rfl⟩, (hlow e he).ne.symm⟩
    rw [hrest] at hindexed
    rw [List.map_cons, List.sum_cons] at htotal
    have hmod : (total + d.usable) % 2 ^ 64 = total + d.usable := Nat.mod_eq_of_lt (by omega)
    have hsize := hd.size
    unfold AllocaState.unindexLoop
    simp only [hfind, haddr, hsize, hinfo, hdelete, hmod, some_bind]
    cases ds with
    | nil =>
      rw [List.map_nil, List.sum_nil] at htotal
      rw [if_pos (by omega)]
      refine ⟨s1, rfl, ?_, hwords, hinserts⟩
      have hempty : { a | ∃ e ∈ ([] : List Chunk), e.ptr = a } = ∅ := by simp
      rwa [hempty] at hindexed
    | cons e es =>
      have he := (hds e (by simp)).pos
      rw [List.map_cons, List.sum_cons] at htotal
      rw [if_neg (by omega)]
      have hds' : ∀ f ∈ e :: es, s1.Unindexable begin bp f := by
        intro f hf
        have hf' := hds f (List.mem_cons_of_mem d hf)
        refine ⟨hf'.aligned, hf'.begin_le, hf'.lt, hf'.pos, ?_⟩
        rw [usableSize, hwords]
        exact hf'.size
      have hbits : ∀ f ∈ e :: es, (s.infos s₀.nextInfo).bitOf d.ptr + 1
          ≤ (s1.infos s₀.nextInfo).bitOf f.ptr := by
        intro f hf
        have hf' := hds f (List.mem_cons_of_mem d hf)
        have hltf := hlow f hf
        have hbd := MallocIndex.Bitmap.base_add_bitOf h.covers.dvd hd.aligned
          (h.covers.base_le hd.begin_le)
        have hbf := MallocIndex.Bitmap.base_add_bitOf h.covers.dvd hf'.aligned
          (h.covers.base_le hf'.begin_le)
        rw [h.covers.bitOf_eq hindexed.covers]
        simp only [mallocAlign] at hbd hbf
        omega
      have hfuel' : (s1.infos s₀.nextInfo).nwords * bitmapWordNbits
          < fuel + ((s.infos s₀.nextInfo).bitOf d.ptr + 1) := by
        rw [h.covers.nwords_eq hindexed.covers]
        omega
      have htotal' : total + d.usable + ((e :: es).map Chunk.usable).sum = n := by
        rw [List.map_cons, List.sum_cons]
        omega
      obtain ⟨s', hrun, hindexed', hwords', hinserts'⟩ :=
        ih hindexed (by simp) hds' hasc' hbits hfuel' htotal'
      refine ⟨s', ?_, hindexed', hwords'.trans hwords, hinserts'.trans hinserts⟩
      rw [hrun]
      rfl

/-! ### The cleanup -/

/-- What alloca has of other frames stays: records, infos, and the memory from `bp` on. -/
structure KeepsFrames (s₀ : AllocaState) (bp : Nat) (s : AllocaState) : Prop where
  records : ∀ n, s₀.table.InUse n →
    (s₀.table.bigAllocations n).suballocator = some allocaAllocator →
    (s.table.bigAllocations n).core = (s₀.table.bigAllocations n).core
      ∧ s.infoOf n = s₀.infoOf n
  memory : ∀ a, bp ≤ a → s.words a = s₀.words a ∧ s.inserts a = s₀.inserts a

section

variable (h : FrameStart env s₀ p lo counter bp)

include h

theorem KeepsFrames.of_infos
    (hrecords : ∀ n, s₀.table.InUse n → (s₀.table n).suballocator = some allocaAllocator →
      (s.table n).core = (s₀.table n).core)
    (hinfos : ∀ q, q ≠ s₀.nextInfo → s.infos q = s₀.infos q)
    (hmemory : ∀ a, bp ≤ a → s.words a = s₀.words a ∧ s.inserts a = s₀.inserts a) :
    KeepsFrames s₀ bp s := by
  refine ⟨fun n hn hsub => ⟨hrecords n hn hsub, ?_⟩, hmemory⟩
  have hprivate : (s.table n).suballocatorPrivate = (s₀.table n).suballocatorPrivate :=
    (congrArg (·.suballocatorPrivate) (hrecords n hn hsub) :)
  rw [infoOf, infoOf, hprivate]
  exact hinfos _ (h.infos n hn hsub).ne

theorem Ran.keepsFrames (hran : Ran env s₀ lo counter bp cs s) : KeepsFrames s₀ bp s := by
  cases hl : cs.getLast? with
  | none =>
    rw [hran.start (List.getLast?_eq_none_iff.mp hl)]
    exact ⟨fun n _ _ => ⟨rfl, rfl⟩, fun a _ => ⟨rfl, rfl⟩⟩
  | some c =>
    obtain ⟨b, hb⟩ := hran.indexed c hl
    exact KeepsFrames.of_infos h hb.framed.kept hb.others hran.above

theorem FrameStart.cleanup_empty (sp : Nat) :
    s₀.unindexStackObjectsCountedBy env counter sp = some (s₀, []) := by
  have hcounter := h.counter_le
  have hwf := h.space.wellFormed
  have hfind : s₀.table.findBigallocUnderPageindex counter stackframeAllocator = some 0 := by
    unfold findBigallocUnderPageindex
    rcases h.known with hbegin | ⟨h0, -⟩
    · have hx : counter ∈ s₀.table.addrs p :=
        ⟨hbegin, Nat.lt_of_lt_of_le (by omega) h.space.end_le⟩
      have h0 := hwf.pageindex_ne_zero h.space.inUse hx
      obtain ⟨hu, hxu⟩ := hwf.mem_addrs_pageindex h0
      obtain ⟨d, hd⟩ := hwf.links.exists_depth hu
      obtain ⟨n, hn, hcases⟩ := findBigallocRecursive_spec (m := false) hwf.links hu hxu hd
        (show nbigallocs ≤ d + nbigallocs by omega)
      have hn0 : n = 0 := hcases.resolve_right fun ⟨hnu, hxn, hm⟩ =>
        h.space.not_frame h.lo_le hbegin (by omega) hnu hxn hm
      rw [if_neg h0, hn, hn0]
    · rw [if_pos h0]
  unfold unindexStackObjectsCountedBy deleteFrame
  simp [hfind, h.zero, some_bind, ne_eq, Option.pure_def]

end

/-- `b` is the frame's bigalloc, and the bits set in its bitmap are the chunks'. -/
structure IndexesExactly (s : AllocaState) (counter : Nat) (cs : List Chunk) (b : Nat) : Prop where
  inUse : s.table.InUse b
  allocatedBy : (s.table.bigAllocations b).allocatedBy = some stackframeAllocator
  suballocator : (s.table.bigAllocations b).suballocator = some allocaAllocator
  counter_mem : counter ∈ s.table.addrs b
  base : (s.infoOf b).bitmapBaseAddr = roundDown (s.table.bigAllocations b).begin wordBytes
  marked : (s.infoOf b).marked = { a | ∃ c ∈ cs, c.ptr = a }

/-- The frame `b` of `s` is gone, with its bits, and no other bitmap has changed. -/
structure Cleared (s : AllocaState) (b : Nat) (s' : AllocaState) : Prop where
  gone : ¬ s'.table.InUse b
  marked : (s'.infos (s.table.bigAllocations b).suballocatorPrivate).marked = ∅
  others : ∀ q, q ≠ (s.table.bigAllocations b).suballocatorPrivate → s'.infos q = s.infos q

theorem FrameIndexed.indexesExactly
    (h : FrameIndexed env s₀ lo bp b begin { a | ∃ d ∈ cs, d.ptr = a } s) (h1 : begin ≤ counter)
    (h2 : counter < bp) : s.IndexesExactly counter cs b := by
  refine ⟨h.framed.inUse, h.framed.allocatedBy, h.suballocator, h.framed.mem_addrs h1 h2, ?_, ?_⟩
  · rw [h.infoOf_eq, h.framed.begin_eq]
    exact h.covers.base
  · rw [h.infoOf_eq]
    exact h.marked_eq

section

variable (hran : Ran env s₀ lo counter bp cs s) (hcs : FrameChunks env t p lo counter cs)
  (hsp : ∀ c ∈ cs, sp ≤ c.ptr)

include hran hcs hsp

theorem Ran.unindexable (hbp : counter < bp) (hwords : s'.words = s.words) :
    ∀ c ∈ cs.reverse, s'.Unindexable sp bp c := by
  intro c hc
  have hc := List.mem_reverse.mp hc
  have hfits := hcs.fits c hc
  have hle := hfits.le_counter
  have hsize := hfits.size
  simp only [sizeofInsert] at hsize
  refine ⟨hfits.aligned, hsp c hc, by omega, by omega, ?_⟩
  rw [usableSize, hwords]
  exact hran.sizes c hc

variable (hlast : cs.getLast? = some c)
  (hindexed : FrameIndexed env s₀ lo bp b c.ptr { a | ∃ d ∈ cs, d.ptr = a } s) (hlo : lo ≤ sp)

include hlast hindexed hlo

theorem Ran.unindexChunks (hbp : bp ≤ 2 ^ 64 - mallocAlign * bitmapWordNbits) (hcounter : counter < bp) :
    ∃ s', s.unindexChunks env b sp (s.words counter)
        = some (s', cs.reverse.map fun d => (d.ptr, d.usable))
      ∧ FrameIndexed env s₀ lo bp b sp ∅ s' ∧ s'.words = s.words ∧ s'.inserts = s.inserts := by
  obtain ⟨s1, hcover, hindexed1, hwords, hinserts⟩ :=
    hindexed.ensureArenaCoversAddr hlo (hsp c (List.mem_of_getLast? hlast))
  have hbase := hindexed1.covers.base_le le_rfl
  have hstart : sub64 sp (s1.infos s₀.nextInfo).bitmapBaseAddr / allocaAlign
      = (s1.infos s₀.nextInfo).bitOf sp := by
    rw [sub64, if_pos hbase]
    rfl
  have hne : cs.reverse ≠ [] := by
    intro hc
    rw [List.reverse_eq_nil_iff.mp hc] at hlast
    exact absurd hlast (by simp)
  have hset : { a | ∃ d ∈ cs, d.ptr = a } = { a | ∃ d ∈ cs.reverse, d.ptr = a } := by simp
  rw [hset] at hindexed1
  have hasc : cs.reverse.Pairwise fun c d => c.ptr < d.ptr := by
    refine List.pairwise_reverse.mpr (hcs.descending.imp fun {c d} hcd => ?_)
    rw [allocaHeaderSize] at hcd
    omega
  have hcount : 0 + (cs.reverse.map Chunk.usable).sum = s.words counter := by
    rw [hran.count, List.map_reverse, List.sum_reverse, Nat.zero_add]
  have hn : s.words counter < 2 ^ 64 := by
    obtain ⟨es, rfl⟩ := List.getLast?_eq_some_iff.mp hlast
    have hle := hcs.sum_add_le
    rw [hran.count]
    omega
  have hbits : ∀ d ∈ cs.reverse, (s1.infos s₀.nextInfo).bitOf sp
      ≤ (s1.infos s₀.nextInfo).bitOf d.ptr := fun d hd =>
    ArenaBitmapInfo.bitOf_mono (hsp d (List.mem_reverse.mp hd))
  obtain ⟨s', hrun, hindexed', hwords', hinserts'⟩ := hindexed1.unindexLoop hne
    (hran.unindexable hcs hsp hcounter hwords) hasc hbits
    (show _ < (s1.infos s₀.nextInfo).nwords * bitmapWordNbits + 1 + _ by omega) hcount hn
  refine ⟨s', ?_, hindexed', hwords'.trans hwords, hinserts'.trans hinserts⟩
  unfold AllocaState.unindexChunks
  simp only [hcover, some_bind, hindexed1.infoOf_eq, hindexed1.private_eq, hstart]
  exact hrun

theorem Ran.cleanup (h : FrameStart env s₀ p lo counter bp) :
    ∃ s', s.unindexStackObjectsCountedBy env counter sp
        = some (s', cs.reverse.map fun d => (d.ptr, d.usable))
      ∧ KeepsFrames s₀ bp s' ∧ s.Cleared b s' := by
  have hmem := List.mem_of_getLast? hlast
  have hfits := hcs.fits c hmem
  have hle := hfits.le_counter
  have hsize := hfits.size
  have hcounter := h.counter_le
  have hspc := hsp c hmem
  simp only [sizeofInsert] at hsize
  have hfind := hindexed.framed.find_under (x := counter) (by omega) (by omega)
  have hcount : s.words counter ≠ 0 := by
    obtain ⟨es, hes⟩ := List.getLast?_eq_some_iff.mp hlast
    rw [hran.count, hes, List.map_append, List.sum_append]
    simp only [List.map_cons, List.map_nil, List.sum_cons, List.sum_nil]
    omega
  obtain ⟨s1, hrun, hindexed1, hwords, hinserts⟩ := hran.unindexChunks hcs hsp hlast hindexed hlo
    h.space.lt (by omega)
  have hsane : bp - sp ≤ env.biggestSaneUserAlloc := by
    have := h.space.sane
    have := le_roundUp bp
    omega
  obtain ⟨t', hdel, hwf, hgone, hkept⟩ := hindexed1.framed.delete (x := counter) (by omega)
    (by omega) hsane
  have hb0 := hindexed.framed.inUse.ne_zero
  have hmemory : ∀ a, bp ≤ a → s1.words a = s₀.words a ∧ s1.inserts a = s₀.inserts a := by
    intro a ha
    rw [hwords, hinserts]
    exact hran.above a ha
  refine ⟨{ s1 with table := t' }, ?_, KeepsFrames.of_infos h hkept hindexed1.others hmemory, hgone,
    ?_, fun q hq => ?_⟩
  · unfold unindexStackObjectsCountedBy deleteFrame
    simp [hfind, hcount, hb0, hrun, hdel, some_bind, ne_eq, Option.map_some, Option.pure_def]
  · rw [hindexed.private_eq]
    exact hindexed1.marked_eq
  · rw [hindexed.private_eq] at hq
    exact (hindexed1.others q hq).trans (hindexed.others q hq).symm

end

/-- **The index of a frame is exact from its first chunk to its cleanup**: for every sequence of
chunks, one below the other, each notification returns, and the bits of the frame that are set are
those of the chunks so far.  The cleanup, from wherever the stack pointer is below the chunks,
returns, visits just them, in ascending order, with sizes that make up what the counter says, and
leaves no bit and no frame.  All that other frames have is as it was. -/
theorem frame_index_exact (env : Env) (s₀ : AllocaState) (p lo counter bp : Nat) (cs : List Chunk)
    (h : FrameStart env s₀ p lo counter bp)
    (hcs : FrameChunks env s₀.table p lo counter cs) :
    ∃ s, notifyChunks env counter bp s₀ cs = some s
      ∧ KeepsFrames s₀ bp s
      ∧ (cs = [] → s = s₀ ∧ ∀ sp, s.unindexStackObjectsCountedBy env counter sp = some (s, []))
      ∧ (cs ≠ [] → ∃ b, s.IndexesExactly counter cs b
        ∧ ∀ sp, lo ≤ sp → (∀ c ∈ cs, sp ≤ c.ptr) →
          ∃ s' visited, s.unindexStackObjectsCountedBy env counter sp = some (s', visited)
            ∧ visited = cs.reverse.map (fun c => (c.ptr, c.usable))
            ∧ (visited.map Prod.snd).sum = s.words counter
            ∧ s.Cleared b s' ∧ KeepsFrames s₀ bp s') := by
  obtain ⟨s, hrun, hran⟩ := h.run hcs
  refine ⟨s, hrun, hran.keepsFrames h, fun hnil => ?_, fun hne => ?_⟩
  · obtain rfl := hran.start hnil
    exact ⟨rfl, fun sp => h.cleanup_empty sp⟩
  · obtain ⟨c, hlast⟩ : ∃ c, cs.getLast? = some c :=
      ⟨cs.getLast hne, List.getLast?_eq_some_getLast hne⟩
    obtain ⟨b, hindexed⟩ := hran.indexed c hlast
    have hle := (hcs.fits c (List.mem_of_getLast? hlast)).le_counter
    have hcounter := h.counter_le
    refine ⟨b, hindexed.indexesExactly (by omega) (by omega), fun sp hlo hsp => ?_⟩
    obtain ⟨s', hclean, hkeeps, hcleared⟩ := hran.cleanup hcs hsp hlast hindexed hlo h
    refine ⟨s', _, hclean, rfl, ?_, hcleared, hkeeps⟩
    rw [hran.count, List.map_map, List.map_reverse, List.sum_reverse]
    rfl

/-! ### A frame with two chunks -/

/-- Two chunks, both below the mapping of the stack: the first is where the kernel has added to it. -/
def sampleChunks : List Chunk :=
  [{ ptr := 32768, requested := 100, usable := 112, caller := 1 },
    { ptr := 28672, requested := 0, usable := 16, caller := 2 }]

theorem sampleChunks_frameChunks {t : Table} (hfirst : t.initialStackBigalloc = 2)
    (hbegin : (t 2).begin = 40000) (hpage : t.pageindex 8 = 0) :
    FrameChunks alignedEnv t 2 20000 65200 sampleChunks := by
  refine ⟨fun c hc => ?_, ?_, fun c hc => .inr ?_, .inl rfl⟩
  · rcases List.mem_pair.mp hc with rfl | rfl
    · exact ⟨by decide, by decide, by decide, by decide, by decide⟩
    · exact ⟨by decide, by decide, by decide, by decide, by decide⟩
  · refine List.pairwise_pair.mpr ?_
    decide
  · obtain rfl : _ = c := Option.some.inj hc
    refine ⟨hfirst, hpage, .inl ?_, ?_, by decide⟩
    · rw [hbegin]
      decide
    · have hpages : List.range' (pagenum (roundUp 32768 pageSize))
          (pagenum 40000 - pagenum (roundUp 32768 pageSize)) = [8] := by decide
      simp only [pagesUnused, hbegin, hpages, List.all_cons, List.all_nil, hpage]
      decide

/-- The frame does not mind which stack is heard of first. -/
theorem FrameStart.setInitial (h : FrameStart env s p lo counter bp) (b : Nat) :
    FrameStart env { s with table := { s.table with initialStackBigalloc := b } } p lo counter bp := by
  obtain ⟨⟨hwf, hin, hend, hfree, ⟨a, ha, hext⟩, hwhole, hplain, hroom, hsane, hlt⟩, hknown, h1, h2, h3,
    h4, h5⟩ := h
  have hwf' : ({ s.table with initialStackBigalloc := b } : Table).WellFormed :=
    hwf.of_shape (fun _ => rfl) rfl rfl rfl
  refine ⟨⟨hwf', hin, hend, hfree, ⟨a, ha, ?_⟩, hwhole, hplain, hroom, hsane, hlt⟩, hknown, h1, h2, h3,
    h4, h5⟩
  exact hext.congr fun _ => ⟨rfl, rfl, rfl, rfl⟩

/-- The two chunks are indexed, and the cleanup visits them from the lower one up. -/
theorem frame_index_exact_sample : ∃ (s₀ s s' : AllocaState) (b : Nat),
    FrameStart alignedEnv s₀ 2 20000 65200 65280
    ∧ FrameChunks alignedEnv s₀.table 2 20000 65200 sampleChunks
    ∧ notifyChunks alignedEnv 65200 65280 s₀ sampleChunks = some s
    ∧ s.IndexesExactly 65200 sampleChunks b
    ∧ s.unindexStackObjectsCountedBy alignedEnv 65200 28000 = some (s', [(28672, 16), (32768, 112)])
    ∧ s.words 65200 = 128 ∧ s.Cleared b s' := by
  obtain ⟨used, t, -, hb, hpage, hstart⟩ := sampleStack_frameStart
  have hstart' := hstart.setInitial 2
  have hchunks := sampleChunks_frameChunks (t := { t with initialStackBigalloc := 2 }) rfl hb hpage
  obtain ⟨s, hrun, -, -, hframe⟩ :=
    frame_index_exact alignedEnv _ 2 20000 65200 65280 sampleChunks hstart' hchunks
  obtain ⟨b, hexact, hclean⟩ := hframe (by decide)
  obtain ⟨s', visited, hcleanup, rfl, hsum, hcleared, -⟩ := hclean 28000 (by decide) (by decide)
  exact ⟨_, s, s', b, hstart', hchunks, hrun, hexact, hcleanup, hsum.symm, hcleared⟩

end AllocaState

end Liballocs
