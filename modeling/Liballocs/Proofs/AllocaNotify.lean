/-
Notifications of alloca.

The first one of a frame makes its bigalloc and info, and later ones make them grow.  Either way the
frame then covers the chunk, which is inserted as into a heap.  `Ran` is what holds after any number of
them, and `Ran.snoc` is its step.
-/
import Liballocs.Proofs.AllocaFrame

namespace Liballocs.AllocaState

open Forest Function

open Table

variable {env : Env} {s s' s₀ s₁ : AllocaState} {b begin bp counter lo p ptr x : Nat}
  {t : Table} {c : Chunk} {addrs : Set Nat} {cs : List Chunk}

/-! ### One notification -/

/-- `s₁` is the state for inserting the chunk at `ptr`: the frame has an info, and covers the chunk.
-/
def Prepared (env : Env) (s : AllocaState) (ptr counter bp : Nat) (b : Nat) (s₁ : AllocaState) : Prop :=
  ∃ t s', s.table.stackframeFindOrCreateBigalloc env counter ptr bp = some (b, t)
    ∧ ({ s with table := t } : AllocaState).claimArena b = some s'
    ∧ s'.ensureArenaCoversAddr env b ptr = some s₁

theorem Prepared.notify_eq {requested caller info : Nat} {s2 : AllocaState}
    (h : Prepared env s ptr counter bp b s₁)
    (hinfo : s₁.arenaInfoForUserptr env allocaAllocator ptr = some (info, s2)) :
    s.allocaAllocatorNotify env ptr requested counter caller bp
      = s2.indexInsert env info ptr requested caller := by
  obtain ⟨t, s', hfind, hclaim, hcover⟩ := h
  unfold allocaAllocatorNotify
  simp [hfind, hclaim, hcover, hinfo, some_bind]

theorem claimArena_new (hsub : (s.table b).suballocator = none)
    (hprivate : (s.table b).suballocatorPrivate = 0) :
    s.claimArena b = some ((s.setSuballocator b allocaAllocator).newInfo b { bitmapBaseAddr := 0 }) := by
  have hprivate' : ((s.setSuballocator b allocaAllocator).table.bigAllocations b).suballocatorPrivate
      = 0 := by
    simp only [setSuballocator, Table.modify, if_true]
    exact hprivate
  unfold claimArena
  simp [hsub, Option.isSome_none, Bool.false_eq_true, hprivate']

theorem claimArena_again (hsub : (s.table b).suballocator = some allocaAllocator)
    (hprivate : (s.table b).suballocatorPrivate ≠ 0) : s.claimArena b = some s := by
  unfold claimArena
  simp [hsub, Option.isSome_some, ne_eq, not_true_eq_false, and_false, hprivate]

/-- **The first notification of a frame** finds nothing, and makes the frame an arena. -/
theorem prepared_first (h : StackSpace env s.table p lo bp) (hq : s.nextInfo ≠ 0) (hlo : lo ≤ ptr)
    (hp : (s.table p).begin ≤ ptr ∨ Claims env s.table p lo ptr) (hc : ptr ≤ counter)
    (hknown : KnownCounter env s.table p counter) (hbp : counter < bp) :
    ∃ b s₁, Prepared env s ptr counter bp b s₁ ∧ FrameIndexed env s lo bp b ptr ∅ s₁
      ∧ s₁.words = s.words ∧ s₁.inserts = s.inserts := by
  have hlt : ptr < bp := by omega
  obtain ⟨n1, t₁, hn1, hspace, hp, hin, hkept⟩ := h.reach hp hlt
  obtain ⟨b, t, hnew, hframed, hsub, hprivate⟩ := hspace.create hlo hp hlt
  obtain ⟨n2, hn2⟩ := hspace.findDeepestBigalloc (x := bp - 1) (by omega) (by omega)
  have hfind : s.table.stackframeFindOrCreateBigalloc env counter ptr bp = some (b, t) := by
    have hnone := h.find_frame_known (hlo.trans hc) hknown hbp
    unfold stackframeFindOrCreateBigalloc lookupBigallocFromRoot
    simp [hnone, hn1, hn2, hnew, some_bind, ne_eq]
  have hclaim := claimArena_new (s := { s with table := t }) hsub hprivate
  set s₁ := (({ s with table := t } : AllocaState).setSuballocator b allocaAllocator).newInfo b
    { bitmapBaseAddr := 0 } with hs1
  have hframed1 : Framed env s.table lo bp b ptr s₁.table :=
    ((hframed.modify fun _ => ⟨_, _, _, rfl⟩).modify fun _ => ⟨_, _, _, rfl⟩).of_before hin hkept
  have hself : (s₁.table b).suballocator = some allocaAllocator
      ∧ (s₁.table b).suballocatorPrivate = s.nextInfo := by
    simp [hs1, newInfo, setSuballocator, Table.modify, and_self]
  have hinfo : s₁.infoOf b = { bitmapBaseAddr := 0 } := by
    rw [infoOf, hself.2]
    exact update_self _ _ _
  have hcover : s₁.ensureArenaCoversAddr env b ptr = some (s₁.coverArena b) := by
    unfold ensureArenaCoversAddr preExtendTo
    rw [hself.2, if_neg hq, hinfo, if_neg fun hc => absurd hc.1 (Nat.lt_irrefl 0),
      hframed1.begin_eq, if_neg (Nat.lt_irrefl ptr)]
    rfl
  have hinfos : (s₁.coverArena b).infos = update s₁.infos s.nextInfo
      (({ bitmapBaseAddr := 0 } : ArenaBitmapInfo).reallocBitmapPrepend
        (divideRoundingUp ((roundUp bp wordBytes - roundDown ptr wordBytes) / allocaAlign)
          bitmapWordNbits) (roundDown ptr wordBytes)) := by
    simp only [coverArena, hinfo, hself.2, hframed1.begin_eq, hframed1.end_eq]
    rfl
  obtain ⟨hcovers, hmarked⟩ := ArenaBitmapInfo.coversRange_new hlt
  refine ⟨b, s₁.coverArena b, ⟨t, s₁, hfind, hclaim, hcover⟩,
    ⟨hframed1, hself.1, hself.2, hq, ?_, ?_, fun q hne => ?_⟩, rfl, rfl⟩
  · rw [hinfos, update_self]
    exact hcovers
  · rw [hinfos, update_self]
    exact hmarked
  · rw [hinfos, update_of_ne hne]
    exact update_of_ne hne _ _

/-- **A later notification** finds the frame and makes it grow. -/
theorem FrameIndexed.prepared (h : FrameIndexed env s₀ lo bp b begin addrs s) (hlo : lo ≤ ptr)
    (hptr : ptr < begin) (hc : begin ≤ counter) (hbp : counter < bp) :
    ∃ s₁, Prepared env s ptr counter bp b s₁ ∧ FrameIndexed env s₀ lo bp b ptr addrs s₁
      ∧ s₁.words = s.words ∧ s₁.inserts = s.inserts := by
  have hfind : s.table.stackframeFindOrCreateBigalloc env counter ptr bp = some (b, s.table) := by
    have hfound := h.framed.find_frame hc hbp
    unfold stackframeFindOrCreateBigalloc lookupBigallocFromRoot
    simp [hfound, some_bind, ne_eq, h.framed.inUse.ne_zero, Option.pure_def]
  have hclaim : s.claimArena b = some s := claimArena_again h.suballocator (by
    rw [h.private_eq]
    exact h.info_ne)
  obtain ⟨s₁, hcover, hindexed, hwords, hinserts⟩ := h.ensureArenaCoversAddr hlo hptr.le
  exact ⟨s₁, ⟨s.table, s, hfind, hclaim, hcover⟩, hindexed, hwords, hinserts⟩

/-- What a notification leaves behind, whether it was the first or not. -/
structure Notified (env : Env) (s₀ : AllocaState) (lo bp b : Nat) (addrs : Set Nat) (c : Chunk)
    (s s' : AllocaState) : Prop where
  indexed : FrameIndexed env s₀ lo bp b c.ptr (insert c.ptr addrs) s'
  words : s'.words = s.words
  inserts : s'.inserts = Function.update s.inserts (c.ptr + (c.usable - sizeofInsert))
    ((s.inserts (c.ptr + (c.usable - sizeofInsert))).setAllocSite c.caller)

theorem Prepared.notify (h : Prepared env s c.ptr counter bp b s₁)
    (hindexed : FrameIndexed env s₀ lo bp b c.ptr addrs s₁) (hwords : s₁.words = s.words)
    (hinserts : s₁.inserts = s.inserts) (hc : c.FitsFrame lo counter) (hbp : counter < bp)
    (hsize : s.usableSize c.ptr = c.usable)
    (hquiet : env.systrapIsInitialized = true ∨ 0 < c.requested) :
    ∃ s', s.allocaAllocatorNotify env c.ptr c.requested counter c.caller bp = some s'
      ∧ Notified env s₀ lo bp b addrs c s s' := by
  have hle := hc.le_counter
  have hfits : c.FitsFrame c.ptr bp := ⟨hc.aligned, le_rfl, by omega, hc.size, hc.small⟩
  have hinfo := hindexed.arenaInfoForUserptr (Nat.le_refl c.ptr) (by omega)
  have hsize1 : s₁.usableSize c.ptr = c.usable := by
    rw [usableSize, hwords]
    exact hsize
  obtain ⟨s', hrun, hindexed', hwords', hinserts'⟩ := hindexed.indexInsert hfits hsize1 hquiet
  refine ⟨s', (h.notify_eq hinfo).trans hrun, hindexed', hwords'.trans hwords, ?_⟩
  rw [hinserts', hinserts]

/-! ### The notifications of a frame -/

/-- One notification: the size is written and added to the counter, then the index is told. -/
def notifyChunk (env : Env) (counter bp : Nat) (s : AllocaState) (c : Chunk) : Option AllocaState :=
  (s.announce c.ptr c.usable counter).allocaAllocatorNotify env c.ptr c.requested counter c.caller bp

/-- The notifications of the chunks of a frame, in order. -/
def notifyChunks (env : Env) (counter bp : Nat) (s : AllocaState) (cs : List Chunk) :
    Option AllocaState :=
  cs.foldlM (notifyChunk env counter bp) s

/-- The frame up to `bp`, before any notification: its counter is zero, and infos will be new. -/
structure FrameStart (env : Env) (s : AllocaState) (p lo counter bp : Nat) : Prop where
  space : StackSpace env s.table p lo bp
  known : KnownCounter env s.table p counter
  lo_le : lo ≤ counter
  counter_le : counter + 8 ≤ bp
  zero : s.words counter = 0
  info_pos : 0 < s.nextInfo
  infos : ∀ n, s.table.InUse n → (s.table.bigAllocations n).suballocator = some allocaAllocator →
    (s.table.bigAllocations n).suballocatorPrivate < s.nextInfo

/-- Chunks of one frame in the order of their notifications, each below the one before with its size.
The first is in the part of the stack that is known already, or in what the kernel has added to it. -/
structure FrameChunks (env : Env) (t : Table) (p lo counter : Nat) (cs : List Chunk) : Prop where
  fits : ∀ c ∈ cs, c.FitsFrame lo counter
  descending : cs.Pairwise fun c d => d.ptr + d.usable + allocaHeaderSize ≤ c.ptr
  first : ∀ c ∈ cs.head?, (t.bigAllocations p).begin ≤ c.ptr ∨ Claims env t p lo c.ptr
  quiet : env.systrapIsInitialized = true ∨ ∀ c ∈ cs, 0 < c.requested

section

variable (h : FrameChunks env t p lo counter (cs ++ [c]))

include h

theorem FrameChunks.init :
    FrameChunks env t p lo counter cs := by
  refine ⟨fun d hd => h.fits d (List.mem_append_left _ hd), (List.pairwise_append.mp h.descending).1,
    fun d hd => h.first d ?_, h.quiet.imp_right fun hq d hd => hq d (List.mem_append_left _ hd)⟩
  cases cs with
  | nil => exact absurd hd (by simp)
  | cons e es => exact hd

theorem FrameChunks.sum_add_le :
    ((cs ++ [c]).map Chunk.usable).sum + c.ptr ≤ counter := by
  induction cs using List.reverseRecOn generalizing c with
  | nil =>
    have hle := (h.fits c (by simp)).le_counter
    simp only [List.nil_append, List.map_cons, List.map_nil, List.sum_cons, List.sum_nil]
    omega
  | append_singleton es d ih =>
    have hle := ih h.init
    have hd := (List.pairwise_append.mp h.descending).2.2 d (by simp) c (by simp)
    simp only [List.map_append, List.sum_append, List.map_cons, List.map_nil, List.sum_cons,
      List.sum_nil, allocaHeaderSize] at hle hd ⊢
    omega

end

/-- What holds after the notifications of some chunks: the counter has the sum of their sizes, the
memory above the frame is untouched, and once there is a chunk, just the chunks are indexed. -/
structure Ran (env : Env) (s₀ : AllocaState) (lo counter bp : Nat) (cs : List Chunk)
    (s : AllocaState) : Prop where
  sizes : ∀ c ∈ cs, s.usableSize c.ptr = c.usable
  count : s.words counter = (cs.map Chunk.usable).sum
  above : ∀ a, bp ≤ a → s.words a = s₀.words a ∧ s.inserts a = s₀.inserts a
  start : cs = [] → s = s₀
  indexed : ∀ c ∈ cs.getLast?, ∃ b, FrameIndexed env s₀ lo bp b c.ptr { a | ∃ d ∈ cs, d.ptr = a } s

theorem announce_words (hne : c.ptr - 8 ≠ counter) (hsum : s.words counter + c.usable < 2 ^ 64) :
    (s.announce c.ptr c.usable counter).words = update (update s.words (c.ptr - 8) c.usable) counter
        (s.words counter + c.usable) := by
  unfold announce setWord
  dsimp only
  rw [update_of_ne hne.symm, Nat.mod_eq_of_lt hsum]

/-- The frame is made ready for a chunk below the others, be it the first or not. -/
theorem Ran.exists_prepared (hran : Ran env s₀ lo counter bp cs s)
    (h : FrameStart env s₀ p lo counter bp) (hcs : FrameChunks env t p lo counter cs)
    (hlo : lo ≤ ptr) (hfirst : cs = [] → (s₀.table p).begin ≤ ptr ∨ Claims env s₀.table p lo ptr)
    (hbelow : ∀ d ∈ cs, ptr < d.ptr) (hptr : ptr ≤ counter) (htable : s'.table = s.table)
    (hinfos : s'.infos = s.infos) (hnext : s'.nextInfo = s.nextInfo) :
    ∃ b s₁, Prepared env s' ptr counter bp b s₁
      ∧ FrameIndexed env s₀ lo bp b ptr { a | ∃ d ∈ cs, d.ptr = a } s₁
      ∧ s₁.words = s'.words ∧ s₁.inserts = s'.inserts := by
  have hcounter := h.counter_le
  cases hl : cs.getLast? with
  | none =>
    obtain rfl : cs = [] := List.getLast?_eq_none_iff.mp hl
    obtain rfl := hran.start rfl
    have hspace : StackSpace env s'.table p lo bp := htable ▸ h.space
    have hempty : { a | ∃ d ∈ ([] : List Chunk), d.ptr = a } = ∅ := by simp
    obtain ⟨b, s₁, hprep, hindexed, hwords, hinserts⟩ := prepared_first hspace
      (by rw [hnext]; exact h.info_pos.ne') hlo (htable ▸ hfirst rfl) hptr (htable ▸ h.known)
      (show counter < bp by omega)
    refine ⟨b, s₁, hprep, ?_, hwords, hinserts⟩
    rw [hempty]
    exact hindexed.of_start htable hinfos hnext
  | some d =>
    have hd := List.mem_of_getLast? hl
    have hle := (hcs.fits d hd).le_counter
    obtain ⟨b, hindexed⟩ := hran.indexed d hl
    obtain ⟨s₁, hprep, hindexed1, hwords, hinserts⟩ :=
      (hindexed.of_eq htable hinfos).prepared hlo (hbelow d hd) (show d.ptr ≤ counter by omega)
        (by omega)
    exact ⟨b, s₁, hprep, hindexed1, hwords, hinserts⟩

theorem Ran.snoc (h : Ran env s₀ lo counter bp cs s)
    (hcs : FrameChunks env t p lo counter (cs ++ [c])) (hcounter : counter + 8 ≤ bp)
    (hbp : bp ≤ 2 ^ 64 - mallocAlign * bitmapWordNbits)
    (hprep : Prepared env (s.announce c.ptr c.usable counter) c.ptr counter bp b s₁)
    (hindexed : FrameIndexed env s₀ lo bp b c.ptr { a | ∃ d ∈ cs, d.ptr = a } s₁)
    (hwords : s₁.words = (s.announce c.ptr c.usable counter).words)
    (hinserts : s₁.inserts = s.inserts) :
    ∃ s', notifyChunk env counter bp s c = some s' ∧ Ran env s₀ lo counter bp (cs ++ [c]) s' := by
  have hc := hcs.fits c (by simp)
  have hsz := hc.size
  have hroom := hcs.sum_add_le
  simp only [sizeofInsert] at hsz
  have hsum : s.words counter + c.usable = ((cs ++ [c]).map Chunk.usable).sum := by
    rw [h.count]
    simp
  have hann : (s.announce c.ptr c.usable counter).words
      = update (update s.words (c.ptr - 8) c.usable) counter
        (s.words counter + c.usable) := announce_words (by omega) (by omega)
  have hquiet : env.systrapIsInitialized = true ∨ 0 < c.requested :=
    hcs.quiet.imp_right fun hq => hq c (by simp)
  have hsize : (s.announce c.ptr c.usable counter).usableSize c.ptr = c.usable := by
    rw [usableSize, hann, update_of_ne (by omega), update_self]
  obtain ⟨s', hrun, hnotified⟩ := hprep.notify hindexed hwords hinserts hc (by omega) hsize hquiet
  have hw := hnotified.words.trans hann
  have hdesc := (List.pairwise_append.mp hcs.descending).2.2
  refine ⟨s', hrun, fun d hd => ?_, ?_, fun a ha => ⟨?_, ?_⟩, fun hc => absurd hc (by simp),
    fun d hd => ⟨b, ?_⟩⟩
  · have hdle := (hcs.fits d hd).le_counter
    rw [usableSize, hw, update_of_ne (by omega)]
    rcases List.mem_append.mp hd with hd | hd
    · have hbelow := hdesc d hd c (by simp)
      rw [allocaHeaderSize] at hbelow
      rw [update_of_ne (by omega)]
      exact h.sizes d hd
    · obtain rfl := List.mem_singleton.mp hd
      exact update_self _ _ _
  · rw [hw, update_self, hsum]
  · rw [hw, update_of_ne (by omega), update_of_ne (by omega)]
    exact (h.above a ha).1
  · have hne : a ≠ c.ptr + (c.usable - sizeofInsert) := by omega
    rw [hnotified.inserts, update_of_ne hne]
    exact (h.above a ha).2
  · have hlast : c = d := by simpa using hd
    have hset : { a | ∃ e ∈ cs ++ [c], e.ptr = a } = insert c.ptr { a | ∃ e ∈ cs, e.ptr = a } := by
      ext a
      simp [or_comm, eq_comm]
    rw [← hlast, hset]
    exact hnotified.indexed

/-- **Every sequence of notifications returns**, and its chunks' bits are set. -/
theorem FrameStart.run (h : FrameStart env s₀ p lo counter bp)
    (hcs : FrameChunks env s₀.table p lo counter cs) :
    ∃ s, notifyChunks env counter bp s₀ cs = some s ∧ Ran env s₀ lo counter bp cs s := by
  have hcounter := h.counter_le
  induction cs using List.reverseRecOn with
  | nil =>
    exact ⟨s₀, rfl, fun c hc => absurd hc (by simp), h.zero, fun a _ => ⟨rfl, rfl⟩, fun _ => rfl,
      fun c hc => absurd hc (by simp)⟩
  | append_singleton cs c ih =>
    obtain ⟨s, hrun, hran⟩ := ih hcs.init
    have hc := hcs.fits c (by simp)
    have hcle := hc.le_counter
    have hsz := hc.size
    have hbelow : ∀ d ∈ cs, c.ptr < d.ptr := by
      intro d hd
      have hcd := (List.pairwise_append.mp hcs.descending).2.2 d hd c (by simp)
      rw [allocaHeaderSize] at hcd
      omega
    have hfirst : cs = [] → (s₀.table p).begin ≤ c.ptr ∨ Claims env s₀.table p lo c.ptr := by
      intro hnil
      exact hcs.first c (by simp [hnil])
    obtain ⟨b, s₁, hprep, hindexed, hwords, hinserts⟩ :=
      hran.exists_prepared h hcs.init hc.lo_le hfirst hbelow (by omega)
        (show (s.announce c.ptr c.usable counter).table = s.table from rfl) rfl rfl
    obtain ⟨s', hs', hran'⟩ := hran.snoc hcs hcounter h.space.lt hprep hindexed hwords hinserts
    refine ⟨s', ?_, hran'⟩
    rw [notifyChunks, List.foldlM_append]
    rw [notifyChunks] at hrun
    simp [hrun, hs']

/-! ### A stack -/

/-- A mapping, and in it a stack that begins in the middle of a page. -/
def sampleStack : Option (List Nat × Table) :=
  createAll alignedEnv [] {} [{ ptr := 36864, size := 28672, allocatedBy := some .mmap },
    { ptr := 40000, size := 25536, maybeParent := 1, allocatedBy := some .stack }]

theorem sampleStack_frameStart : ∃ used t, sampleStack = some (used, t) ∧ (t 2).begin = 40000
    ∧ t.pageindex 8 = 0
    ∧ FrameStart alignedEnv { table := t } 2 20000 65200 65280 := by
  obtain ⟨used, t, ht, hu, hin, ⟨hup1, hal1, hsub1, hb1⟩, ⟨hup2, hal2, hsub2, hb2, he2⟩, hroom,
      hpages⟩ :
      ∃ used t, sampleStack = some (used, t) ∧ used = [2, 1] ∧ t.InUse 2
      ∧ (t.up 1 = 0 ∧ (t 1).allocatedBy = some .mmap
        ∧ (t 1).suballocator = none ∧ (t 1).begin = 36864)
      ∧ (t.up 2 = 1 ∧ (t 2).allocatedBy = some .stack
        ∧ (t 2).suballocator = none ∧ (t 2).begin = 40000
        ∧ (t 2).end_ = 65536)
      ∧ t.findFreeBigalloc.isSome ∧ t.pageindex 8 = 0 := by
    decide +kernel
  obtain ⟨hwf, -, hused, -⟩ := aligned_empty.createAll_wellFormed ht
  have honly : ∀ n, t.InUse n → n = 2 ∨ n = 1 := by
    intro n hn
    have := hused n hn
    rwa [hu, List.mem_pair] at this
  have habove : ∀ n, Below t.up 2 n → n = 2 ∨ n = 1 ∨ n = 0 := by
    intro n hn
    rcases Forest.below_iff.mp hn with hc | hn
    · exact .inl hc.symm
    rw [hup2] at hn
    rcases Forest.below_iff.mp hn with hc | hn
    · exact .inr (.inl hc.symm)
    rw [hup1] at hn
    exact .inr (.inr (eq_null_of_below hwf.links.up_zero hn))
  have hspace : StackSpace alignedEnv t 2 20000 65280 := by
    refine ⟨hwf, hin, by rw [he2]; decide, fun n hn hup => ?_, ⟨.stack, hal2, ?_⟩,
      fun n a hn hup ha => ?_, fun n hn hn0 => ?_, hroom, by decide, by decide⟩
    · rcases honly n hn with rfl | rfl
      · rw [hup2] at hup
        exact absurd hup (by decide)
      · rw [hup1] at hup
        exact absurd hup (by decide)
    · exact preExtendable_of_two hup1 hup2 (by decide) hal1 honly (by decide)
        (by rw [hb2]; decide) (by rw [hb1]; decide)
    · rcases habove n hn with rfl | rfl | rfl
      · rw [hup2] at hup
        exact absurd hup (by decide)
      · obtain rfl := Option.mem_unique hal1 ha
        decide
      · rw [hwf.links.null] at ha
        exact absurd ha (by simp)
    · unfold Matches
      rcases habove n hn with rfl | rfl | rfl
      · rw [hal2, hsub2]
        decide
      · rw [hal1, hsub1]
        decide
      · exact absurd rfl hn0
  refine ⟨used, t, ht, hb2, hpages, hspace, .inl (by rw [hb2]; decide), by decide, by decide, rfl,
    Nat.one_pos, fun n hn hsub => ?_⟩
  rcases honly n hn with rfl | rfl
  · rw [hsub2] at hsub
    exact absurd hsub (by decide)
  · rw [hsub1] at hsub
    exact absurd hsub (by decide)

end Liballocs.AllocaState
