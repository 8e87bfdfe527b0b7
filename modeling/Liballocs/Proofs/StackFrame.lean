/-
The bigalloc of a stack frame.

A frame becomes a bigalloc under the record of the stack when it is first heard of, and then grows
downwards.  `StackSpace` is the table before, with regard to all addresses the frame may take, and
`Framed` the table from then on.  Other frames stay as they are.
-/
import Liballocs.Alloca
import Liballocs.Proofs.Arena
import Liballocs.Proofs.PreExtend

namespace Liballocs.Table

open Forest

variable {env : Env} {t t' t₀ : Table} {b begin bp lo n p ptr x y : Nat}

/-! ### What is above a frame -/

/-- The top-level record above `p` is made of whole pages, whatever it is asked for. -/
def WholePages (env : Env) (t : Table) (p : Nat) : Prop :=
  ∀ n a, Below t.up p n → t.up n = 0 → (t.bigAllocations n).allocatedBy = some a →
    env.minAlignment a ≠ 0 ∧ pageSize ∣ env.minAlignment a

/-- From `p` upwards there is no frame, and nothing that alloca has to do with. -/
def Plain (t : Table) (p : Nat) : Prop :=
  ∀ n, Below t.up p n → n ≠ 0 → ¬ t.Matches stackframeAllocator false n
    ∧ ¬ t.Matches allocaAllocator false n ∧ ¬ t.Matches allocaAllocator true n

/-- What is asked of a top-level record above `b` is page-aligned. -/
theorem WholePages.asked (h : WholePages env t (t.up b)) (hup : t.up b ≠ 0)
    (hasked : Asked env t b lo n x) (hn : t.up n = 0) : PageAligned x := by
  rcases hasked.cases_parent with ⟨rfl, -⟩ | ⟨-, a, ha, hasked⟩
  · exact absurd hn hup
  · have hal : ∃ a x', (t n).allocatedBy = some a ∧ x = alignDown env a x' := by
      cases hasked with
      | self => exact ⟨a, lo, ha, rfl⟩
      | up _ _ ha' => exact ⟨_, _, ha', rfl⟩
    obtain ⟨a', x', ha', rfl⟩ := hal
    obtain ⟨h0, hdvd⟩ := h n a' hasked.ancestor hn ha'
    rw [alignDown, if_pos h0]
    exact hdvd.trans (Nat.dvd_mul_left _ _)

theorem WholePages.congr (h : WholePages env t p) (hbelow : ∀ n, Below t'.up p n → Below t.up p n)
    (hsame : ∀ n, Below t.up p n → t'.up n = t.up n ∧ (t' n).allocatedBy = (t n).allocatedBy) :
    WholePages env t' p := by
  intro n a hn hup ha
  obtain ⟨h1, h2⟩ := hsame n (hbelow n hn)
  exact h n a (hbelow n hn) (h1 ▸ hup) (h2 ▸ ha)

theorem Plain.congr (h : Plain t p) (hbelow : ∀ n, Below t'.up p n → Below t.up p n)
    (hsame : ∀ n, Below t.up p n → (t' n).allocatedBy = (t n).allocatedBy
        ∧ (t' n).suballocator = (t n).suballocator) : Plain t' p := by
  intro n hn hn0
  obtain ⟨h1, h2⟩ := hsame n (hbelow n hn)
  have hplain := h n (hbelow n hn) hn0
  unfold Matches at hplain ⊢
  rwa [h1, h2]

/-- Before the frame: from `lo` up to `bp` there is nothing inside the stack `p`, which can be
extended to these addresses. -/
structure StackSpace (env : Env) (t : Table) (p lo bp : Nat) : Prop where
  wellFormed : t.WellFormed
  inUse : t.InUse p
  end_le : bp ≤ (t.bigAllocations p).end_
  free : ∀ n, t.InUse n → t.up n = p →
    (t.bigAllocations n).end_ ≤ lo ∨ bp ≤ (t.bigAllocations n).begin
  extendable : ∃ a, (t.bigAllocations p).allocatedBy = some a
    ∧ PreExtendable env t p (alignDown env a lo)
  wholePages : WholePages env t p
  plain : Plain t p
  room : t.findFreeBigalloc.isSome
  sane : roundUp bp pageSize - lo ≤ env.biggestSaneUserAlloc
  lt : bp ≤ 2 ^ 64 - mallocAlign * bitmapWordNbits

/-- The stack allocator takes the address, which is not indexed, for a part of the stack `p` that the
kernel has added: it is near enough, and no page up to the stack is indexed. -/
structure Claims (env : Env) (t : Table) (p lo ptr : Nat) : Prop where
  first : t.initialStackBigalloc = p
  unindexed : t.pageindex (pagenum ptr) = 0
  near : ((t.bigAllocations p).begin > ptr
      ∧ (t.bigAllocations p).begin - ptr < guessSaneMaxStackDelta env)
    ∨ ((t.bigAllocations p).end_ > ptr
      ∧ (t.bigAllocations p).end_ - ptr < guessSaneMaxStackSize env)
  unused : t.pagesUnused (roundUp ptr pageSize) (t.bigAllocations p).begin = true
  lo_le : lo ≤ roundDown ptr pageSize

/-- The frame's counter is in the part of the stack that is known, or not indexed at all. -/
def KnownCounter (env : Env) (t : Table) (p counter : Nat) : Prop :=
  (t.bigAllocations p).begin ≤ counter
    ∨ (t.pageindex (pagenum counter) = 0 ∧ env.systrapIsInitialized = true)

/-- The frame is the record `b`, from `begin` up to `bp`.  What alloca had in `t₀` stays. -/
structure Framed (env : Env) (t₀ : Table) (lo bp b begin : Nat) (t : Table) : Prop where
  wellFormed : t.WellFormed
  inUse : t.InUse b
  nested : t.up b ≠ 0
  allocatedBy : (t.bigAllocations b).allocatedBy = some stackframeAllocator
  begin_eq : (t.bigAllocations b).begin = begin
  end_eq : (t.bigAllocations b).end_ = bp
  end_le : bp ≤ 2 ^ 64 - mallocAlign * bitmapWordNbits
  childless : ∀ c, t.up c ≠ b
  plain : Plain t (t.up b)
  extendable : PreExtendable env t b lo
  wholePages : WholePages env t (t.up b)
  fresh : ¬ t₀.InUse b
  only : ∀ n, t.InUse n → t₀.InUse n ∨ n = b
  kept : ∀ n, t₀.InUse n → (t₀.bigAllocations n).suballocator = some allocaAllocator →
    (t.bigAllocations n).core = (t₀.bigAllocations n).core

/-! ### The frame comes into being -/

namespace StackSpace

section

variable (h : StackSpace env t p lo bp)
include h

theorem lo_ne_zero : lo ≠ 0 := by
  obtain ⟨a, -, hext⟩ := h.extendable
  have h0 := hext.positive p _ .self
  have hle : alignDown env a lo ≤ lo := alignDown_le a lo
  omega

theorem not_mem_child (hlo : lo ≤ x) (hx : x < bp) :
    ∀ c, t.InUse c → t.up c = p → x ∉ t.addrs c := by
  intro c hc hup hmem
  have hfree := h.free c hc hup
  obtain ⟨h1, h2⟩ := hmem
  omega

theorem not_frame (hlo : lo ≤ x) (hp : (t p).begin ≤ x) (hx : x < bp)
    (hn : t.InUse n) (hxn : x ∈ t.addrs n) : ¬ t.Matches stackframeAllocator false n := by
  have hbelow := h.wellFormed.laminar_addrs.below_of_no_child hn h.inUse hxn
    ⟨hp, hx.trans_le h.end_le⟩ (h.not_mem_child hlo hx)
  exact (h.plain n hbelow hn.ne_zero).1

theorem find_frame (hlo : lo ≤ x) (hp : (t p).begin ≤ x) (hx : x < bp) :
    t.findBigallocFromTop env x stackframeAllocator false = some (0, t) := by
  obtain ⟨n, hn, hcases⟩ := h.wellFormed.findBigallocFromEntry_spec stackframeAllocator false x
  have hn0 : n = 0 := by
    rcases hcases with hc | ⟨hu, hxn, hm⟩
    · exact hc
    · exact absurd hm (h.not_frame hlo hp hx hu hxn)
  subst hn0
  have h0 := h.wellFormed.pageindex_ne_zero h.inUse ⟨hp, hx.trans_le h.end_le⟩
  unfold findBigallocFromTop
  rw [if_neg fun hc => h0 hc.1, hn]
  rfl

/-- A lookup of an address that is not indexed finds no frame. -/
theorem find_frame_unindexed (h0 : t.pageindex (pagenum x) = 0)
    (htraps : env.systrapIsInitialized = true) :
    t.findBigallocFromTop env x stackframeAllocator false = some (0, t) := by
  obtain ⟨n, hn, hcases⟩ := h.wellFormed.findBigallocFromEntry_spec stackframeAllocator false x
  have hn0 : n = 0 := hcases.resolve_right fun ⟨hu, hxn, _⟩ =>
    h.wellFormed.pageindex_ne_zero hu hxn h0
  subst hn0
  unfold findBigallocFromTop
  rw [if_neg (by simp [htraps]), hn]
  rfl

theorem find_frame_known (hlo : lo ≤ x) (hp : KnownCounter env t p x) (hx : x < bp) :
    t.findBigallocFromTop env x stackframeAllocator false = some (0, t) := by
  rcases hp with hp | ⟨h0, htraps⟩
  · exact h.find_frame hlo hp hx
  · exact h.find_frame_unindexed h0 htraps

theorem validRequest (hlo : lo ≤ ptr) (hp : (t p).begin ≤ ptr) (hbp : ptr < bp) :
    t.ValidRequest { ptr := ptr, size := sub64 bp ptr, allocatedBy := some stackframeAllocator } p := by
  have hsize : ptr + sub64 bp ptr = bp := by
    rw [sub64, if_pos hbp.le]
    omega
  have hlo0 := h.lo_ne_zero
  refine ⟨show 0 < ptr by omega, .inl rfl, ?_, fun _ => ⟨h.inUse, hp, ?_⟩, fun n hn hup => ?_,
    fun hp0 => absurd hp0 h.inUse.ne_zero⟩
  · show ptr < ptr + sub64 bp ptr
    rwa [hsize]
  · show ptr + sub64 bp ptr ≤ _
    rw [hsize]
    exact h.end_le
  · have hfree := h.free n hn hup
    show _ ≤ ptr ∨ ptr + sub64 bp ptr ≤ _
    rw [hsize]
    omega

theorem sanePages (hx : x ≤ bp) : SanePages env (roundUp lo pageSize) (roundUp x pageSize) := by
  refine (pageDist_mono_right (roundUp_mono pageSize hx)).trans ?_
  have hsane := h.sane
  have hle : pagenum (roundUp bp pageSize)
      ≤ pagenum (roundUp lo pageSize) + env.biggestSaneUserAlloc / 2 ^ 12 := by
    simp only [pagenum, roundUp, pageSize] at hsane ⊢
    omega
  rw [Nat.shiftRight_eq_div_pow]
  simp only [pageDist, logPageSize]
  split <;> omega

theorem above_ne (hb : ¬ t.InUse b) (hb0 : b ≠ 0) (hn : Below t.up p n) : n ≠ b := by
  intro hc
  subst hc
  exact hb (h.wellFormed.links.inUse_of_below h.inUse hn hb0)

/-- With a new record for the frame, the stack is as extendable as before. -/
theorem preExtendable_added (hb : ¬ t.InUse b) (hbu : t'.InUse b)
    (hkeep : ∀ n, n ≠ b → (t' n).core = (t n).core)
    (hup : t'.up b = p) (hbegin : (t' b).begin ≤ bp) : PreExtendable env t' b lo := by
  obtain ⟨a, ha, hext⟩ := h.extendable
  have habove := fun n => h.above_ne hb hbu.ne_zero (n := n)
  have hal : ∀ n, n ≠ b → (t' n).allocatedBy = (t n).allocatedBy := by
    intro n hn
    exact (congrArg (·.allocatedBy) (hkeep n hn) :)
  have hold : ∀ n, n ≠ b → (t' n).begin = (t n).begin
      ∧ (t' n).end_ = (t n).end_ ∧ t'.up n = t.up n := by
    intro n hn
    obtain ⟨h1, h2⟩ := bounds_congr (hkeep n hn)
    exact ⟨h1, h2, up_congr (hkeep n hn)⟩
  have hpb : p ≠ b := habove p (Below.refl t.up p)
  have hasked : ∀ n x, Asked env t' b lo n x →
      (n = b ∧ x = lo) ∨ n ≠ b ∧ Asked env t p (alignDown env a lo) n x := by
    intro n x hx
    rcases hx.cases_parent with hc | ⟨-, a', ha', hx⟩
    · exact .inl hc
    · rw [hup] at ha' hx
      rw [hal p hpb, ha, Option.some.injEq] at ha'
      subst ha'
      have hx' := hx.congr fun m hm => ⟨(hold m (habove m hm)).2.2, hal m (habove m hm)⟩
      exact .inr ⟨habove n hx'.ancestor, hx'⟩
  refine ⟨fun n x hx hn => ?_, fun n x hx => ?_, fun n x hx m hm hupm hne => ?_, fun n x hx => ?_⟩
  · rcases hasked n x hx with ⟨rfl, -⟩ | ⟨hnb, hx'⟩
    · rw [hup, hal p hpb, ha]
      rfl
    · have hupn := (hold n hnb).2.2
      have hn' := habove _ (hx'.ancestor.trans (Below.step (Below.refl t.up _)))
      rw [hupn] at hn ⊢
      rw [hal _ hn']
      exact hext.allocated n x hx' hn
  · rcases hasked n x hx with ⟨-, rfl⟩ | ⟨-, hx'⟩
    · exact h.lo_ne_zero
    · exact hext.positive n x hx'
  · rcases hasked n x hx with ⟨rfl, rfl⟩ | ⟨hnb, hx'⟩
    · have hm' := (inUse_congr (hkeep m hne)).mp hm
      obtain ⟨h1, h2, h3⟩ := hold m hne
      have hfree := h.free m hm' (by rw [← h3, hupm, hup])
      rw [h1, h2]
      omega
    · have hn' := h.wellFormed.links.inUse_of_below h.inUse hx'.ancestor
        (hx'.ne_zero h.inUse.ne_zero)
      have hupn := (hold n hnb).2.2
      have hmb : m ≠ b := by
        intro hc
        subst hc
        rw [hup, hupn] at hupm
        exact h.wellFormed.links.not_below_up hn' (hupm ▸ hx'.ancestor)
      obtain ⟨h1, h2, h3⟩ := hold m hmb
      rw [h1, h2, (hold n hnb).1]
      exact hext.free n x hx' m ((inUse_congr (hkeep m hmb)).mp hm) (by rw [← h3, hupm, hupn]) hne
  · rcases hasked n x hx with ⟨rfl, rfl⟩ | ⟨hnb, hx'⟩
    · exact h.sanePages hbegin
    · rw [(hold n hnb).1]
      exact hext.sane n x hx'

theorem framed (hb : ¬ t.InUse b) (hwf : t'.WellFormed) (hrec : (t' b).core
      = { begin := ptr, end_ := bp, parent := p, allocatedBy := some stackframeAllocator })
    (hbu : t'.InUse b) (hkeep : ∀ n, n ≠ b → (t' n).core = (t n).core)
    (hchild : ∀ c, t'.up c ≠ b) (hbp : ptr < bp) : Framed env t lo bp b ptr t' := by
  have hup : t'.up b = p := (congrArg (·.parent) hrec :)
  have hbegin : (t' b).begin = ptr := (congrArg (·.begin) hrec :)
  have hend := congrArg (·.end_) hrec
  have hal := congrArg (·.allocatedBy) hrec
  have habove := fun n => h.above_ne hb hbu.ne_zero (n := n)
  have hups : ∀ n, Below t.up p n → t'.up n = t.up n := fun n hn => up_congr (hkeep n (habove n hn))
  have hbelow : ∀ n, Below t'.up p n → Below t.up p n := by
    intro n hn
    refine (below_congr (P := (Below t.up p ·)) (fun x hx => ⟨hups x hx, ?_⟩)
      (Below.refl t.up p)).mp hn
    exact hx.trans (Below.step (Below.refl t.up _))
  have hals : ∀ n, Below t.up p n → (t' n).allocatedBy = (t n).allocatedBy
        ∧ (t' n).suballocator = (t n).suballocator := by
    intro n hn
    have h1 := congrArg (·.allocatedBy) (hkeep n (habove n hn))
    have h2 := congrArg (·.suballocator) (hkeep n (habove n hn))
    exact ⟨h1, h2⟩
  refine ⟨hwf, hbu, by rw [hup]; exact h.inUse.ne_zero, hal, hbegin, hend, h.lt, hchild, ?_, ?_, ?_, hb,
    fun n hn => ?_, fun n hn _ => hkeep n fun hc => hb (hc ▸ hn)⟩
  · rw [hup]
    exact h.plain.congr hbelow hals
  · exact h.preExtendable_added hb hbu hkeep hup (by rw [hbegin]; exact hbp.le)
  · rw [hup]
    exact h.wholePages.congr hbelow fun n hn => ⟨hups n hn, (hals n hn).1⟩
  · by_cases hnb : n = b
    · exact .inr hnb
    · exact .inl ((inUse_congr (hkeep n hnb)).mp hn)

/-- What is asked of a top-level record when the stack itself is extended by whole pages. -/
theorem asked_aligned (hlo : pageSize ∣ x) (hasked : Asked env t p x n y) (hn : t.up n = 0) :
    PageAligned y := by
  rcases hasked.cases_parent with ⟨rfl, rfl⟩ | ⟨hup, -⟩
  · exact hlo
  · refine WholePages.asked (fun m a hm => h.wholePages m a ?_) hup hasked hn
    exact Below.step hm

/-- **The stack grows over an address that it claims**, and the table is as before in all that the
frame needs. -/
theorem claim (hc : Claims env t p lo ptr) : ∃ t', t.notifyUnindexedAddress env ptr = some (true, t')
      ∧ StackSpace env t' p lo bp ∧ (t' p).begin ≤ ptr ∧ (∀ n, t'.InUse n ↔ t.InUse n)
      ∧ ∀ n, t.InUse n → (t n).suballocator = some allocaAllocator → t' n = t n := by
  obtain ⟨a, ha, hext⟩ := h.extendable
  have hreq := hext.mono ((alignDown_le a lo).trans hc.lo_le)
  have hwn := h.wellFormed.wellNested
  obtain ⟨d, hd⟩ := h.wellFormed.links.exists_depth h.inUse
  obtain ⟨t', hrun, hp⟩ := hwn.preExtendBigallocRecursive_spec h.inUse hd
    (h.wellFormed.links.depth_lt h.inUse hd).le hreq
  have hin := fun n => hp.inUse_iff (n := n) hreq
  have hsub : ∀ n, (t' n).allocatedBy = (t n).allocatedBy
      ∧ (t' n).suballocator = (t n).suballocator := by
    intro n
    obtain ⟨y, -, hy⟩ := hp.eq_with_begin n
    rw [hy]
    exact ⟨rfl, rfl⟩
  have hplain : ∀ n, t.InUse n → (t n).suballocator = some allocaAllocator → t' n = t n := by
    intro n hn hal
    exact hp.eq_of_not_above fun hb => (h.plain n hb hn.ne_zero).2.2 hal
  refine ⟨t', ?_, ?_, ?_, hin, hplain⟩
  · unfold notifyUnindexedAddress stackAllocatorNotifyUnindexedAddress
    rw [hc.first, show nbigallocs = (nbigallocs - 1) + 1 by decide, stackClaim]
    simp only [h.inUse.ne_zero, if_false, if_pos (And.intro hc.near hc.unused)]
    rw [hrun]
    rfl
  · refine ⟨?_, (hin p).mpr h.inUse, by rw [hp.end_eq]; exact h.end_le, fun n hn hup => ?_,
      ⟨a, (hsub p).1.trans ha, hp.extendable hwn h.inUse hreq hext⟩, ?_, ?_, ?_, h.sane, h.lt⟩
    · exact (hp.wellFormed_iff h.wellFormed h.inUse hreq).mpr fun n y hy hn _ =>
        h.asked_aligned (Nat.dvd_mul_left _ _) hy hn
    · rw [hp.up_eq] at hup
      have hnot : ¬ Below t.up p n := by
        rw [← hup]
        exact h.wellFormed.links.not_below_up ((hin n).mp hn)
      rw [hp.eq_of_not_above hnot]
      exact h.free n ((hin n).mp hn) hup
    · exact h.wholePages.congr (fun n => by rw [hp.up_eq]; exact id) fun n _ =>
        ⟨congrFun hp.up_eq n, (hsub n).1⟩
    · exact h.plain.congr (fun n => by rw [hp.up_eq]; exact id) fun n _ => hsub n
    · obtain ⟨b, hb⟩ := Option.isSome_iff_exists.mp h.room
      obtain ⟨h1, h2, hfree⟩ := findFreeBigalloc_eq_some hb
      exact findFreeBigalloc_isSome h1 h2 fun hu => hfree ((hin b).mp hu)
  · rw [hp.asked p _ .self]
    exact (Nat.min_le_left _ _).trans (roundDown_le ptr pageSize)

theorem findDeepestBigalloc (hp : (t p).begin ≤ x) (hx : x < bp) :
    ∃ n, t.findDeepestBigalloc env x = some (n, t) := by
  have h0 := h.wellFormed.pageindex_ne_zero h.inUse ⟨hp, hx.trans_le h.end_le⟩
  obtain ⟨n, hn, -⟩ := h.wellFormed.findDeepestBigalloc_spec x fun hc => absurd hc h0
  exact ⟨n, hn⟩

/-- The lookup of the lowest address of the frame makes the stack reach to it. -/
theorem reach (hp : (t p).begin ≤ ptr ∨ Claims env t p lo ptr) (hbp : ptr < bp) :
    ∃ n t₁, t.findDeepestBigalloc env ptr = some (n, t₁) ∧ StackSpace env t₁ p lo bp
      ∧ (t₁ p).begin ≤ ptr ∧ (∀ n, t₁.InUse n ↔ t.InUse n)
      ∧ ∀ n, t.InUse n → (t n).suballocator = some allocaAllocator → t₁ n = t n := by
  rcases hp with hp | hc
  · obtain ⟨n, hn⟩ := h.findDeepestBigalloc hp hbp
    exact ⟨n, t, hn, h, hp, fun _ => Iff.rfl, fun _ _ _ => rfl⟩
  · obtain ⟨t₁, hrun, hspace, hbegin, hin, hkept⟩ := h.claim hc
    obtain ⟨n, hn⟩ := hspace.findDeepestBigalloc hbegin hbp
    refine ⟨n, t₁, ?_, hspace, hbegin, hin, hkept⟩
    have h0 := hspace.wellFormed.pageindex_ne_zero hspace.inUse ⟨hbegin, hbp.trans_le hspace.end_le⟩
    unfold Table.findDeepestBigalloc at hn ⊢
    rw [if_neg h0] at hn
    simp only [if_pos hc.unindexed, hrun, some_bind, if_neg h0]
    exact hn

/-- **The frame is heard of for the first time.** -/
theorem create (hlo : lo ≤ ptr) (hp : (t p).begin ≤ ptr) (hbp : ptr < bp) :
    ∃ b t', t.newBigalloc env
        { ptr := ptr, size := sub64 bp ptr, allocatedBy := some stackframeAllocator } = some (b, t')
      ∧ Framed env t lo bp b ptr t' ∧ (t' b).suballocator = none
      ∧ (t' b).suballocatorPrivate = 0 := by
  have hr := h.validRequest hlo hp hbp
  have hsize : sub64 bp ptr = bp - ptr := if_pos hbp.le
  have hindexed : ∀ x, ptr ≤ x → x < bp → t.pageindex (pagenum x) ≠ 0 := fun x h1 h2 =>
    h.wellFormed.pageindex_ne_zero h.inUse ⟨hp.trans h1, h2.trans_le h.end_le⟩
  have hparent : t.newBigallocParent env
      { ptr := ptr, size := sub64 bp ptr, allocatedBy := some stackframeAllocator } = some (p, t) :=
    hr.newBigallocParent_quiet h.wellFormed (fun h0 => absurd h0 (hindexed ptr le_rfl hbp))
      (fun h0 => absurd h0 (hindexed (ptr + sub64 bp ptr - 1) (by omega) (by omega)))
  have hsane : sub64 bp ptr ≤ env.biggestSaneUserAlloc := by
    have hle := h.sane
    have hround := le_roundUp bp
    omega
  obtain ⟨b, hfree⟩ := Option.isSome_iff_exists.mp h.room
  obtain ⟨t', hnew⟩ : ∃ t', t.newBigalloc env
      { ptr := ptr, size := sub64 bp ptr, allocatedBy := some stackframeAllocator } = some (b, t') := by
    obtain ⟨t1, -, hnew⟩ := hr.newBigalloc_eq h.wellFormed hparent hsane hfree
    exact ⟨_, hnew⟩
  obtain ⟨hb, hwf, t2, hadd, heq⟩ := hr.newBigalloc_added h.wellFormed hparent hnew
  have hend : ptr + sub64 bp ptr = bp := by omega
  have hrec : (t' b).core
      = { begin := ptr, end_ := bp, parent := p, allocatedBy := some stackframeAllocator } := by
    have hn := hadd.new
    rw [NewRequest.record, hend] at hn
    rw [heq]
    exact hn
  have hframed : Framed env t lo bp b ptr t' := h.framed hb hwf hrec (by rw [heq]; exact hadd.inUse)
    (by rw [heq]; exact hadd.keep) (by rw [heq]; exact hadd.childless) hbp
  have hsub := congrArg (·.suballocator) hrec
  have hprivate := congrArg (·.suballocatorPrivate) hrec
  exact ⟨b, t', hnew, hframed, hsub, hprivate⟩

end

end StackSpace

/-! ### The frame grows -/

theorem PreExtendable.congr (h : PreExtendable env t b lo) (hsame : ∀ n, (t' n).begin = (t n).begin
      ∧ (t' n).end_ = (t n).end_ ∧ t'.up n = t.up n
      ∧ (t' n).allocatedBy = (t n).allocatedBy) : PreExtendable env t' b lo := by
  have hasked : ∀ {n x}, Asked env t' b lo n x → Asked env t b lo n x := fun hx =>
    hx.congr fun m _ => (hsame m).2.2
  refine ⟨fun n x hx hup => ?_, fun n x hx => h.positive n x (hasked hx),
    fun n x hx m hm hup hne => ?_, fun n x hx => ?_⟩
  · rw [(hsame n).2.2.1] at hup ⊢
    rw [(hsame _).2.2.2]
    exact h.allocated n x (hasked hx) hup
  · rw [(hsame m).2.1, (hsame n).1, (hsame m).1]
    unfold InUse at hm
    rw [(hsame m).1, (hsame m).2.1] at hm
    rw [(hsame m).2.2.1, (hsame n).2.2.1] at hup
    exact h.free n x (hasked hx) m hm hup hne
  · rw [(hsame n).1]
    exact h.sane n x (hasked hx)

namespace Framed

/-- What has become of the stack before the frame came does not matter to other frames. -/
theorem of_before (h : Framed env t' lo bp b begin t) (hin : ∀ n, t'.InUse n ↔ t₀.InUse n)
    (hkept : ∀ n, t₀.InUse n → (t₀ n).suballocator = some allocaAllocator → t' n = t₀ n) :
    Framed env t₀ lo bp b begin t := by
  refine { h with fresh := fun hb => h.fresh ((hin b).mpr hb), only := ?_, kept := ?_ }
  · exact fun n hn => (h.only n hn).imp_left (hin n).mp
  · intro n hn hal
    have hsame := hkept n hn hal
    rw [h.kept n ((hin n).mpr hn) (hsame ▸ hal), hsame]

section

variable (h : Framed env t₀ lo bp b begin t)
include h

theorem begin_lt : begin < bp := by
  have hlt := h.wellFormed.bounds b h.inUse
  rwa [h.begin_eq, h.end_eq] at hlt

theorem mem_addrs (h1 : begin ≤ x) (h2 : x < bp) :
    x ∈ t.addrs b := ⟨by rwa [h.begin_eq], by rwa [h.end_eq]⟩

theorem modify {f : BigAllocation → BigAllocation} (hf : ∀ r, ∃ sub priv free, f r = { r with
      suballocator := sub, suballocatorPrivate := priv, suballocatorPrivateFree := free }) :
    Framed env t₀ lo bp b begin (t.modify b f) := by
  have hsame : ∀ n, ((t.modify b f) n).shape = (t n).shape
      ∧ ((t.modify b f) n).allocatedBy = (t n).allocatedBy := by
    intro n
    obtain ⟨sub, priv, free, hr⟩ := hf (t n)
    unfold Table.modify
    dsimp only
    split
    · rw [hr]
      exact ⟨rfl, rfl⟩
    · exact ⟨rfl, rfl⟩
  have hother : ∀ n, n ≠ b → (t.modify b f) n = t n := fun n hn =>
    if_neg hn
  have hbegin : ∀ n, ((t.modify b f) n).begin = (t n).begin := by
    intro n
    exact (congrArg (·.begin) (hsame n).1 :)
  have hend : ∀ n, ((t.modify b f) n).end_ = (t n).end_ := by
    intro n
    exact (congrArg (·.end_) (hsame n).1 :)
  have hin : ∀ n, (t.modify b f).InUse n ↔ t.InUse n := by
    intro n
    unfold InUse
    rw [hbegin, hend]
  have hup : (t.modify b f).up = t.up := by
    funext n
    exact (congrArg (·.parent) (hsame n).1 :)
  have hab : ∀ n, Below t.up (t.up b) n → n ≠ b := by
    intro n hn hc
    exact h.wellFormed.links.not_below_up h.inUse (hc ▸ hn)
  refine ⟨h.wellFormed.of_shape (fun n => (hsame n).1) (hother 0 h.inUse.ne_zero.symm) rfl rfl, ?_,
    by rw [hup]; exact h.nested, (hsame b).2.trans h.allocatedBy, (hbegin b).trans h.begin_eq,
    (hend b).trans h.end_eq, h.end_le, by rw [hup]; exact h.childless, ?_, ?_, ?_, h.fresh,
    fun n hn => h.only n ((hin n).mp hn), fun n hn hsub => ?_⟩
  · exact (hin b).mpr h.inUse
  · rw [hup]
    refine h.plain.congr (fun n => by rw [hup]; exact id) fun n hn => ?_
    rw [hother n (hab n hn)]
    exact ⟨rfl, rfl⟩
  · exact h.extendable.congr fun n => ⟨hbegin n, hend n, congrFun hup n, (hsame n).2⟩
  · rw [hup]
    exact h.wholePages.congr (fun n => by rw [hup]; exact id) fun n hn =>
      ⟨congrFun hup n, (hsame n).2⟩
  · rw [hother n fun hc => h.fresh (hc ▸ hn)]
    exact h.kept n hn hsub

/-- **The frame grows downwards**, and nothing but its begin changes in its record. -/
theorem grow (hlo : lo ≤ x) (hx : x < begin) :
    ∃ t', preExtendBigallocRecursive env nbigallocs t b x = some t' ∧ t' b = { t b with begin := x }
      ∧ Framed env t₀ lo bp b x t' := by
  have hreq := h.extendable.mono hlo
  have hwn := h.wellFormed.wellNested
  obtain ⟨d, hd⟩ := h.wellFormed.links.exists_depth h.inUse
  obtain ⟨t', hrun, hp⟩ := hwn.preExtendBigallocRecursive_spec h.inUse hd
    (h.wellFormed.links.depth_lt h.inUse hd).le hreq
  have hself : t' b = { t b with begin := x } := by
    rw [hp.asked b x .self, h.begin_eq, Nat.min_eq_left hx.le]
  have hup := hp.up_eq
  have hsub : ∀ n, (t' n).allocatedBy = (t n).allocatedBy
      ∧ (t' n).suballocator = (t n).suballocator := by
    intro n
    obtain ⟨y, -, hy⟩ := hp.eq_with_begin n
    rw [hy]
    exact ⟨rfl, rfl⟩
  have hwf : t'.WellFormed := (hp.wellFormed_iff h.wellFormed h.inUse hreq).mpr
    fun n y hy hn _ => h.wholePages.asked h.nested hy hn
  refine ⟨t', hrun, hself, hwf, (hp.inUse_iff hreq).mpr h.inUse, by rw [hup]; exact h.nested,
    (hsub b).1.trans h.allocatedBy, by rw [hself], (hp.end_eq b).trans h.end_eq,
    h.end_le, by rw [hup]; exact h.childless, ?_, hp.extendable hwn h.inUse hreq h.extendable, ?_, h.fresh,
    fun n hn => h.only n ((hp.inUse_iff hreq).mp hn), fun n hn hal => ?_⟩
  · rw [hup]
    exact h.plain.congr (fun n => by rw [hup]; exact id) fun n _ => hsub n
  · rw [hup]
    exact h.wholePages.congr (fun n => by rw [hup]; exact id) fun n _ =>
      ⟨congrFun hup n, (hsub n).1⟩
  · have hkept := h.kept n hn hal
    have hnot : ¬ Below t.up b n := by
      intro hc
      rcases Forest.below_iff.mp hc with rfl | hc
      · exact h.fresh hn
      · have hsame : (t n).suballocator = (t₀ n).suballocator :=
          (congrArg (·.suballocator) hkept :)
        exact (h.plain n hc hn.ne_zero).2.2 (hsame.trans hal)
    rw [hp.eq_of_not_above hnot]
    exact hkept

end

/-! ### Lookups -/

section

variable (h : Framed env t₀ lo bp b begin t)
include h

theorem isArena (hsub : (t b).suballocator = some allocaAllocator) :
    MallocIndex.IsArena t allocaAllocator b := by
  refine ⟨h.inUse, hsub, fun n hn hnb hn0 => ?_, fun n hn hn0 hm => ?_,
    h.end_eq.le.trans h.end_le⟩
  · exact (h.plain n ((Forest.below_iff.mp hn).resolve_left (Ne.symm hnb)) hn0).2.2
  · rcases Forest.below_iff.mp hn with rfl | hn
    · unfold Matches at hm
      rw [if_neg Bool.false_ne_true, h.allocatedBy] at hm
      exact absurd (Option.some.inj hm) (by decide)
    · exact (h.plain n hn hn0).2.1 hm

theorem above_not_frame :
    ∀ n, Below t.up b n → n ≠ b → n ≠ 0 → ¬ t.Matches stackframeAllocator false n := by
  intro n hn hnb hn0
  exact (h.plain n ((Forest.below_iff.mp hn).resolve_left (Ne.symm hnb)) hn0).1

theorem find_frame (h1 : begin ≤ x) (h2 : x < bp) :
    t.findBigallocFromTop env x stackframeAllocator false = some (b, t) :=
  h.wellFormed.findBigallocFromTop_first h.inUse (h.mem_addrs h1 h2) h.above_not_frame h.allocatedBy

/-- The lookup under the page index goes down from the frame or something above it. -/
theorem find_under (h1 : begin ≤ x) (h2 : x < bp) :
    t.findBigallocUnderPageindex x stackframeAllocator = some b := by
  have hx := h.mem_addrs h1 h2
  have h0 := h.wellFormed.pageindex_ne_zero h.inUse hx
  obtain ⟨hu, hxu⟩ := h.wellFormed.mem_addrs_pageindex h0
  obtain ⟨k, hk⟩ := h.wellFormed.laminar_addrs.below_of_no_child hu h.inUse hxu hx
    fun c _ hup => absurd hup (h.childless c)
  obtain ⟨d, hd⟩ := h.wellFormed.links.exists_depth h.inUse
  have hkd := hd.lt_of_iterate_ne h.wellFormed.links.up_zero (hk ▸ hu.ne_zero)
  have hdn := h.wellFormed.links.depth_lt h.inUse hd
  obtain ⟨fuel, hfuel⟩ : ∃ fuel, nbigallocs = fuel + 1 + k := ⟨nbigallocs - 1 - k, by omega⟩
  have hfind := h.wellFormed.findBigallocRecursive_descend (k := k) h.inUse hx (hk ▸ hu.ne_zero)
    h.above_not_frame (fuel + 1)
  rw [hk, ← hfuel] at hfind
  have hmatch : t.Matches stackframeAllocator false b := h.allocatedBy
  unfold findBigallocUnderPageindex
  rw [if_neg h0, hfind]
  exact if_pos hmatch

end

/-! ### The frame goes -/

/-- **The frame is deleted**, and the others stay. -/
theorem delete (h : Framed env t₀ lo bp b begin t) (h1 : begin ≤ x) (h2 : x < bp)
    (hsane : bp - begin ≤ env.biggestSaneUserAlloc) :
    ∃ t', t.deleteBigallocAt env x stackframeAllocator = some (true, t') ∧ t'.WellFormed
      ∧ ¬ t'.InUse b
      ∧ ∀ n, t₀.InUse n → (t₀ n).suballocator = some allocaAllocator →
        (t' n).core = (t₀ n).core := by
  obtain ⟨d, hd⟩ := h.wellFormed.links.exists_depth h.inUse
  have hsmall : t.Small env b := by
    have hle := pageDist_le_of_size begin hsane
    rw [show begin + (bp - begin) = bp by omega] at hle
    unfold Small
    rwa [h.begin_eq, h.end_eq]
  have hstart : b ≠ t.start := by
    intro hc
    exact h.nested (hc ▸ (h.wellFormed.entered (hc ▸ h.inUse.ne_zero)).2.1)
  have honly : ∀ n, Below t.up n b → n = b := by
    intro n hn
    by_contra hne
    obtain ⟨c, -, hc⟩ := hn.exists_child hne
    exact h.childless c hc
  rcases bigallocDel_cases env nbigallocs h.wellFormed.links h.inUse hd (by omega)
    (h.wellFormed.nested h.inUse) with ⟨-, hbig⟩ | ⟨t', hdel, -, hr, hpages⟩
  · exact absurd hsmall hbig
  · refine ⟨t', ?_, h.wellFormed.removed h.inUse hstart hr hpages, hr.gone b (Below.refl t.up b),
      fun n hn hsub => ?_⟩
    · unfold deleteBigallocAt
      simp [h.find_frame h1 h2, some_bind, if_neg h.inUse.ne_zero, hdel, Option.pure_def]
    · rw [hr.keep n fun hc => h.fresh (honly n hc ▸ hn)]
      exact h.kept n hn hsub

end Framed

end Liballocs.Table
