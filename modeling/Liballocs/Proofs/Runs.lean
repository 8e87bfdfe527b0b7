/-
Runs of creations and deletions.

A request lies inside the record it goes under and apart from what is there, or consists of whole pages
apart from all top-level records.  Deletions may name anything but the private heap.  No stack and no
break has been registered in such a run, so asking about an unindexed address changes nothing.
-/
import Liballocs.Proofs.Create

namespace Liballocs.Table

open Forest

variable {env : Env} {t t' : Table} {a b n p : Nat} {r : NewRequest} {al : Allocator}
  {used : List Nat} {rs : List NewRequest}

/-! ### Nobody to ask -/

/-- No other allocator has anything to do with unindexed addresses. -/
structure Idle (env : Env) (t : Table) : Prop where
  stack : t.initialStackBigalloc = 0
  brk : t.brkBigalloc = 0
  brkInitialized : t.brkInitialized = false
  mmap : env.systrapIsInitialized = true ∨ t.mmapInitialized = true
    ∨ t.mmapTryingToInitialize = true

theorem Idle.of_statics (h : t.Idle env) (hs : t.SameStatics t') : t'.Idle env := by
  rw [hs]
  exact ⟨h.stack, h.brk, h.brkInitialized, h.mmap⟩

theorem Idle.notifyUnindexedAddress_eq (h : t.Idle env) (a : Nat) :
    t.notifyUnindexedAddress env a = some (false, t) := by
  have hstack : t.stackAllocatorNotifyUnindexedAddress env a = some (false, t) := by
    simp only [stackAllocatorNotifyUnindexedAddress, h.stack]
    rfl
  simp [notifyUnindexedAddress, hstack, mmapAllocatorNotifyUnindexedAddress,
    brkAllocatorNotifyUnindexedAddress, h.brk]

/-- If the page of the address is not indexed, the notification of it changes nothing. -/
def QuietAt (env : Env) (t : Table) (a : Nat) : Prop :=
  t.pageindex (pagenum a) = 0 → ∃ claimed, t.notifyUnindexedAddress env a = some (claimed, t)

theorem Idle.quietAt (h : t.Idle env) (a : Nat) : QuietAt env t a := fun _ =>
  ⟨false, h.notifyUnindexedAddress_eq a⟩

/-! ### Creation -/

/-- The record that a request asks for. -/
def NewRequest.record (r : NewRequest) : BigAllocation :=
  { begin := r.ptr, end_ := r.ptr + r.size, allocatorPrivate := r.allocatorPrivate,
    allocatorPrivateFree := r.allocatorPrivateFree, allocatedBy := r.allocatedBy }

/-- The request is for a range that may go under `p`, with parent `p` or none. -/
structure ValidRequest (t : Table) (r : NewRequest) (p : Nat) : Prop where
  ptr_pos : 0 < r.ptr
  parent : r.maybeParent = 0 ∨ r.maybeParent = p
  placed : t.Placed (NewRequest.record r) p

theorem Placed.deepest {r : BigAllocation} (hr : t.Placed r p) (h : t.WellFormed)
    (h1 : r.begin ≤ a) (h2 : a < r.end_) : t.DeepestSuchThat (a ∈ t.addrs ·) p := by
  have hout : ∀ c, t.InUse c → t.up c = p → a ∉ t.addrs c := by
    intro c hc hup ⟨ha1, ha2⟩
    rcases hr.apart c hc hup with h' | h' <;> omega
  by_cases hp : p = 0
  · subst hp
    refine .inl ⟨rfl, fun m hm ham => ?_⟩
    obtain ⟨c, hc, hup, hb⟩ := h.links.exists_root hm
    exact hout c hc hup (h.laminar_addrs.subset_of_below hm hb hc.ne_zero ham)
  · obtain ⟨hpu, hin1, hin2⟩ := hr.inside hp
    exact h.laminar_addrs.deepest_of_no_child hpu ⟨hin1.trans h1, h2.trans_le hin2⟩ hout

theorem ValidRequest.newBigallocParent_quiet (hr : t.ValidRequest r p) (h : t.WellFormed)
    (hq1 : QuietAt env t r.ptr) (hq2 : QuietAt env t (r.ptr + r.size - 1)) :
    t.newBigallocParent env r = some (p, t) := by
  unfold newBigallocParent
  by_cases hp : r.maybeParent = 0
  · have hsize : r.ptr < r.ptr + r.size := hr.placed.bounds
    obtain ⟨n1, h1, hd1⟩ := h.findDeepestBigalloc_spec r.ptr hq1
    obtain ⟨n2, h2, hd2⟩ := h.findDeepestBigalloc_spec (r.ptr + r.size - 1) hq2
    have hlo := hr.placed.deepest h (a := r.ptr) le_rfl hsize
    have hhi := hr.placed.deepest h (a := r.ptr + r.size - 1) (show r.ptr ≤ _ by omega)
      (show _ < r.ptr + r.size by omega)
    obtain rfl := h.laminar_addrs.deepest_unique hd1 hlo
    obtain rfl := h.laminar_addrs.deepest_unique hd2 hhi
    have halign : ¬ (n2 = 0 ∧ (roundUp r.ptr pageSize ≠ r.ptr
        ∨ roundUp (r.ptr + r.size) pageSize ≠ r.ptr + r.size)) := by
      rintro ⟨h0, hne⟩
      obtain ⟨hb, he⟩ := hr.placed.aligned h0
      exact hne.elim (fun hc => hc (roundUp_eq_self_iff.mpr hb))
        fun hc => hc (roundUp_eq_self_iff.mpr he)
    simp only [hp, ne_eq, not_true_eq_false, if_false, h1, h2, some_bind]
    exact if_neg halign
  · rw [if_pos hp, hr.parent.resolve_left hp]

theorem ValidRequest.newBigallocParent_eq (hr : t.ValidRequest r p) (h : t.WellFormed)
    (hi : t.Idle env) : t.newBigallocParent env r = some (p, t) :=
  hr.newBigallocParent_quiet h (hi.quietAt _) (hi.quietAt _)

/-- A range no longer than `BIGGEST_SANE_USER_ALLOC` spans a sane number of pages. -/
theorem pageDist_le_of_size (ptr : Nat) {size limit : Nat} (h : size ≤ limit) :
    pageDist (roundUp ptr pageSize) (roundDown (ptr + size) pageSize) ≤ limit >>> logPageSize := by
  have hle : pagenum (roundDown (ptr + size) pageSize)
      ≤ pagenum (roundUp ptr pageSize) + limit / 2 ^ 12 := by
    simp only [pagenum, roundUp, roundDown, pageSize]
    omega
  rw [Nat.shiftRight_eq_div_pow]
  simp only [pageDist, logPageSize]
  split <;> omega

section

variable (hr : t.ValidRequest r p) (h : t.WellFormed)

include hr h

/-- **Creation**: a valid request of sane size gets a free record, if there is one. -/
theorem ValidRequest.newBigalloc_eq
    (hparent : t.newBigallocParent env r = some (p, t)) (hsize : r.size ≤ env.biggestSaneUserAlloc)
    (hfree : t.findFreeBigalloc = some b) :
    ∃ t1, t.Added b (NewRequest.record r) p t1
      ∧ t.newBigalloc env r = some (b, t1.setPages (pagenum (roundUp r.ptr pageSize))
          (pagenum (roundDown (r.ptr + r.size) pageSize)) b) := by
  obtain ⟨hlo, hhi, hb⟩ := findFreeBigalloc_eq_some hfree
  have hpos := hr.ptr_pos
  obtain ⟨t1, hinit, hadd, -⟩ := h.links.bigallocInitNomemset (r := NewRequest.record r) (p := p)
    hb hlo hhi (show r.ptr ≠ 0 by omega) (show r.ptr + r.size ≠ 0 by omega)
    (fun hp => (hr.placed.inside hp).1) fun hp => by
      subst hp
      exact ⟨h.entered, hr.placed.fitsTop h.toFitted⟩
  refine ⟨t1, hadd, ?_⟩
  have hb1 : (t1 b).begin = r.ptr := hadd.begin_eq
  have hb2 : (t1 b).end_ = r.ptr + r.size := hadd.end_eq
  have hnum : b < 65536 := Nat.lt_trans hhi (by decide)
  have hmem := (memset_eq_some_iff env t1 _ (roundUp r.ptr pageSize)
    (roundDown (r.ptr + r.size) pageSize) hnum).mpr ⟨pageDist_le_of_size _ hsize, rfl⟩
  have hnew : t.bigallocNew env r.ptr r.size p r.allocatorPrivate r.allocatorPrivateFree
      r.allocatedBy = some (b, t1.setPages (pagenum (roundUp r.ptr pageSize))
          (pagenum (roundDown (r.ptr + r.size) pageSize)) b) := by
    unfold bigallocNew bigallocInit
    rw [hfree]
    simp only [Option.bind_eq_bind, Option.bind_some]
    unfold NewRequest.record at hinit
    rw [hinit]
    simp [Option.bind_some, hb1, hb2, hmem, Option.pure_def]
  unfold newBigalloc
  rw [if_neg (Nat.not_lt.mpr hsize), hparent]
  exact hnew

theorem ValidRequest.newBigalloc_added (hparent : t.newBigallocParent env r = some (p, t))
    (hnew : t.newBigalloc env r = some (b, t')) :
    ¬ t.InUse b ∧ t'.WellFormed ∧ ∃ t1, t.Added b (NewRequest.record r) p t1
      ∧ t' = t1.setPages (pagenum (roundUp r.ptr pageSize))
          (pagenum (roundDown (r.ptr + r.size) pageSize)) b := by
  have hsize : r.size ≤ env.biggestSaneUserAlloc := by
    by_contra hc
    simp [newBigalloc, Nat.lt_of_not_le hc] at hnew
  obtain ⟨b', hfree⟩ : ∃ b', t.findFreeBigalloc = some b' := by
    unfold newBigalloc at hnew
    rw [if_neg hsize.not_gt, hparent] at hnew
    cases hf : t.findFreeBigalloc with
    | none => simp [bigallocNew, hf] at hnew
    | some b' => exact ⟨b', rfl⟩
  obtain ⟨t1, hadd, heq⟩ := hr.newBigalloc_eq h hparent hsize hfree
  obtain ⟨rfl, rfl⟩ : b' = b ∧ t1.setPages _ _ b' = t' := by
    simpa [heq] using hnew
  have hb := (findFreeBigalloc_eq_some hfree).2.2
  have hwf := h.added hb hadd hr.placed
  rw [show (NewRequest.record r).begin = r.ptr from rfl,
    show (NewRequest.record r).end_ = r.ptr + r.size from rfl] at hwf
  exact ⟨hb, hwf, t1, hadd, rfl⟩

theorem ValidRequest.newBigalloc_wellFormed
    (hi : t.Idle env) (hnew : t.newBigalloc env r = some (b, t')) :
    t'.WellFormed ∧ t'.Idle env ∧ t'.start = t.start
      ∧ (∀ n, t'.InUse n ↔ t.InUse n ∨ n = b) ∧ t'.up b = p := by
  obtain ⟨-, hwf, t1, hadd, rfl⟩ := hr.newBigalloc_added h (hr.newBigallocParent_eq h hi) hnew
  refine ⟨hwf, ?_, ?_, fun n => hadd.inUse_iff, hadd.up_eq⟩
  · have hi1 : t1.Idle env := by
      rw [hadd.rest]
      exact ⟨hi.stack, hi.brk, hi.brkInitialized, hi.mmap⟩
    exact ⟨hi1.stack, hi1.brk, hi1.brkInitialized, hi1.mmap⟩
  · show t1.start = t.start
    rw [hadd.rest]

end

/-! ### Deletion -/

theorem rootOf_null (h : t.Links 0) : t.rootOf nbigallocs 0 = some 0 := by
  have hroot : ∀ fuel, t.rootOf (fuel + 1) 0 = some 0 := fun fuel => if_pos h.up_zero
  rw [show nbigallocs = 32767 + 1 from rfl]
  exact hroot 32767

theorem findBigallocRecursive_null {m : Bool} (h : t.Links 0) (a : Nat) :
    t.findBigallocRecursive a al m nbigallocs 0 = some 0 := by
  have hkids : t.children 0 = some [] := by
    unfold children
    rw [h.null]
    have hnil : Dll.Linked t.next t.prev 0 0 0 [] := Dll.linked_nil.mpr rfl
    exact hnil.walk_eq (Nat.zero_le _)
  have hfind : ∀ depth, t.findBigallocRecursive a al m (depth + 1) 0 = some 0 := by
    intro depth
    simp [findBigallocRecursive, h.null, hkids]
  rw [show nbigallocs = 32767 + 1 from rfl]
  exact hfind 32767

theorem WellFormed.findBigallocFromEntry_spec (h : t.WellFormed) (al : Allocator) (m : Bool)
    (a : Nat) : ∃ n, t.findBigallocFromEntry (t.pageindex (pagenum a)) a al m = some n ∧
      (n = 0 ∨ t.InUse n ∧ a ∈ t.addrs n ∧ t.Matches al m n) := by
  by_cases h0 : t.pageindex (pagenum a) = 0
  · refine ⟨0, ?_, .inl rfl⟩
    simp [findBigallocFromEntry, h0, rootOf_null h.links, some_bind, findBigallocRecursive_null h.links]
  · obtain ⟨hu, ha⟩ := h.mem_addrs_pageindex h0
    obtain ⟨d, hd⟩ := h.links.exists_depth hu
    obtain ⟨root, hroot, hru, -, hb⟩ := rootOf_eq h.links hu hd (h.links.depth_lt hu hd).le
    obtain ⟨e, he⟩ := h.links.exists_depth hru
    have har := h.laminar_addrs.subset_of_below hu hb hru.ne_zero ha
    simp only [findBigallocFromEntry, hroot, some_bind]
    exact findBigallocRecursive_spec h.links hru har he (by omega)

section

variable (h : t.WellFormed) (hi : t.Idle env)

include h hi

theorem WellFormed.probeEarly_eq
    (hsys : env.systrapIsInitialized = false) (a : Nat) : t.probeEarly env a = some t := by
  have hbrk : ∀ x, t.brkAllocatorNotifyBrk env x = some t := fun x => by
    simp [brkAllocatorNotifyBrk, hi.brkInitialized]
  have hinit : (t.mmapInitialized || t.mmapTryingToInitialize) = true := by
    rcases hi.mmap with hc | hc | hc
    · rw [hsys] at hc
      exact absurd hc (by decide)
    · rw [hc, Bool.true_or]
    · rw [hc, Bool.or_true]
  unfold probeEarly
  split
  · dsimp only
    split
    · set q := t.searchBackwards (pagenum a) (pagenum a + 1) (pagenum a)
      have hq : pagenum (q * pageSize + (pageSize - 1)) = q := by
        simp only [pagenum, pageSize]
        omega
      obtain ⟨n, hn, -⟩ := h.findBigallocFromEntry_spec .brk false (q * pageSize + (pageSize - 1))
      rw [hq] at hn
      simp [hn, some_bind, hbrk, ite_self]
    · rfl
  · rfl

theorem WellFormed.findBigallocFromTop_spec (al : Allocator)
    (a : Nat) : ∃ n, t.findBigallocFromTop env a al false = some (n, t) ∧
      (n = 0 ∨ t.InUse n ∧ a ∈ t.addrs n ∧ (t n).allocatedBy = some al) := by
  obtain ⟨n, hn, hcases⟩ := h.findBigallocFromEntry_spec al false a
  unfold findBigallocFromTop
  split
  · rename_i hc
    obtain ⟨h0, hsys⟩ := hc
    have hsys : env.systrapIsInitialized = false := by simpa using hsys
    refine ⟨0, ?_, .inl rfl⟩
    simp [h.probeEarly_eq hi hsys, h0]
  · exact ⟨n, by simp [hn], hcases⟩

/-- A deletion finds no record, or the record that it finds goes with all below it. -/
theorem WellFormed.deleteBigallocAt_cases {found : Bool}
    (hdel : t.deleteBigallocAt env a al = some (found, t')) :
    (found = false ∧ t' = t) ∨ ∃ n, found = true ∧ t.InUse n ∧ a ∈ t.addrs n
      ∧ (t n).allocatedBy = some al ∧ t.Removed { m | Below t.up m n } t'
      ∧ ∀ q, t'.pageindex q = if t.SpansPage n q then t.up n else t.pageindex q := by
  obtain ⟨n, hn, hcases⟩ := h.findBigallocFromTop_spec hi al a
  simp only [deleteBigallocAt, hn, some_bind] at hdel
  rcases hcases with rfl | ⟨hu, ha, hal⟩
  · obtain ⟨rfl, rfl⟩ : false = found ∧ t = t' := by simpa using hdel
    exact .inl ⟨rfl, rfl⟩
  · rw [if_neg hu.ne_zero] at hdel
    obtain ⟨d, hd⟩ := h.links.exists_depth hu
    rcases bigallocDel_cases env nbigallocs h.links hu hd (by omega)
      (h.nested hu) with ⟨hnone, -⟩ | ⟨t1, hsome, -, hr, hpages⟩
    · simp [hnone] at hdel
    · obtain ⟨rfl, rfl⟩ : true = found ∧ t1 = t' := by simpa [hsome] using hdel
      exact .inr ⟨n, rfl, hu, ha, hal, hr, hpages⟩

theorem WellFormed.deleteBigallocAt_wellFormed {found : Bool}
    (hstart : ¬ (a ∈ t.addrs t.start ∧ (t t.start).allocatedBy = some al))
    (hdel : t.deleteBigallocAt env a al = some (found, t')) :
    t'.WellFormed ∧ t'.Idle env ∧ t'.start = t.start := by
  rcases h.deleteBigallocAt_cases hi hdel with ⟨-, rfl⟩ | ⟨n, -, hu, ha, hal, hr, hpages⟩
  · exact ⟨h, hi, rfl⟩
  · have hs : n ≠ t.start := by
      rintro rfl
      exact hstart ⟨ha, hal⟩
    exact ⟨h.removed hu hs hr hpages, hi.of_statics hr.statics, hr.start_eq⟩

end

/-! ### Runs -/

/-- The table before any bigalloc. -/
structure Empty (env : Env) (t : Table) : Prop extends Idle env t where
  records : t.bigAllocations = fun _ => {}
  pageindex : t.pageindex = fun _ => 0
  start : t.start = 0

/-- The tables that runs of the two operations reach from an empty one, before or after the heap is
`START`. -/
inductive Reachable (env : Env) : Table → Prop
  | empty {t : Table} (h : t.Empty env) : Reachable env t
  | privateHeap {t t' : Table} {r : NewRequest} {b : Nat} (h : t.Empty env)
      (hr : t.ValidRequest r 0) (hnew : t.newBigalloc env r = some (b, t')) :
      Reachable env { t' with start := b }
  | new {t t' : Table} {r : NewRequest} {b p : Nat} (h : Reachable env t) (hr : t.ValidRequest r p)
      (hnew : t.newBigalloc env r = some (b, t')) : Reachable env t'
  | delete {t t' : Table} {a : Nat} {al : Allocator} {found : Bool} (h : Reachable env t)
      (hstart : ¬ (a ∈ t.addrs t.start ∧ (t.bigAllocations t.start).allocatedBy = some al))
      (hdel : t.deleteBigallocAt env a al = some (found, t')) : Reachable env t'

theorem Empty.not_inUse (h : t.Empty env) (n : Nat) : ¬ t.InUse n := by
  simp [InUse, h.records]

theorem Empty.wellFormed (h : t.Empty env) : t.WellFormed := by
  have hno := h.not_inUse
  have hup : ∀ n, t.up n = 0 := fun n => by simp [up, h.records]
  refine ⟨⟨fun n hn => absurd hn (hno n), fun n hn => absurd hn (hno n),
      fun m _ hm => absurd hm (hno m), fun n hn => absurd hn (hno n)⟩,
    ⟨by rw [h.records], fun n _ => hup n, hup 0, fun n hn => absurd hn (hno n),
      fun n hn => absurd hn (hno n), fun n hn => absurd hn (hno n),
      .inl ⟨h.start, fun n hn => absurd hn (hno n)⟩⟩, fun h0 => absurd h.start h0, fun q => ?_⟩
  exact .inl ⟨by rw [h.pageindex], fun n hn => absurd hn (hno n)⟩

theorem WellFormed.setStart (h : t.WellFormed) (h0 : t.start = 0) (hb : t.InUse b)
    (hup : t.up b = 0) (hone : ∀ n, t.InUse n → n = b) : ({ t with start := b } : Table).WellFormed := by
  have hsib : t.next b = 0 ∧ t.prev b = 0 := by
    rcases h.links.tops with ⟨-, hz⟩ | ⟨h0', -⟩
    · exact hz b hb hup hb.ne_zero
    · exact absurd h0 h0'
  obtain ⟨f, l, -, k⟩ := h
  refine ⟨⟨f.bounds, f.inside, f.apart, f.aligned⟩, ⟨l.null, l.free, l.detached, l.up_inUse,
    l.rooted, fun p hp => ?_, .inr ⟨hb.ne_zero, [b], ⟨b, ?_⟩, List.nodup_singleton b,
      fun n => ?_, List.pairwise_singleton _ b⟩⟩, fun _ => ⟨hb, hup, hb.ne_zero⟩, k⟩
  · obtain ⟨l, hl⟩ := l.kids p hp
    exact ⟨l, hl.linked, hl.nodup, hl.mem_iff⟩
  · exact ⟨rfl, hb.ne_zero, hsib.2, hsib.1⟩
  · constructor
    · intro hn
      obtain rfl := List.mem_singleton.mp hn
      exact ⟨hb, hup, hb.ne_zero⟩
    · rintro ⟨hn, -⟩
      exact List.mem_singleton.mpr (hone n hn)

/-! ### Creating one record after the other -/

/-- The request names its parent and fits there, by the records `used`. -/
def NewRequest.fits (t : Table) (used : List Nat) (r : NewRequest) : Bool :=
  decide (0 < r.ptr ∧ 0 < r.size)
    && (if r.maybeParent = 0 then decide (PageAligned r.ptr ∧ PageAligned (r.ptr + r.size))
      else decide (t.InUse r.maybeParent ∧ (t.bigAllocations r.maybeParent).begin ≤ r.ptr
        ∧ r.ptr + r.size ≤ (t.bigAllocations r.maybeParent).end_))
    && used.all fun n => decide ((t.bigAllocations n).parent ≠ r.maybeParent
      ∨ (t.bigAllocations n).end_ ≤ r.ptr ∨ r.ptr + r.size ≤ (t.bigAllocations n).begin)

/-- Create the records, each of which has to fit, with the numbers in use. -/
def createAll (env : Env) : List Nat → Table → List NewRequest → Option (List Nat × Table)
  | used, t, [] => some (used, t)
  | used, t, r :: rs =>
    if r.fits t used then do
      let (b, t) ← t.newBigalloc env r
      createAll env (b :: used) t rs
    else none

theorem NewRequest.valid_of_fits (h : r.fits t used)
    (hused : ∀ n, t.InUse n → n ∈ used) : t.ValidRequest r r.maybeParent := by
  unfold NewRequest.fits at h
  rw [Bool.and_eq_true, Bool.and_eq_true, decide_eq_true_eq, List.all_eq_true] at h
  obtain ⟨⟨⟨hptr, hsize⟩, hplace⟩, hall⟩ := h
  refine ⟨hptr, .inr rfl, ?_, fun hp => ?_, fun n hn hup => ?_, fun hp => ?_⟩
  · show r.ptr < r.ptr + r.size
    omega
  · rw [if_neg hp, decide_eq_true_eq] at hplace
    exact hplace
  · have hn' := of_decide_eq_true (hall n (hused n hn))
    exact hn'.resolve_left fun hc => hc hup
  · rw [if_pos hp, decide_eq_true_eq] at hplace
    exact hplace

theorem Empty.valid_of_fits (h : t.Empty env) (hr : r.fits t []) : t.ValidRequest r r.maybeParent :=
  NewRequest.valid_of_fits hr fun n hn => absurd hn (h.not_inUse n)

theorem ValidRequest.newBigalloc_sequences (hr : t.ValidRequest r p) (h : t.WellFormed)
    (hi : t.Idle env) (hnew : t.newBigalloc env r = some (b, t')) : t'.sequences = t.sequences := by
  obtain ⟨-, -, t1, hadd, rfl⟩ := hr.newBigalloc_added h (hr.newBigallocParent_eq h hi) hnew
  show t1.sequences = _
  rw [hadd.rest]

theorem createAll_wellFormed {used' : List Nat} (h : t.WellFormed) (hi : t.Idle env)
    (hused : ∀ n, t.InUse n → n ∈ used) (hrun : createAll env used t rs = some (used', t')) :
    t'.WellFormed ∧ t'.Idle env ∧ (∀ n, t'.InUse n → n ∈ used') ∧ t'.start = t.start
      ∧ t'.sequences = t.sequences := by
  induction rs generalizing t used with
  | nil =>
    obtain ⟨rfl, rfl⟩ : used = used' ∧ t = t' := by simpa [createAll] using hrun
    exact ⟨h, hi, hused, rfl, rfl⟩
  | cons r rs ih =>
    unfold createAll at hrun
    split at hrun
    · rename_i hfits
      obtain ⟨⟨b, t1⟩, hnew, hrest⟩ := of_bind hrun
      have hv := NewRequest.valid_of_fits hfits hused
      obtain ⟨hwf, hi1, hs, hin, -⟩ := hv.newBigalloc_wellFormed h hi hnew
      have hused1 : ∀ n, t1.InUse n → n ∈ b :: used := by
        intro n hn
        rcases (hin n).mp hn with hc | rfl
        · exact List.mem_cons_of_mem b (hused n hc)
        · exact (.head _)
      obtain ⟨h1, h2, h3, h4, h5⟩ := ih hwf hi1 hused1 hrest
      exact ⟨h1, h2, h3, h4.trans hs, h5.trans (hv.newBigalloc_sequences h hi hnew)⟩
    · cases hrun

theorem Empty.createAll_wellFormed (h : t.Empty env)
    (hrun : createAll env [] t rs = some (used, t')) :
    t'.WellFormed ∧ t'.Idle env ∧ (∀ n, t'.InUse n → n ∈ used) ∧ t'.sequences = t.sequences := by
  obtain ⟨h1, h2, h3, -, h4⟩ := Table.createAll_wellFormed h.wellFormed h.toIdle
    (fun n hn => absurd hn (h.not_inUse n)) hrun
  exact ⟨h1, h2, h3, h4⟩

/-! ### Two records, one inside the other -/

/-- Parameters for the samples. -/
def sampleEnv : Env := { biggestSaneUserAlloc := 2 ^ 32 }

/-- A mapping of four pages. -/
def sampleOuter : NewRequest := { ptr := 4096, size := 16384, allocatedBy := some .mmap }

/-- A range inside them that begins and ends in the middle of a page. -/
def sampleInner : NewRequest :=
  { ptr := 5000, size := 9000, maybeParent := 1, allocatedBy := some .genericMalloc }

theorem sample_empty : ({} : Table).Empty sampleEnv := ⟨⟨rfl, rfl, rfl, .inl rfl⟩, rfl, rfl, rfl⟩

theorem sample_inner : ∃ t t', newBigalloc sampleEnv {} sampleOuter = some (1, t)
    ∧ t.newBigalloc sampleEnv sampleInner = some (2, t')
    ∧ ({} : Table).ValidRequest sampleOuter 0 ∧ t.ValidRequest sampleInner 1
    ∧ (t'.start = 0 ∧ (t' 0).end_ = 0
      ∧ t'.leafBigallocFor 6000 = some 2 ∧ t'.pageindex (pagenum 6000) = 1)
    ∧ ∃ found t'', t'.deleteBigallocAt sampleEnv 4096 .mmap = some (found, t'') ∧ found = true := by
  have hv : ({} : Table).ValidRequest sampleOuter 0 := sample_empty.valid_of_fits (by decide)
  obtain ⟨⟨b, t⟩, ht, rfl, hfits, c, t', ht', rfl, h⟩ :
      ∃ x, newBigalloc sampleEnv {} sampleOuter = some x ∧ x.1 = 1 ∧ sampleInner.fits x.2 [1]
        ∧ ∃ b t', x.2.newBigalloc sampleEnv sampleInner = some (b, t') ∧ b = 2
        ∧ (t'.start = 0 ∧ (t' 0).end_ = 0
          ∧ t'.leafBigallocFor 6000 = some 2 ∧ t'.pageindex (pagenum 6000) = 1)
        ∧ ∃ found t'', t'.deleteBigallocAt sampleEnv 4096 .mmap = some (found, t'')
          ∧ found = true := by
    decide +kernel
  obtain ⟨-, -, -, hin, -⟩ := hv.newBigalloc_wellFormed sample_empty.wellFormed sample_empty.toIdle ht
  refine ⟨t, t', ht, ht', hv, NewRequest.valid_of_fits hfits fun n hn => ?_, h⟩
  exact List.mem_singleton.mpr (((hin n).mp hn).resolve_left (sample_empty.not_inUse n))

/-! ### The two main results -/

/-- **Every table reached is well formed.** -/
theorem reachable_wellFormed (env : Env) (t : Table) (h : Reachable env t) : t.WellFormed := by
  suffices hwf : t.WellFormed ∧ t.Idle env from hwf.1
  induction h with
  | empty h => exact ⟨h.wellFormed, h.toIdle⟩
  | @privateHeap t t' r b h hr hnew =>
    obtain ⟨hwf, hi, hs, hin, hup⟩ := hr.newBigalloc_wellFormed h.wellFormed h.toIdle hnew
    refine ⟨hwf.setStart (hs.trans h.start) ((hin b).mpr (.inr rfl)) hup fun n hn => ?_,
      ⟨hi.stack, hi.brk, hi.brkInitialized, hi.mmap⟩⟩
    exact ((hin n).mp hn).resolve_left (h.not_inUse n)
  | new _ hr hnew ih =>
    obtain ⟨hwf, hi, -⟩ := hr.newBigalloc_wellFormed ih.1 ih.2 hnew
    exact ⟨hwf, hi⟩
  | delete _ hstart hdel ih =>
    obtain ⟨hwf, hi, -⟩ := ih.1.deleteBigallocAt_wellFormed ih.2 hstart hdel
    exact ⟨hwf, hi⟩

/-- A run that creates a record, creates one inside it, and deletes the outer one. -/
theorem reachable_wellFormed_sample : ∃ t t' t'',
    newBigalloc sampleEnv {} sampleOuter = some (1, t)
      ∧ t.newBigalloc sampleEnv sampleInner = some (2, t')
      ∧ t'.deleteBigallocAt sampleEnv 4096 .mmap = some (true, t'') ∧ t''.WellFormed := by
  obtain ⟨t, t', ht, ht', hv, hv', ⟨hs, he, -⟩, found, t'', ht'', rfl⟩ := sample_inner
  refine ⟨t, t', t'', ht, ht', ht'', reachable_wellFormed sampleEnv t'' ?_⟩
  refine .delete (.new (.new (.empty sample_empty) hv ht) hv' ht') (fun hc => ?_) ht''
  have := hc.1.2
  rw [hs, he] at this
  omega

/-- **The lookups agree**: each finds the deepest record in use that holds the address. -/
theorem lookups_agree (env : Env) (t : Table) (h : t.WellFormed) (a : Nat)
    (hquiet : t.pageindex (pagenum a) = 0 →
      ∃ claimed, t.notifyUnindexedAddress env a = some (claimed, t)) :
    ∃ r, t.DeepestSuchThat (a ∈ t.addrs ·) r
      ∧ t.plainDescent a = some r
      ∧ t.findDeepestBigalloc env a = some (r, t)
      ∧ t.leafBigallocFor a = some r
      ∧ (∃ allocator, t.leafAllocatorFor a = some (allocator, r))
      ∧ (r = 0 ↔ ∀ n, t.InUse n → a ∉ t.addrs n) := by
  obtain ⟨r, hr, hdeep⟩ := h.leafBigallocFor_spec a
  obtain ⟨r1, hr1, hdeep1⟩ := h.plainDescent_spec a
  obtain ⟨r2, hr2, hdeep2⟩ := h.findDeepestBigalloc_spec a hquiet
  obtain rfl := h.laminar_addrs.deepest_unique hdeep1 hdeep
  obtain rfl := h.laminar_addrs.deepest_unique hdeep2 hdeep
  refine ⟨r2, hdeep, hr1, hr2, hr, ?_, ?_⟩
  · simp only [leafAllocatorFor, hr, some_bind]
    split
    · rename_i h0
      exact ⟨none, by rw [h0]; rfl⟩
    · exact ⟨_, rfl⟩
  · constructor
    · rintro rfl
      rcases hdeep with ⟨-, hno⟩ | ⟨h0, -⟩
      · exact hno
      · exact absurd rfl h0.ne_zero
    · intro hno
      rcases hdeep with ⟨h0, -⟩ | ⟨hu, ha, -⟩
      · exact h0
      · exact absurd ha (hno _ hu)

/-- An address on a page that the inner record covers in part. -/
theorem lookups_agree_sample : ∃ t t', newBigalloc sampleEnv {} sampleOuter = some (1, t)
    ∧ t.newBigalloc sampleEnv sampleInner = some (2, t')
    ∧ t'.pageindex (pagenum 6000) = 1 ∧ t'.plainDescent 6000 = some 2
    ∧ t'.findDeepestBigalloc sampleEnv 6000 = some (2, t') ∧ t'.leafBigallocFor 6000 = some 2 := by
  obtain ⟨t, t', ht, ht', hv, hv', ⟨-, -, hleaf, hpage⟩, -⟩ := sample_inner
  obtain ⟨hwf, hi, -⟩ := hv.newBigalloc_wellFormed sample_empty.wellFormed sample_empty.toIdle ht
  obtain ⟨hwf', -⟩ := hv'.newBigalloc_wellFormed hwf hi ht'
  obtain ⟨r, -, h1, h2, h3, -⟩ := lookups_agree sampleEnv t' hwf' 6000 fun h0 =>
    absurd (hpage.symm.trans h0) (by decide)
  obtain rfl : r = 2 := by simpa [hleaf] using h3.symm
  exact ⟨t, t', ht, ht', hpage, h1, h2, h3⟩

/-- A lookup depends on the records that hold the address and on their parents. -/
theorem WellFormed.leafBigallocFor_congr (h : t.WellFormed) (h' : t'.WellFormed)
    (hold : ∀ m, t'.InUse m ∧ a ∈ t'.addrs m ↔ t.InUse m ∧ a ∈ t.addrs m)
    (hup : ∀ m, t.InUse m → a ∈ t.addrs m → t'.up m = t.up m) :
    t'.leafBigallocFor a = t.leafBigallocFor a := by
  obtain ⟨n, hn, hdeep⟩ := h.leafBigallocFor_spec a
  refine hn ▸ h'.leafBigallocFor_eq ?_
  rcases h.laminar_addrs.deepest_iff.mp hdeep with ⟨h0, hno⟩ | ⟨hu, ha, hbelow⟩
  · exact .inl ⟨h0, fun m hm ham => ((hold m).mp ⟨hm, ham⟩).elim (hno m)⟩
  · obtain ⟨hu', ha'⟩ := (hold n).mpr ⟨hu, ha⟩
    refine h'.laminar_addrs.deepest_of_no_child hu' ha' fun c hc hcn hac => ?_
    obtain ⟨hc, hac⟩ := (hold c).mp ⟨hc, hac⟩
    exact h.links.not_below_up hc (((hup c hc hac).symm.trans hcn).symm ▸ hbelow c hc hac)

/-- **A new record is found for just its addresses**; all others are looked up as before. -/
theorem newBigalloc_looked_up (env : Env) (t t' : Table) (r : NewRequest) (p b a : Nat)
    (h : t.WellFormed) (hi : t.Idle env) (hr : t.ValidRequest r p)
    (hnew : t.newBigalloc env r = some (b, t')) :
    t'.leafBigallocFor a = if r.ptr ≤ a ∧ a < r.ptr + r.size then some b else t.leafBigallocFor a := by
  obtain ⟨hfree, hwf, t1, hadd, rfl⟩ := hr.newBigalloc_added h (hr.newBigallocParent_eq h hi) hnew
  have hb : a ∈ t1.addrs b ↔ r.ptr ≤ a ∧ a < r.ptr + r.size := by
    rw [addrs, Set.mem_ofPred_eq, hadd.begin_eq, hadd.end_eq]
    rfl
  split
  · rename_i ha
    exact hwf.leafBigallocFor_eq (hwf.laminar_addrs.deepest_of_no_child hadd.inUse (hb.mpr ha)
      fun c _ hup => absurd hup (hadd.childless c))
  · rename_i ha
    refine h.leafBigallocFor_congr hwf (fun m => ?_) fun m hm _ =>
      (hadd.old fun hc => hfree (hc ▸ hm)).2.2
    change t1.InUse m ∧ a ∈ t1.addrs m ↔ _
    by_cases hm : m = b
    · exact iff_of_false (fun hc => ha (hb.mp (hm ▸ hc.2))) fun hc => hfree (hm ▸ hc.1)
    · obtain ⟨h1, h2, -⟩ := hadd.old hm
      simp [addrs, hadd.inUse_iff, hm, h1, h2]

/-- With the second record inside the first, an address in both leads to the second, and one that is
only in the first leads to that still. -/
theorem newBigalloc_looked_up_outer : ∃ t t', newBigalloc sampleEnv {} sampleOuter = some (1, t)
    ∧ t.newBigalloc sampleEnv sampleInner = some (2, t')
    ∧ t.leafBigallocFor 6000 = some 1 ∧ t'.leafBigallocFor 6000 = some 2
    ∧ t'.leafBigallocFor 4500 = some 1 := by
  obtain ⟨t, t', ht, ht', hv, hv', -⟩ := sample_inner
  obtain ⟨hwf, hi, -⟩ := hv.newBigalloc_wellFormed sample_empty.wellFormed sample_empty.toIdle ht
  have hfirst : ∀ a, _ := fun a =>
    newBigalloc_looked_up _ _ _ _ _ _ a sample_empty.wellFormed sample_empty.toIdle hv ht
  have hsecond : ∀ a, _ := fun a => newBigalloc_looked_up _ _ _ _ _ _ a hwf hi hv' ht'
  exact ⟨t, t', ht, ht', hfirst 6000, hsecond 6000, (hsecond 4500).trans (hfirst 4500)⟩

/-- **A deleted record gives way to its parent for all its addresses**, also where others were below
it; all other addresses are looked up as before. -/
theorem deleteBigallocAt_looked_up (env : Env) (t t' : Table) (a : Nat) (al : Allocator)
    (h : t.WellFormed) (hi : t.Idle env)
    (hstart : ¬ (a ∈ t.addrs t.start ∧ (t t.start).allocatedBy = some al))
    (hdel : t.deleteBigallocAt env a al = some (true, t')) :
    ∃ b, t.InUse b ∧ a ∈ t.addrs b ∧ (t b).allocatedBy = some al ∧ ∀ x, t'.leafBigallocFor x =
      if (t b).begin ≤ x ∧ x < (t b).end_ then some (t.up b) else t.leafBigallocFor x := by
  obtain ⟨hwf, -⟩ := h.deleteBigallocAt_wellFormed hi hstart hdel
  obtain ⟨n, -, hu, ha, hal, hr, -⟩ := (h.deleteBigallocAt_cases hi hdel).resolve_left (by simp)
  refine ⟨n, hu, ha, hal, fun x => ?_⟩
  have hkeep : ∀ m, t'.InUse m ∧ x ∈ t'.addrs m
      ↔ (t.InUse m ∧ x ∈ t.addrs m) ∧ ¬ Below t.up m n := by
    intro m
    by_cases hs : Below t.up m n
    · simp [hs, hr.gone m hs]
    · simp [hs, addrs, hr.inUse_iff, hr.begin_eq hs, hr.end_eq hs]
  split
  · rename_i hx
    -- what is left over the address lies above the record, so its parent is the deepest
    have hup : ∀ m, t'.InUse m → x ∈ t'.addrs m → Below t.up (t.up n) m := by
      intro m hm hxm
      obtain ⟨⟨hm, hxm⟩, hs⟩ := (hkeep m).mp ⟨hm, hxm⟩
      have hb := (h.laminar_addrs.below_or_below hm hu hxm hx).resolve_left hs
      exact (below_iff.mp hb).resolve_left fun hc => hs (hc ▸ Below.refl _ _)
    refine hwf.leafBigallocFor_eq (hwf.laminar_addrs.deepest_iff.mpr ?_)
    by_cases h0 : t.up n = 0
    · exact .inl ⟨h0, fun m hm hxm =>
        hm.ne_zero (eq_null_of_below h.links.up_zero (h0 ▸ hup m hm hxm))⟩
    · have hn := h.links.not_below_up hu
      have hsub := h.laminar_addrs.subset n hu h0
      obtain ⟨hp, hxp⟩ := (hkeep _).mpr ⟨⟨h.links.up_inUse n hu h0, hsub hx⟩, hn⟩
      exact .inr ⟨hp, hxp, fun m hm hxm => (hr.below_iff hn).mpr (hup m hm hxm)⟩
  · rename_i hx
    have hout : ∀ m, t.InUse m → x ∈ t.addrs m → ¬ Below t.up m n := fun m hm hxm hb =>
      hx (h.laminar_addrs.subset_of_below hm hb hu.ne_zero hxm)
    exact h.leafBigallocFor_congr hwf (fun m => (hkeep m).trans (and_iff_left_of_imp fun hm =>
      hout m hm.1 hm.2)) fun m hm hxm => hr.up_eq (hout m hm hxm)

theorem deleteBigallocAt_looked_up_outer : ∃ (t t' : Table) (b : Nat),
    t.deleteBigallocAt sampleEnv 4096 .mmap = some (true, t') ∧ t.leafBigallocFor 6000 = some 2
      ∧ t.InUse b ∧ t'.leafBigallocFor 4096 = some (t.up b) := by
  obtain ⟨t, t', ht, ht', hv, hv', ⟨hs, he, hleaf, -⟩, -, t'', ht'', rfl⟩ := sample_inner
  obtain ⟨hwf, hi, -⟩ := hv.newBigalloc_wellFormed sample_empty.wellFormed sample_empty.toIdle ht
  obtain ⟨hwf', hi', -⟩ := hv'.newBigalloc_wellFormed hwf hi ht'
  obtain ⟨b, hu, ha, -, hx⟩ := deleteBigallocAt_looked_up sampleEnv t' t'' 4096 .mmap hwf' hi'
    (fun hc => by have := hc.1.2; rw [hs, he] at this; omega) ht''
  exact ⟨t', t'', b, ht'', hleaf, hu, (hx 4096).trans (if_pos ha)⟩

end Liballocs.Table
