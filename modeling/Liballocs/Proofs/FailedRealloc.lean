/-
What a failed reallocation leaves of the index.

The entry of the chunk is deleted before the outcome is known, and made again from the size and the
caller of the failed call.  So the insert gets a new allocation site and loses its type, a promoted
chunk's bigalloc gets the size that was refused and loses its children, and the bitmap reaches over it.
-/
import Liballocs.Proofs.Admission
import Liballocs.Proofs.GenericMallocQuery
import Liballocs.Proofs.Realloc

namespace Liballocs

open Forest

/-! ### The insert -/

theorem Insert.ofInitial_initial (ins : Insert) : ofInitial ins.initial = ins := by
  unfold ofInitial initial
  congr 1
  ext i hi
  simp
  grind

theorem Insert.setAllocSite_eq_self_iff (ins : Insert) (site : Nat) : ins.setAllocSite site = ins
    ↔ ins.isWithType = false ∧ ins.initial.allocSite = BitVec.ofNat 47 site := by
  unfold setAllocSite isWithType
  constructor
  · intro h
    have h := congrArg Insert.initial h
    rw [initial_ofInitial] at h
    rw [← h]
    exact ⟨rfl, rfl⟩
  · intro ⟨h1, h2⟩
    have hunused : ins.initial.unused = 0 := by simpa using h1
    rw [← hunused, ← h2]
    exact ins.ofInitial_initial

namespace MallocIndex

open Table

variable {env : Env} {al : Allocator} {ctx : AllocContext} {A n p x ptr caller arena b k size : Nat}
  {c d : Chunk} {m m' m₁ m₂ : MallocIndex} {es : List Event} {sizefn : Nat → Nat}
  {t t' t₁ t₂ : Table}

theorem genericMallocIndexDelete_inserts (hrun : m.genericMallocIndexDelete env al p = some m') :
    m'.inserts = m.inserts := by
  obtain ⟨⟨b, t₁⟩, -, hrun⟩ := of_bind hrun
  dsimp only at hrun
  split at hrun
  · obtain ⟨al', -, hrun⟩ := of_bind hrun
    obtain ⟨⟨_, t₂⟩, -, hrun⟩ := of_bind hrun
    rw [← Option.some.inj hrun]
  · obtain ⟨⟨_, t₂⟩, -, hrun⟩ := of_bind hrun
    obtain ⟨info', -, hrun⟩ := of_bind hrun
    rw [← Option.some.inj hrun]

/-! ### The bitmap -/

/-- The bytes from the base of the bitmap to the word behind an end address, which wrap around. -/
def bytesTo (info : ArenaBitmapInfo) (end_ : Nat) : Nat :=
  sub64 (roundUp (end_ % 2 ^ 64) wordBytes % 2 ^ 64) info.bitmapBaseAddr

theorem bytesTo_dvd {info : ArenaBitmapInfo} (hb : wordBytes ∣ info.bitmapBaseAddr) (end_ : Nat) :
    wordBytes ∣ bytesTo info end_ := by
  have h64 : wordBytes ∣ 2 ^ 64 := by decide
  have hround : wordBytes ∣ roundUp (end_ % 2 ^ 64) wordBytes % 2 ^ 64 :=
    (Nat.dvd_mod_iff h64).mpr (Nat.dvd_mul_left _ _)
  unfold bytesTo sub64
  split
  · exact Nat.dvd_sub hround hb
  · exact Nat.dvd_sub h64 (Nat.dvd_sub hb hround)

theorem Insertion.nwords_eq_iff (hi : Insertion env al m ptr size caller sizefn p m' arena t₁ t₂)
    (hb : wordBytes ∣ m.info.bitmapBaseAddr) : m'.info.nwords = m.info.nwords
      ↔ bytesTo m.info (ptr + size) ≤ m.info.nwords * wordBytes := by
  obtain ⟨k, hk⟩ := bytesTo_dvd hb (ptr + size)
  rw [hi.nwords, ← ensureHasBitmapTo_mod, ensureHasBitmapTo_nwords, max_eq_left_iff, ← bytesTo, hk,
    Nat.mul_comm m.info.nwords]
  rw [Nat.mul_div_cancel_left _ (by decide), Nat.mul_le_mul_left_iff (by decide)]

/-! ### The bigallocs of the promoted chunks -/

/-- The extents of a record's children. -/
def childExtents (t : Table) (n : Nat) : Set (Nat × Nat) :=
  { e | ∃ k, t.InUse k ∧ t.up k = n ∧ e = ((t.bigAllocations k).begin, (t.bigAllocations k).end_) }

/-- The bigallocs that the allocator has under the arena, with their extents and children. -/
def promotedBigallocs (t : Table) (al : Allocator) (A : Nat) : Set (Nat × Nat × Set (Nat × Nat)) :=
  { e | ∃ n, t.InUse n ∧ t.up n = A ∧ (t.bigAllocations n).allocatedBy = some al
    ∧ e = ((t.bigAllocations n).begin, (t.bigAllocations n).end_, childExtents t n) }

/-- What promoting a chunk of any size does to the records and to the page index. -/
structure Promoted (al : Allocator) (A : Nat) (t : Table) (b ptr size : Nat) (t' : Table) : Prop where
  bounds : 0 < b ∧ b < nbigallocs
  free : ¬ t.InUse b
  frame : Frame al t {b} t'
  up_eq : t'.up b = A
  begin_eq : (t'.bigAllocations b).begin = ptr
  end_eq : (t'.bigAllocations b).end_ = ptr + size
  indexed : ∀ q, t.pageindex q ≠ 0 → t'.pageindex q ≠ 0

theorem Indexed.exists_promoted (h : Indexed al A m es)
    (hrun : promote env m.table A ptr size = some t') : ∃ b, Promoted al A m.table b ptr size t' := by
  have hA := h.arena.inUse
  simp only [MallocIndex.promote, if_neg hA.ne_zero, Option.bind_eq_bind, Option.pure_def,
    Option.bind_eq_some_iff, Option.some.injEq] at hrun
  obtain ⟨⟨b, t₂⟩, hnew, rfl⟩ := hrun
  have hparent : m.table.newBigallocParent env
      { ptr := ptr, size := size, maybeParent := A,
        allocatedBy := (m.table A).suballocator } = some (A, m.table) :=
    if_pos hA.ne_zero
  obtain ⟨⟨hlo, hhi, hfree⟩, t₁, hmade, rfl⟩ :=
    newBigalloc_made h.wellFormed.links hparent (fun _ => hA) hnew
  refine ⟨b, ⟨hlo, hhi⟩, hfree, ⟨hmade.keep, ?_, ?_⟩, hmade.up_eq, hmade.begin_eq, hmade.end_eq, ?_⟩
  · intro n _ hup
    exact hfree (h.wellFormed.links.up_eq_inUse hup hlo.ne').2
  · intro n hn _
    rw [Set.mem_singleton_iff.mp hn]
    have := congrArg (·.allocatedBy) hmade.new
    exact this.trans h.arena.suballocator
  · intro q hq
    have hpages : t₁.pageindex = m.table.pageindex := by rw [hmade.rest]
    simp only [setPages, hpages]
    split
    · exact hlo.ne'
    · exact hq

theorem Promoted.inUse (hp : Promoted al A t b ptr size t') (hptr : ptr ≠ 0) :
    t'.InUse b := by
  refine ⟨hp.bounds.1, hp.bounds.2, ?_, ?_⟩
  · rw [hp.begin_eq]
    exact hptr
  · rw [hp.end_eq]
    omega

theorem Promoted.childExtents_eq (hp : Promoted al A t b ptr size t')
    (hA : t.InUse A) : childExtents t' b = ∅ := by
  refine Set.eq_empty_iff_forall_notMem.mpr ?_
  rintro e ⟨k, -, hup, -⟩
  by_cases hkb : k = b
  · rw [hkb, hp.up_eq] at hup
    exact hp.free (hup ▸ hA)
  · exact hp.frame.closed k hkb ((up_congr (hp.frame.keep k hkb)).symm.trans hup)

/-- A record that is the same in two tables, up to sibling links. -/
def SameRecord (t t' : Table) (k : Nat) : Prop :=
  t.InUse k ∧ t'.InUse k ∧ (t'.bigAllocations k).core = (t.bigAllocations k).core

theorem SameRecord.extent_eq (h : SameRecord t t' k) :
    (t' k).begin = (t k).begin ∧ (t' k).end_ = (t k).end_ ∧ (t' k).allocatedBy = (t k).allocatedBy
      ∧ t'.up k = t.up k := by
  obtain ⟨h1, h2⟩ := bounds_congr h.2.2
  have h3 := congrArg (·.allocatedBy) h.2.2
  exact ⟨h1, h2, h3, up_congr h.2.2⟩

theorem childExtents_congr (h : ∀ j, t.InUse j → t.up j = k → SameRecord t t' j)
    (h' : ∀ j, t'.InUse j → t'.up j = k → SameRecord t t' j) :
    childExtents t' k = childExtents t k := by
  ext e
  constructor
  · rintro ⟨j, hj, hup, rfl⟩
    have hs := h' j hj hup
    obtain ⟨h1, h2, -, h4⟩ := hs.extent_eq
    exact ⟨j, hs.1, h4.symm.trans hup, by rw [h1, h2]⟩
  · rintro ⟨j, hj, hup, rfl⟩
    have hs := h j hj hup
    obtain ⟨h1, h2, -, h4⟩ := hs.extent_eq
    exact ⟨j, hs.2.1, h4.trans hup, by rw [h1, h2]⟩

/-! ### After the deletion -/

section

variable (h : Indexed al A m es) (hc : c ∈ live es)
  (hdel : m.genericMallocIndexDelete env al c.ptr = some m₁)
include h hc hdel

theorem Indexed.reinsert_bitmap (hptr : ptr = c.ptr)
    (hi : Insertion env al m₁ ptr size caller sizefn p m₂ arena t₁ t₂) :
    m₂.info.bitmap = m.info.bitmap := by
  subst hptr
  obtain ⟨hf, -⟩ := h.fits c hc
  have hset : m.info.bitmap (m.info.bitOf c.ptr) = true := (h.bits _).mpr (.inl ⟨c, hc,
      (Bitmap.base_add_bitOf h.base_dvd hf.aligned (h.base_le_ptr hf)).symm⟩)
  have hbit : m₁.info.bitOf c.ptr = m.info.bitOf c.ptr := by
    unfold ArenaBitmapInfo.bitOf
    rw [(genericMallocIndexDelete_info hdel).2.1]
  have hself : Function.update m.info.bitmap (m.info.bitOf c.ptr) true = m.info.bitmap :=
    Function.update_eq_self_iff.mpr hset.symm
  rw [hi.bitmap, (Bitmap.ensureHasBitmapTo_eq (h.delete hc hdel).covered _).1, hbit]
  rcases h.delete_cases hc hdel with ⟨-, hinfo, -⟩ | ⟨-, -, hinfo⟩
  · rw [hinfo, hself]
  · rw [hinfo, Function.update_idem, hself]

theorem Indexed.pageindex_deleted (hx : m.table.pageindex (pagenum x) ≠ 0) :
    m₁.table.pageindex (pagenum x) ≠ 0 := by
  rcases h.delete_cases hc hdel with ⟨-, -, hwf, k, hk, hr⟩ | ⟨-, ht, -⟩
  · obtain ⟨hu, hxr⟩ := h.wellFormed.mem_addrs_pageindex hx
    by_cases hb : Below m.table.up (m.table.pageindex (pagenum x)) k
    · have hA : A ∉ { n | Below m.table.up n k } :=
        hk.up_eq ▸ h.wellFormed.links.not_below_up hk.inUse
      have hbA : Below m.table.up (m.table.pageindex (pagenum x)) A := hb.trans ⟨1, hk.up_eq⟩
      have hxA := h.wellFormed.laminar_addrs.subset_of_below hu hbA h.arena.inUse.ne_zero hxr
      refine hwf.pageindex_ne_zero (hr.inUse_iff.mpr ⟨h.arena.inUse, hA⟩) ?_
      rw [addrs, hr.begin_eq hA, hr.end_eq hA]
      exact hxA
    · refine hwf.pageindex_ne_zero (hr.inUse_iff.mpr ⟨hu, hb⟩) ?_
      rw [addrs, hr.begin_eq hb, hr.end_eq hb]
      exact hxr
  · rw [ht]
    exact hx

theorem Indexed.of_promotedBigallocs_eq (hrun : promote env m₁.table A c.ptr size = some t')
    (heq : promotedBigallocs t' al A = promotedBigallocs m.table al A)
    (hn : IsBigallocOf m.table al A n c) :
    size = c.requested ∧ ∀ k, m.table.InUse k → m.table.up k ≠ n := by
  have hd := h.delete hc hdel
  obtain ⟨b, hp⟩ := hd.exists_promoted hrun
  have hmem : (c.ptr, c.ptr + c.requested, childExtents m.table n) ∈ promotedBigallocs t' al A := by
    rw [heq]
    exact ⟨n, hn.inUse, hn.up_eq, hn.allocatedBy, by rw [hn.begin_eq, hn.end_eq]⟩
  obtain ⟨k, hk, hup, hal, hext⟩ := hmem
  obtain ⟨hbegin, hend, hkids⟩ : c.ptr = (t' k).begin ∧ c.ptr + c.requested = (t' k).end_
      ∧ childExtents m.table n = childExtents t' k := by simpa using hext
  have hkb : k = b := by
    by_contra hne
    have hu := (inUse_congr (hp.frame.keep k hne)).mp hk
    have hup' := (up_congr (hp.frame.keep k hne)).symm.trans hup
    rw [hp.frame.allocatedBy_eq hne] at hal
    rw [hp.frame.begin_eq hne] at hbegin
    have hkA : k ≠ A := by
      rintro rfl
      exact hd.wellFormed.links.up_ne_self hu hup'
    obtain ⟨d, hdl, -, hdb⟩ := hd.only k hu ⟨1, hup'⟩ hkA hal
    exact h.ptr_ne hc hdl.1 hdl.2 (hdb.begin_eq.symm.trans hbegin.symm)
  subst hkb
  rw [hp.end_eq] at hend
  rw [hp.childExtents_eq hd.arena.inUse] at hkids
  refine ⟨by omega, ?_⟩
  intro j hj hup
  have hmem : ((m.table j).begin, (m.table j).end_) ∈ childExtents m.table n := ⟨j, hj, hup, rfl⟩
  rw [hkids] at hmem
  exact hmem

/-- A childless bigalloc that is deleted and made again in its size is as it was. -/
theorem Indexed.promotedBigallocs_eq (hp : c.promoted)
    (hrun : promote env m₁.table A c.ptr c.requested = some t') (hn : IsBigallocOf m.table al A n c)
    (hkids : ∀ k, m.table.InUse k → m.table.up k ≠ n) :
    promotedBigallocs t' al A = promotedBigallocs m.table al A := by
  have hd := h.delete hc hdel
  obtain ⟨b, hb⟩ := hd.exists_promoted hrun
  rcases h.delete_cases hc hdel with ⟨-, -, -, n', hn', hr⟩ | ⟨hno, -⟩
  swap
  · exact absurd hp hno
  obtain rfl := hn.unique h.wellFormed hn' rfl
  have hold : ∀ k, m.table.InUse k → ¬ Below m.table.up k n → SameRecord m.table t' k := by
    intro k hk hbelow
    have hu := hr.inUse_iff.mpr ⟨hk, hbelow⟩
    have hkb : k ≠ b := fun hkb => hb.free (hkb ▸ hu)
    have hcore := (hb.frame.keep k hkb).trans (hr.keep k hbelow)
    exact ⟨hk, (inUse_congr hcore).mpr hk, hcore⟩
  have hnew : ∀ k, t'.InUse k → k ≠ b → SameRecord m.table t' k := by
    intro k hk hkb
    obtain ⟨hu, hbelow⟩ := hr.inUse_iff.mp ((inUse_congr (hb.frame.keep k hkb)).mp hk)
    exact hold k hu hbelow
  have hchildren : ∀ k, m.table.InUse k → m.table.up k = A → k ≠ n →
      ¬ Below m.table.up k n ∧ childExtents t' k = childExtents m.table k := by
    intro k hk hup hkn
    obtain ⟨e, he⟩ := h.wellFormed.links.exists_depth hk
    have hbelow : ¬ Below m.table.up k n := fun hbk =>
      hkn (hbk.eq_of_sibling h.wellFormed.links.up_zero he hn.inUse.ne_zero (hup.trans hn.up_eq.symm))
    have hkA : A ≠ k := fun hkA => h.wellFormed.links.up_ne_self hk (hup.trans hkA)
    refine ⟨hbelow, childExtents_congr ?_ ?_⟩
    · intro j hj hupj
      refine hold j hj fun hbj => ?_
      rcases below_iff.mp hbj with rfl | hbj
      · exact hkA (hn.up_eq.symm.trans hupj)
      · exact hbelow (hupj ▸ hbj)
    · intro j hj hupj
      refine hnew j hj ?_
      rintro rfl
      exact hkA (hb.up_eq.symm.trans hupj)
  have hnkids : childExtents m.table n = ∅ :=
    Set.eq_empty_iff_forall_notMem.mpr fun e ⟨k, hk, hup, _⟩ => hkids k hk hup
  have hbn : ((t' b).begin, (t' b).end_, childExtents t' b) = ((m.table n).begin, (m.table n).end_,
        childExtents m.table n) := by
    rw [hb.begin_eq, hb.end_eq, hb.childExtents_eq hd.arena.inUse, hn.begin_eq, hn.end_eq, hnkids]
  ext e
  constructor
  · rintro ⟨k, hk, hup, hal, rfl⟩
    by_cases hkb : k = b
    · rw [hkb, hbn]
      exact ⟨n, hn.inUse, hn.up_eq, hn.allocatedBy, rfl⟩
    · have hs := hnew k hk hkb
      obtain ⟨h1, h2, h3, h4⟩ := hs.extent_eq
      have hkn : k ≠ n := by
        rintro rfl
        exact (hr.inUse_iff.mp ((inUse_congr (hb.frame.keep k hkb)).mp hk)).2 (Below.refl _ k)
      have hupk := h4.symm.trans hup
      refine ⟨k, hs.1, hupk, h3 ▸ hal, ?_⟩
      rw [h1, h2, (hchildren k hs.1 hupk hkn).2]
  · rintro ⟨k, hk, hup, hal, rfl⟩
    by_cases hkn : k = n
    · rw [hkn, ← hbn]
      have hu : t'.InUse b := hb.inUse (hn.begin_eq ▸ hn.inUse.2.2.1)
      exact ⟨b, hu, hb.up_eq, hb.frame.own b rfl hu, rfl⟩
    · obtain ⟨hbelow, hext⟩ := hchildren k hk hup hkn
      have hs := hold k hk hbelow
      obtain ⟨h1, h2, h3, h4⟩ := hs.extent_eq
      refine ⟨k, hs.2.1, h4.trans hup, h3.trans hal, ?_⟩
      rw [h1, h2, hext]

/-! ### A failed reallocation -/

/-- The index says the same of the chunks as it did. -/
structure Restored (al : Allocator) (A : Nat) (c : Chunk) (m m' : MallocIndex) : Prop where
  bitmap : m'.info.bitmap = m.info.bitmap
  nwords : m'.info.nwords = m.info.nwords
  bigallocs : promotedBigallocs m'.table al A = promotedBigallocs m.table al A
  insert : m'.inserts (insertAddr c) = m.inserts (insertAddr c)

theorem Indexed.failed_table (hsizefn : sizefn c.ptr = c.usable)
    (hquiet : env.systrapIsInitialized = true ∨ m.table.pageindex (pagenum
      (sub64 ((c.ptr + size) % 2 ^ 64) 1)) ≠ 0)
    (hins : m₁.genericMallocIndexInsert env al c.ptr size caller sizefn = some (p, m₂))
    (hfind : m₂.table.findBigallocFromTop env c.ptr al false = some (b, t')) :
    (if c.promoted then promote env m₁.table A c.ptr size else some m₁.table) = some t' := by
  have hd := h.delete hc hdel
  obtain ⟨arena, t₁, t₂, hi⟩ := genericMallocIndexInsert_eq_some hins
  obtain ⟨_, hlast⟩ := hi.last
  obtain rfl := findBigallocFromTop_quiet (hquiet.imp_right (h.pageindex_deleted hc hdel)) hlast
  have hptr : c.ptr ∈ m₁.table.addrs A := by
    obtain ⟨hf, hpos⟩ := h.fits c hc
    have hf := h.fits_deleted hc hdel hf
    have hsize := hf.size
    have hend := hf.le_end
    exact ⟨hf.begin_le, by omega⟩
  have hpage := hd.wellFormed.pageindex_ne_zero hd.arena.inUse hptr
  obtain ⟨rfl, rfl⟩ := Prod.mk.inj (Option.some.inj
    (hi.first.symm.trans (hd.arena.find_suballocator hd.wellFormed hptr)))
  have htable := hi.table
  rw [hsizefn] at htable
  have hpage2 : m₂.table.pageindex (pagenum c.ptr) ≠ 0 := by
    split at htable
    · obtain ⟨b', hb'⟩ := hd.exists_promoted htable
      exact hb'.indexed _ hpage
    · rw [← Option.some.inj htable]
      exact hpage
  rw [findBigallocFromTop_quiet (.inr hpage2) hfind]
  exact htable

end

/-- **A failed reallocation leaves the index as it was exactly if** the insert has no type and the
allocation site of the failed call, the bitmap reaches over the size that was refused, and a promoted
chunk has that size and no children. -/
theorem failed_realloc_restored_iff (env : Env) (al : Allocator) (A : Nat) (ctx : AllocContext)
    (m m' : MallocIndex) (es : List Event) (c : Chunk) (size caller p : Nat) (sizefn : Nat → Nat)
    (h : Indexed al A m es) (hc : c ∈ live es) (hsizefn : sizefn c.ptr = c.usable)
    (hquiet : env.systrapIsInitialized = true ∨ m.table.pageindex (pagenum
      (sub64 ((c.ptr + requestedSizeAfterRealloc ctx (preAlloc size)) % 2 ^ 64) 1)) ≠ 0)
    (hhooks : m.reallocHooks env al ctx c.ptr size c.usable caller 0 sizefn = some (p, m')) :
    Restored al A c m m'
      ↔ ((m.inserts (insertAddr c)).isWithType = false
          ∧ (m.inserts (insertAddr c)).initial.allocSite = BitVec.ofNat 47 (ctx.siteOr caller))
        ∧ bytesTo m.info (c.ptr + requestedSizeAfterRealloc ctx (preAlloc size))
          ≤ m.info.nwords * wordBytes
        ∧ (c.promoted → requestedSizeAfterRealloc ctx (preAlloc size) = c.requested
          ∧ ∀ n, IsBigallocOf m.table al A n c → ∀ k, m.table.InUse k → m.table.up k ≠ n) := by
  obtain ⟨m₁, m₂, b, t, hdel, hins, hfind, htable, hm'⟩ :=
    (reallocHooks_eq_some_iff (.inl rfl)).mp hhooks
  have hptr : c.ptr ≠ 0 := by
    have h1 := h.arena.inUse.2.2.1
    have h2 := (h.fits c hc).1.begin_le
    omega
  rw [if_neg fun h0 => hptr h0.1.symm] at htable
  obtain rfl := Option.some.inj htable
  have htable := h.failed_table hc hdel hsizefn hquiet hins hfind
  obtain ⟨arena, t₁, t₂, hi⟩ := genericMallocIndexInsert_eq_some hins
  obtain ⟨hnw, hbase, -⟩ := genericMallocIndexDelete_info hdel
  have hinfo : m'.info = m₂.info := by rw [hm']
  have hbits : m'.info.bitmap = m.info.bitmap := by
    rw [hinfo]
    exact h.reinsert_bitmap hc hdel rfl hi
  have hwords := hi.nwords_eq_iff (hbase ▸ h.base_dvd)
  rw [← hinfo, hnw, bytesTo, hbase, ← bytesTo] at hwords
  have hinsert : m'.inserts (insertAddr c)
      = (m.inserts (insertAddr c)).setAllocSite (ctx.siteOr caller) := by
    have hp : p = insertAddr c := hi.insert.trans (insertForChunk_live hsizefn)
    rw [hm', ← hp]
    simp [hi.inserts, Function.update_self, genericMallocIndexDelete_inserts hdel]
  rw [← Insert.setAllocSite_eq_self_iff, ← hinsert, ← hwords]
  by_cases hp : c.promoted
  · obtain ⟨n, hn⟩ := h.promoted c hc hp
    rw [if_pos hp] at htable
    constructor
    · intro hres
      obtain ⟨hsize, hkids⟩ := h.of_promotedBigallocs_eq hc hdel htable hres.bigallocs hn
      refine ⟨hres.insert, hres.nwords, fun _ => ⟨hsize, fun k hk => ?_⟩⟩
      rw [hk.unique h.wellFormed hn rfl]
      exact hkids
    · intro ⟨hsite, hnwords, hbig⟩
      obtain ⟨hsize, hkids⟩ := hbig hp
      rw [hsize] at htable
      exact ⟨hbits, hnwords, h.promotedBigallocs_eq hc hdel hp htable hn (hkids n hn), hsite⟩
  · rw [if_neg hp] at htable
    have ht : m'.table = m.table := by
      rcases h.delete_cases hc hdel with ⟨hp', -⟩ | ⟨-, ht, -⟩
      · exact absurd hp' hp
      · exact (Option.some.inj htable).symm.trans ht
    constructor
    · intro hres
      exact ⟨hres.insert, hres.nwords, fun hp' => absurd hp' hp⟩
    · intro ⟨hsite, hnwords, _⟩
      exact ⟨hbits, hnwords, by rw [ht], hsite⟩

/-- Both small chunks and the big one are inserted, and the first small one is deleted. -/
def failedEvents : List Event :=
  [.delete sampleSmall, .insert sampleHigh, .insert sampleNext, .insert sampleSmall]

/-- Calls from the place where the second small chunk was allocated: for 200 bytes, and for so many
that the end wraps around to a place below the chunk. -/
theorem failed_realloc_restored_sample : ∃ m,
    Runs sampleEnv .genericMalloc 1 sampleArena failedEvents m
      ∧ ∀ size ∈ [200, 2 ^ 64 - 24], ∃ m' p,
        m.reallocHooks sampleEnv .genericMalloc {} 1048704 size 120 4198400 0 (fun _ => 120)
          = some (p, m')
        ∧ Restored .genericMalloc 1 sampleNext m m' := by
  have hes : sampleFits failedEvents = true := by decide
  obtain ⟨m, hrun, hsite, hsizes⟩ := exists_runs
    (P := fun m => ((m.inserts (insertAddr sampleNext)).isWithType = false
        ∧ (m.inserts (insertAddr sampleNext)).initial.allocSite = BitVec.ofNat 47 4198400)
      ∧ ∀ size ∈ [200, 2 ^ 64 - 24], (m.table.pageindex (pagenum (sub64
          ((1048704 + requestedSizeAfterRealloc {} (preAlloc size)) % 2 ^ 64) 1)) ≠ 0)
        ∧ bytesTo m.info (1048704 + requestedSizeAfterRealloc {} (preAlloc size))
          ≤ m.info.nwords * wordBytes
        ∧ ∃ p m', m.reallocHooks sampleEnv .genericMalloc {} 1048704 size 120 4198400 0 (fun _ => 120)
          = some (p, m') ∧ True) hes (by decide +kernel)
  have h := hrun.indexed sampleArena_start (sampleFits_requested hes)
  have hlive : sampleNext ∈ live failedEvents := mem_liveChunks.mp (by decide)
  refine ⟨m, hrun, fun size hsize => ?_⟩
  obtain ⟨hpage, hreach, p, m', hhooks, -⟩ := hsizes size hsize
  exact ⟨m', p, hhooks, (failed_realloc_restored_iff sampleEnv .genericMalloc 1 {} m m' _ sampleNext
    size 4198400 p (fun _ => 120) h hlive rfl (.inr hpage) hhooks).mpr
      ⟨hsite, hreach, fun hp => absurd hp (by decide)⟩⟩

/-- A promoted chunk of 200,000 bytes is a bigalloc of 400,000 after a failed call for that many. -/
theorem failed_realloc_resizes : ∃ m m' p,
    Runs sampleEnv .genericMalloc 1 sampleArena [.insert sampleChunk] m
      ∧ m.reallocHooks sampleEnv .genericMalloc {} 1048576 400000 200016 0 0 (fun _ => 200016)
        = some (p, m')
      ∧ (m.table.bigAllocations 2).begin = 1048576
      ∧ (m.table.bigAllocations 2).end_ = 1048576 + 200000
      ∧ (m'.table.bigAllocations 2).begin = 1048576
      ∧ (m'.table.bigAllocations 2).end_ = 1048576 + 400000 := by
  obtain ⟨m, hrun, p, m', hhooks⟩ := exists_runs (l := [.insert sampleChunk]) (P := fun m => ∃ p m',
    m.reallocHooks sampleEnv .genericMalloc {} 1048576 400000 200016 0 0 (fun _ => 200016)
      = some (p, m')
    ∧ (m.table 2).begin = 1048576
    ∧ (m.table 2).end_ = 1048576 + 200000
    ∧ (m'.table 2).begin = 1048576
    ∧ (m'.table 2).end_ = 1048576 + 400000) (by decide) (by decide +kernel)
  exact ⟨m, m', p, hrun, hhooks⟩

end MallocIndex

end Liballocs
