/-
`do_munmap` in terms of addresses: the range is taken out of the addresses covered by mmap bigallocs,
and the attributes of every other address stay.

The loop has been followed record by record.  Here the records are forgotten: the cover is the union of
the top-level mmap bigallocs, and an address has the attributes of the entry that holds it, in the
sequence of the bigalloc that covers it.  The last part looks a mapping up in the same terms.
-/
import Liballocs.Proofs.Mapped

namespace Liballocs.Table

open Forest

open MappingSequence

variable {env : Env} {t t' : Table} {a b e m n new p r x : Nat}

/-! ### The addresses that are left -/

theorem Trimmed.mem_addrs_iff (ht : t.Trimmed a e t') (hno : ∀ b, ¬ t.HoleIn b a e)
    (hr : t.Top r) (hns : r ∉ t.inRange a e) :
    x ∈ t'.addrs r ↔ x ∈ t.addrs r ∧ ¬ (a ≤ x ∧ x < e) := by
  have hhole := hno r
  simp only [HoleIn, hr, true_and] at hhole
  simp only [addrs, Set.mem_ofPred_eq, ht.begin_eq hns hr, ht.end_eq hns hr, BigAllocation.trim]
  split_ifs <;> omega

theorem Trimmed.mmapCover_eq (h : t.Mapped) (ht : t.Trimmed a e t')
    (hno : ∀ b, ¬ t.HoleIn b a e) : t'.mmapCover = t.mmapCover \ { x | a ≤ x ∧ x < e } := by
  have hwf := h.wellFormed
  ext x
  constructor
  · rintro ⟨r, hr, -, hx⟩
    obtain ⟨hr, hns⟩ := (ht.top_iff hwf).mp hr
    obtain ⟨hx, hout⟩ := (ht.mem_addrs_iff hno hr hns).mp hx
    exact ⟨⟨r, hr, h.allocatedBy r hr, hx⟩, hout⟩
  · rintro ⟨⟨r, hr, hal, hx⟩, hout⟩
    have hns : r ∉ t.inRange a e := by
      rw [hr.mem_inRange_iff hwf.links]
      rintro ⟨h1, h2⟩
      exact hout ⟨h1.trans hx.1, hx.2.trans_le h2⟩
    exact ⟨r, (ht.top_iff hwf).mpr ⟨hr, hns⟩, (ht.allocatedBy_eq hns hr).trans hal,
      (ht.mem_addrs_iff hno hr hns).mpr ⟨hx, hout⟩⟩

theorem Punched.allocatedBy_eq (hp : t.Punched b a e new p t') (hn : n ≠ new) :
    (t' n).allocatedBy = (t n).allocatedBy := by
  by_cases hnb : n = b
  · have := congrArg (·.allocatedBy) hp.before
    rw [hnb]
    exact this
  · exact (congrArg (·.allocatedBy) (hp.others n hnb hn) :)

theorem Punched.allocatedBy_new (hp : t.Punched b a e new p t') :
    (t' new).allocatedBy = (t b).allocatedBy :=
  (congrArg (·.allocatedBy) hp.behind :)

theorem Punched.mmapCover_eq (h : t.Mapped) (hb : t.HoleIn b a e)
    (hp : t.Punched b a e new p t') : t'.mmapCover = t.mmapCover \ { x | a ≤ x ∧ x < e } := by
  have hwf := h.wellFormed
  obtain ⟨htop, h1, h2, h3⟩ := id hb
  have htops := fun n => hp.top_iff (n := n) (by omega) htop
  ext x
  constructor
  · rintro ⟨r, hr, -, hx⟩
    rcases (htops r).mp hr with hr | rfl
    · have hrn : r ≠ new := fun hc => hp.free (hc ▸ hr.1)
      simp only [addrs, Set.mem_ofPred_eq, hp.begin_eq hrn, hp.end_eq hrn] at hx
      split at hx
      · rename_i hrb
        subst hrb
        exact ⟨⟨r, hr, h.allocatedBy r hr, hx.1, by omega⟩, fun hc => by have := hc.1; omega⟩
      · rename_i hrb
        refine ⟨⟨r, hr, h.allocatedBy r hr, hx⟩, fun hc => ?_⟩
        obtain ⟨h4, h5⟩ := hc
        rcases hb.apart hwf hr hrb with h6 | h6 <;> omega
    · simp only [addrs, Set.mem_ofPred_eq, hp.begin_new, hp.end_new] at hx
      exact ⟨⟨b, htop, h.allocatedBy b htop, by omega, hx.2⟩, fun hc => by have := hc.2; omega⟩
  · rintro ⟨⟨r, hr, hal, hx⟩, hout⟩
    have hrn : r ≠ new := fun hc => hp.free (hc ▸ hr.1)
    by_cases hrb : r = b
    · subst hrb
      have hout' : x < a ∨ e ≤ x := by
        simp only [Set.mem_ofPred_eq] at hout
        omega
      rcases hout' with hlt | hle
      · refine ⟨r, (htops r).mpr (.inl hr), (hp.allocatedBy_eq hrn).trans hal, ?_, ?_⟩
        · rw [hp.begin_eq hrn]
          exact hx.1
        · rw [hp.end_eq hrn, if_pos rfl]
          exact hlt
      · refine ⟨new, (htops new).mpr (.inr rfl), hp.allocatedBy_new.trans hal, ?_, ?_⟩
        · rw [hp.begin_new]
          exact hle
        · rw [hp.end_new]
          exact hx.2
    · refine ⟨r, (htops r).mpr (.inl hr), (hp.allocatedBy_eq hrn).trans hal, ?_, ?_⟩
      · rw [hp.begin_eq hrn]
        exact hx.1
      · rw [hp.end_eq hrn, if_neg hrb]
        exact hx.2

theorem Unmapped.mmapCover_eq (h : t.Mapped) (hu : t.Unmapped a e t') :
    t'.mmapCover = t.mmapCover \ { x | a ≤ x ∧ x < e } := by
  rcases hu with ⟨ht, hno⟩ | ⟨b, new, p, hb, hp⟩
  · exact ht.mmapCover_eq h hno
  · exact hp.mmapCover_eq h hb

theorem Unmapped.apart (h : t.WellFormed) (hu : t.Unmapped a e t') (hm : t'.Top m) (hn : t'.Top n)
    (hne : m ≠ n) : t'.Apart m n := by
  rcases hu with ⟨ht, -⟩ | ⟨b, new, p, ⟨htop, h1, h2, h3⟩, hp⟩
  · exact ht.apart h hm hn hne
  · exact hp.apart h htop h1 h2.le h3 hm hn hne

theorem Unmapped.allocatedBy (h : t.Mapped) (hu : t.Unmapped a e t') (hr : t'.Top r) :
    (t' r).allocatedBy = some .mmap := by
  rcases hu with ⟨ht, -⟩ | ⟨b, new, p, ⟨htop, h1, h2, h3⟩, hp⟩
  · obtain ⟨hr, hns⟩ := (ht.top_iff h.wellFormed).mp hr
    exact (ht.allocatedBy_eq hns hr).trans (h.allocatedBy r hr)
  · rcases (hp.top_iff (by omega) htop).mp hr with hr | rfl
    · exact (hp.allocatedBy_eq fun hc => hp.free (hc ▸ hr.1)).trans (h.allocatedBy r hr)
    · exact hp.allocatedBy_new.trans (h.allocatedBy b htop)

/-! ### The result -/

/-- Within the limits `do_munmap` returns, and the sequences keep up with the records. -/
theorem Mapped.doMunmap_returns {len : Nat} (h : t.Mapped) (hsys : env.systrapIsInitialized = true)
    (ha : PageAligned a) (hlim : t.WithinLimits env a (a + roundUp len pageSize)) :
    ∃ t', t.doMunmap env a len = some t' ∧ t.InheritsAll t'
      ∧ t.Unmapped a (a + roundUp len pageSize) t' := by
  have hdiv : roundUp len pageSize / pageSize * pageSize = roundUp len pageSize :=
    Nat.div_mul_cancel (pageAligned_roundUp len)
  obtain ⟨t', hrun, hall⟩ := doMunmapLoop_returns h hsys hlim ha
    (Nat.dvd_add ha (pageAligned_roundUp len)) (roundUp len pageSize / pageSize + 2) t a
    (.inl ⟨rfl, rfl⟩) (fun r hr _ => h.inherits_refl hlim.tidy hr) le_rfl
    (Nat.le_add_right _ _) ha (by rw [Nat.add_mul, hdiv]; omega)
  rw [Nat.add_sub_cancel_left] at hrun
  exact ⟨t', hrun, hall,
    doMunmap_unmapped h.wellFormed hsys (fun r hr _ => h.allocatedBy r hr) ha hrun⟩

theorem Unmapped.hasAttributes_iff {attributes : Nat × Nat × Bool × Nat} (hu : t.Unmapped a e t')
    (h : t.Mapped) (hall : t.InheritsAll t') (hx : x ∈ t'.mmapCover) :
    t'.HasAttributes x attributes ↔ t.HasAttributes x attributes := by
  refine hall.hasAttributes_iff h.wellFormed hx fun r r' hr hr' hxr hxr' => ?_
  by_contra hne
  exact Set.disjoint_left.mp (hu.apart h.wellFormed hr hr' hne).disjoint_addrs hxr hxr'

/-- **`do_munmap` within the limits**: it returns; the addresses covered by mmap bigallocs are those
there were but for the range; each bigalloc left has a sane sequence of its own and of its bounds; and
each address left has the attributes it had. -/
theorem doMunmap_correct (env : Env) (t : Table) (a len : Nat) (h : t.Mapped)
    (hsys : env.systrapIsInitialized = true) (ha : PageAligned a)
    (hlim : t.WithinLimits env a (a + roundUp len pageSize)) :
    ∃ t', t.doMunmap env a len = some t'
      ∧ t'.mmapCover = t.mmapCover \ { x | a ≤ x ∧ x < a + roundUp len pageSize }
      ∧ (∀ r, t'.Top r → (t'.bigAllocations r).allocatedBy = some .mmap ∧ t'.Backed r)
      ∧ (∀ m n, t'.Top m → t'.Top n → m ≠ n → t'.Apart m n ∧ t'.seqOf m ≠ t'.seqOf n)
      ∧ ∀ x ∈ t'.mmapCover, ∀ attributes,
        t'.HasAttributes x attributes ↔ t.HasAttributes x attributes := by
  obtain ⟨t', hrun, hall, hu⟩ := h.doMunmap_returns hsys ha hlim
  refine ⟨t', hrun, hu.mmapCover_eq h, fun r hr => ⟨hu.allocatedBy h hr, hall.backed hr⟩,
    fun m n hm hn hne => ?_, fun x hx attributes => hu.hasAttributes_iff h hall hx⟩
  have hap := hu.apart h.wellFormed hm hn hne
  exact ⟨hap, hap.seqOf_ne (hall.backed hm) (hall.backed hn)⟩

theorem sampleSequence_sane : sampleSequence.Sane ∧ sampleSequence.Tidy := by
  refine ⟨⟨by decide, by decide, by decide, by decide⟩, fun i hi _ => .inl ?_⟩
  have h0 : i ≠ 0 := Nat.ne_of_gt hi
  simp [sampleSequence, h0]

theorem sampleTable_mapped : sampleTable.Mapped ∧ sampleTable.TidySequences := by
  obtain ⟨hwf, -, hin, hs⟩ := sampleTable_wellFormed
  obtain ⟨-, -, hb, he, -, -, hal⟩ := sampleTable_records
  obtain ⟨hsane, htidy⟩ := sampleSequence_sane
  have hseq : sampleTable.seqOf 1 = 1 ∧ sampleTable.nextPrivate = 2
      ∧ (sampleTable 2).allocatorPrivateFree = none
      ∧ (sampleTable 2).suballocatorPrivateFree = none := by decide +kernel
  obtain ⟨hp, hnp, hf1, hf2⟩ := hseq
  refine ⟨⟨hwf, fun r hr => ?_, fun r hr => ?_, fun r n hr hn hne => ?_, fun r hr => ?_⟩,
    fun r s hr hrs => ?_⟩
  · rw [sampleTable_top.mp hr]
    exact hal
  · rw [sampleTable_top.mp hr]
    exact ⟨sampleSequence, by rw [hp, hs], hsane, hb.symm, he.symm⟩
  · obtain rfl := sampleTable_top.mp hr
    obtain rfl := ((hin n).mp hn).resolve_left hne
    simp [BigAllocation.Frees, hf1, hf2]
  · rw [sampleTable_top.mp hr, hp, hnp]
    decide
  · rw [sampleTable_top.mp hr, hp, hs] at hrs
    exact Option.some.inj hrs ▸ htidy

/-- A hole in the second page of the mapping. -/
theorem doMunmap_correct_hole : ∃ t', sampleTable.doMunmap sampleEnv 8192 100 = some t'
    ∧ t'.mmapCover = sampleTable.mmapCover \ { x | 8192 ≤ x ∧ x < 8192 + roundUp 100 pageSize } := by
  obtain ⟨hmapped, htidy⟩ := sampleTable_mapped
  have hroom : sampleTable.findFreeBigalloc = some 3 := by decide +kernel
  have hsmall : pageDist (max 8192 (sampleTable 1).begin)
      (min (8192 + roundUp 100 pageSize) (sampleTable 1).end_)
        ≤ sampleEnv.biggestSaneUserAlloc >>> logPageSize := by
    obtain ⟨-, -, hb, he, -⟩ := sampleTable_records
    rw [hb, he]
    decide
  obtain ⟨t', hrun, hcover, -⟩ := doMunmap_correct sampleEnv sampleTable 8192 100 hmapped rfl
    (by decide) ⟨fun r hr _ => sampleTable_top.mp hr ▸ hsmall, fun _ _ => by simp [hroom], htidy⟩
  exact ⟨t', hrun, hcover⟩

/-- A heap with one sequence in it, and nothing mapped yet. -/
def heapOf (s : MappingSequence) : Table where
  sequences := fun p => if p = 1 then some s else none
  nextPrivate := 2

/-- The bigalloc of a sequence that is the first object of the private heap. -/
def bigallocOf (s : MappingSequence) : NewRequest where
  ptr := s.begin
  size := s.end_ - s.begin
  allocatorPrivate := 1
  allocatorPrivateFree := some .privateNommapFree
  allocatedBy := some .mmap

theorem mapped_single {s : MappingSequence} (hs : s.Sane) (h1 : PageAligned s.begin)
    (h2 : PageAligned s.end_) (hsys : env.systrapIsInitialized = true)
    (hnew : (heapOf s).newBigalloc env (bigallocOf s) = some (b, t)) : t.Mapped := by
  have hempty : (heapOf s).Empty env := ⟨⟨rfl, rfl, rfl, .inl hsys⟩, rfl, rfl, rfl⟩
  have hlt := hs.begin_lt_end
  have hend : (NewRequest.record (bigallocOf s)).end_ = s.end_ := by
    show s.begin + (s.end_ - s.begin) = _
    omega
  have hv : (heapOf s).ValidRequest (bigallocOf s) 0 :=
    ⟨hs.begin_pos, .inl rfl, by rw [hend]; exact hlt, fun h => absurd rfl h,
      fun n hn => absurd hn (hempty.not_inUse n), fun _ => ⟨h1, by rw [hend]; exact h2⟩⟩
  obtain ⟨hwf, -, -, hin, hup⟩ := hv.newBigalloc_wellFormed hempty.wellFormed hempty.toIdle hnew
  obtain ⟨-, -, t1, hadd, rfl⟩ := hv.newBigalloc_added hempty.wellFormed
    (hv.newBigallocParent_eq hempty.wellFormed hempty.toIdle) hnew
  have hone : ∀ n, (t1.setPages (pagenum (roundUp (bigallocOf s).ptr pageSize))
      (pagenum (roundDown ((bigallocOf s).ptr + (bigallocOf s).size) pageSize)) b).InUse n → n = b :=
    fun n hn => ((hin n).mp hn).resolve_left (hempty.not_inUse n)
  have hal := congrArg (·.allocatedBy) hadd.new
  have hap := congrArg (·.allocatorPrivate) hadd.new
  have hrest : t1.sequences = (heapOf s).sequences ∧ t1.nextPrivate = 2 := by
    rw [hadd.rest]
    exact ⟨rfl, rfl⟩
  refine ⟨hwf, fun r hr => ?_, fun r hr => ?_, fun r n hr hn hne => ?_, fun r hr => ?_⟩
  · rw [hone r hr.1]
    exact hal
  · rw [hone r hr.1]
    refine ⟨s, ?_, hs, hadd.begin_eq.symm, (hadd.end_eq.trans hend).symm⟩
    show t1.sequences (t1 b).allocatorPrivate = _
    rw [hrest.1, show (t1 b).allocatorPrivate = 1 from hap]
    rfl
  · exact absurd ((hone n hn).trans (hone r hr.1).symm) hne
  · rw [hone r hr.1]
    show (t1 b).allocatorPrivate < t1.nextPrivate
    rw [hrest.2, show (t1 b).allocatorPrivate = 1 from hap]
    decide

/-- A sequence of one entry, with something in a slot that is not used. -/
def oneEntry (end_ : Nat) (slot : MappingEntry) : MappingSequence where
  begin := 4096
  end_ := end_
  nused := 1
  mappings := fun i => if i = 0 then { begin := 4096, end_ := end_, isAnon := true }
    else if i = 5 then slot else {}

/-- Two ways to give up: a bigalloc with more pages than is sane, and an entry beyond the bounds of
the sequence in an unused slot. -/
theorem doMunmap_gives_up :
    (∃ t : Table, t.Mapped ∧ t.doMunmap sampleEnv 4096 (2 ^ 33) = none)
      ∧ ∃ t : Table, t.Mapped ∧ t.doMunmap sampleEnv 8192 12288 = none := by
  have hsane : ∀ e slot, 4096 < e → (oneEntry e slot).Sane := fun e slot he =>
    ⟨show 0 < 1 by decide, show 1 ≤ 8 by decide, show 0 < 4096 by decide, rfl, he, rfl⟩
  obtain ⟨b, t, hnew, hbig⟩ : ∃ b t, (heapOf (oneEntry (4096 + 2 ^ 33) {})).newBigalloc
      { biggestSaneUserAlloc := 2 ^ 34 } (bigallocOf (oneEntry (4096 + 2 ^ 33) {})) = some (b, t)
      ∧ t.doMunmap sampleEnv 4096 (2 ^ 33) = none := by
    decide +kernel
  obtain ⟨b', t', hnew', huntidy⟩ : ∃ b t,
      (heapOf (oneEntry 20480 { begin := 1, end_ := 2 ^ 20 })).newBigalloc sampleEnv
        (bigallocOf (oneEntry 20480 { begin := 1, end_ := 2 ^ 20 })) = some (b, t)
      ∧ t.doMunmap sampleEnv 8192 12288 = none := by
    decide +kernel
  exact ⟨⟨t, mapped_single (hsane _ _ (by decide)) (by decide) (by decide) rfl hnew, hbig⟩,
    t', mapped_single (hsane _ _ (by decide)) (by decide) (by decide) rfl hnew', huntidy⟩

/-- **The mapping of an address is found**, with its attributes, just where there is one. -/
theorem getMemoryMapping_correct (t : Table) (x : Nat) (h : t.Mapped) :
    (x ∈ t.mmapCover → ∃ e b, t.getMemoryMapping x = some (some (e, b)) ∧ t.Top b ∧ x ∈ t.addrs b
        ∧ (e.begin ≤ x ∧ x < e.end_) ∧ t.HasAttributes x e.attributes)
      ∧ (x ∉ t.mmapCover → t.getMemoryMapping x = some none) := by
  have hwf := h.wellFormed
  constructor
  · rintro ⟨b, hb, -, hx⟩
    obtain ⟨s, hs, hsane, hbegin, hend⟩ := h.backed b hb
    obtain ⟨e, he⟩ := Option.isSome_iff_exists.mp ((hsane.contig.at?_isSome x).mpr
      (by rw [hbegin, hend]; exact hx))
    refine ⟨e, b, ?_, hb, hx, (Segments.mem_of_at? he).2, b, s, hb, hx, hs, congrArg _ he⟩
    unfold seqOf at hs
    simp [getMemoryMapping, lookupBigallocTopLevel, hwf.rootOf_pageindex hb.1 hb.2 hx, hb.1.ne_zero,
      hs, findEntry_eq_at?, he]
  · intro hx
    have h0 : t.pageindex (pagenum x) = 0 := by
      by_contra hc
      obtain ⟨hu, hxu⟩ := hwf.mem_addrs_pageindex hc
      obtain ⟨r, hr, hup, hb⟩ := hwf.links.exists_root hu
      exact hx ⟨r, ⟨hr, hup⟩, h.allocatedBy r ⟨hr, hup⟩,
        hwf.laminar_addrs.subset_of_below hu hb hr.ne_zero hxu⟩
    simp [getMemoryMapping, lookupBigallocTopLevel, h0, rootOf_null hwf.links]

theorem getMemoryMapping_correct_sample :
    ∃ e b, sampleTable.getMemoryMapping 8192 = some (some (e, b)) := by
  obtain ⟨-, -, hb, he, -, -, hal⟩ := sampleTable_records
  obtain ⟨e, b, hm, -⟩ := (getMemoryMapping_correct sampleTable 8192 sampleTable_mapped.1).1
    ⟨1, sampleTable_top.mpr rfl, hal, by rw [addrs, Set.mem_ofPred_eq, hb, he]; decide⟩
  exact ⟨e, b, hm⟩

end Liballocs.Table
