/-
When `do_munmap` leaves the records below the top level in order.

Moving a bound or splitting a record looks at the top-level record only, so a record below it with an
address in the range stays.  A hole also copies the metadata pointer and the function that frees it.
These are exactly the cases that go wrong.
-/
import Liballocs.Proofs.Unmap

namespace Liballocs.Table

open Forest

variable {env : Env} {t t' : Table} {a b e m n new p : Nat}

theorem overlaps_iff : t.Overlaps n a e ↔ (t n).begin < (t n).end_ ∧ a < e
      ∧ (t n).begin < e ∧ a < (t n).end_ := by
  constructor
  · rintro ⟨x, ⟨h1, h2⟩, h3, h4⟩
    omega
  · rintro ⟨h1, h2, h3, h4⟩
    refine ⟨max (t n).begin a, ⟨?_, ?_⟩, ?_, ?_⟩ <;> omega

/-- The records hold the same suballocator metadata, and deleting either frees it. -/
def Shares (t : Table) (m n : Nat) : Prop :=
  m ≠ n ∧ (t.bigAllocations m).suballocatorPrivate = (t.bigAllocations n).suballocatorPrivate
    ∧ (t.bigAllocations m).suballocatorPrivateFree ≠ none
    ∧ (t.bigAllocations n).suballocatorPrivateFree ≠ none

/-- No record in use has an address in the range, each is inside its parent, and no two would free the
same metadata. -/
structure InOrder (t : Table) (a e : Nat) : Prop where
  clear : ∀ n, t.InUse n → ¬ t.Overlaps n a e
  inside : ∀ n, t.InUse n → t.up n ≠ 0 → t.Inside n
  owned : ∀ m n, t.InUse m → t.InUse n → ¬ t.Shares m n

/-- What has to hold for the range to be unmapped in an orderly way. -/
structure Unmappable (t : Table) (a e : Nat) : Prop where
  /-- A record below the top level with an address in the range goes with its root. -/
  covered : ∀ n, t.InUse n → t.up n ≠ 0 → t.Overlaps n a e → n ∈ t.inRange a e
  /-- The records that stay do not share metadata. -/
  owned : ∀ m n, t.InUse m → t.InUse n → m ∉ t.inRange a e → n ∉ t.inRange a e → ¬ t.Shares m n
  /-- A record that gets a hole owns no suballocator metadata. -/
  whole : ∀ b, t.HoleIn b a e → (t.bigAllocations b).suballocatorPrivateFree = none

/-! ### Trimmed tables -/

namespace Trimmed

theorem owner_eq (ht : t.Trimmed a e t') (hn : n ∉ t.inRange a e) :
    (t' n).suballocatorPrivate = (t n).suballocatorPrivate ∧ (t' n).suballocatorPrivateFree
        = (t n).suballocatorPrivateFree := by
  by_cases htop : t.Top n
  · have h1 := congrArg (·.suballocatorPrivate) (ht.outer n hn htop)
    have h2 := congrArg (·.suballocatorPrivateFree) (ht.outer n hn htop)
    exact ⟨h1, h2⟩
  · have h1 := congrArg (·.suballocatorPrivate) (ht.inner n hn htop)
    have h2 := congrArg (·.suballocatorPrivateFree) (ht.inner n hn htop)
    exact ⟨h1, h2⟩

theorem inner_bounds (ht : t.Trimmed a e t') (hn : n ∉ t.inRange a e) (htop : ¬ t.Top n) :
    (t' n).begin = (t n).begin ∧ (t' n).end_ = (t n).end_ := by
  exact bounds_congr (ht.inner n hn htop)

theorem shares_iff (ht : t.Trimmed a e t') (hm : m ∉ t.inRange a e) (hn : n ∉ t.inRange a e) :
    t'.Shares m n ↔ t.Shares m n := by
  simp [Shares, ht.owner_eq hm, ht.owner_eq hn]

/-- The top-level records have no address in the range any more. -/
theorem clear_top (ht : t.Trimmed a e t') (hno : ∀ b, ¬ t.HoleIn b a e)
    (hn : n ∉ t.inRange a e) (htop : t.Top n) : ¬ t'.Overlaps n a e := by
  have hhole := hno n
  simp only [HoleIn, htop, true_and] at hhole
  rw [overlaps_iff, ht.begin_eq hn htop, ht.end_eq hn htop]
  simp only [BigAllocation.trim]
  split_ifs <;> omega

section

variable (h : t.WellFormed) (ht : t.Trimmed a e t')

include h ht

theorem clear_iff (hno : ∀ b, ¬ t.HoleIn b a e) :
    (∀ n, t'.InUse n → ¬ t'.Overlaps n a e) ↔
      ∀ n, t.InUse n → t.up n ≠ 0 → t.Overlaps n a e → n ∈ t.inRange a e := by
  have hsame : ∀ n, n ∉ t.inRange a e → ¬ t.Top n → (t'.Overlaps n a e ↔ t.Overlaps n a e) := by
    intro n hn htop
    obtain ⟨h1, h2⟩ := ht.inner_bounds hn htop
    simp [overlaps_iff, h1, h2]
  constructor
  · intro hclear n hn hup hover
    by_contra hns
    exact hclear n ((ht.inUse_iff h).mpr ⟨hn, hns⟩) ((hsame n hns fun htop => hup htop.2).mpr hover)
  · intro hcov n hn hover
    obtain ⟨hn, hns⟩ := (ht.inUse_iff h).mp hn
    by_cases htop : t.Top n
    · exact ht.clear_top hno hns htop hover
    · exact hns (hcov n hn (fun hup => htop ⟨hn, hup⟩) ((hsame n hns htop).mp hover))

theorem inside (hcov : ∀ n, t.InUse n → t.up n ≠ 0 → t.Overlaps n a e → n ∈ t.inRange a e)
    (hn : t'.InUse n) (hup : t'.up n ≠ 0) : t'.Inside n := by
  obtain ⟨hn, hns⟩ := (ht.inUse_iff h).mp hn
  rw [ht.up_eq hns] at hup
  have hin := h.inside n hn hup
  have hlt := h.bounds n hn
  have hps := inRange_closed hns
  have hout := mt (hcov n hn hup) hns
  rw [overlaps_iff] at hout
  obtain ⟨h1, h2⟩ := ht.inner_bounds hns fun htop => hup htop.2
  simp only [Inside, ht.up_eq hns, h1, h2]
  by_cases htop : t.Top (t.up n)
  · obtain ⟨h3, h4⟩ := hin
    rw [ht.begin_eq hps htop, ht.end_eq hps htop]
    simp only [BigAllocation.trim]
    split_ifs <;> omega
  · obtain ⟨h3, h4⟩ := ht.inner_bounds hps htop
    rw [h3, h4]
    exact hin

end

end Trimmed

/-! ### Tables with a hole -/

section

variable (h : t.WellFormed) (hb : t.HoleIn b a e)

include h hb

theorem HoleIn.apart (hn : t.Top n) (hne : n ≠ b) :
    (t n).end_ ≤ (t b).begin ∨ (t b).end_ ≤ (t n).begin := h.apart_top hn hb.1 hne

theorem HoleIn.inRange_eq : n ∉ t.inRange a e := by
  rintro ⟨r, hr, h1, h2, -⟩
  have hlt := h.bounds r hr.1
  obtain ⟨-, h3, h4, h5⟩ := id hb
  have hrb : r ≠ b := by
    rintro rfl
    omega
  rcases hb.apart h hr hrb with h6 | h6 <;> omega

theorem HoleIn.unique (hm : t.HoleIn m a e) : m = b := by
  by_contra hne
  obtain ⟨-, h1, h2, h3⟩ := id hb
  obtain ⟨htop, h4, -, h5⟩ := hm
  rcases hb.apart h htop hne with h6 | h6 <;> omega

end

namespace Punched

theorem owner_eq (hp : t.Punched b a e new p t') (hnn : n ≠ new) :
    (t' n).suballocatorPrivate = (t n).suballocatorPrivate ∧ (t' n).suballocatorPrivateFree
        = (t n).suballocatorPrivateFree := by
  by_cases hnb : n = b
  · have h1 := congrArg (·.suballocatorPrivate) hp.before
    have h2 := congrArg (·.suballocatorPrivateFree) hp.before
    rw [hnb]
    exact ⟨h1, h2⟩
  · have h1 := congrArg (·.suballocatorPrivate) (hp.others n hnb hnn)
    have h2 := congrArg (·.suballocatorPrivateFree) (hp.others n hnb hnn)
    exact ⟨h1, h2⟩

theorem owner_new (hp : t.Punched b a e new p t') :
    (t' new).suballocatorPrivate = (t b).suballocatorPrivate ∧ (t' new).suballocatorPrivateFree
        = (t b).suballocatorPrivateFree := by
  have h1 := congrArg (·.suballocatorPrivate) hp.behind
  have h2 := congrArg (·.suballocatorPrivateFree) hp.behind
  exact ⟨h1, h2⟩

variable (h : t.WellFormed) (hb : t.HoleIn b a e) (hp : t.Punched b a e new p t')
include h hb hp

theorem clear_iff : (∀ n, t'.InUse n → ¬ t'.Overlaps n a e) ↔
    ∀ n, t.InUse n → t.up n ≠ 0 → t.Overlaps n a e → n ∈ t.inRange a e := by
  obtain ⟨htop, h1, h2, h3⟩ := id hb
  have hin := fun n => hp.inUse_iff (n := n) (by omega) htop.1
  have hsame : ∀ n, t.InUse n → n ≠ b → (t'.Overlaps n a e ↔ t.Overlaps n a e) := by
    intro n hn hnb
    have hnn : n ≠ new := fun hc => hp.free (hc ▸ hn)
    simp [overlaps_iff, hp.begin_eq hnn, hp.end_eq hnn, if_neg hnb]
  constructor
  · intro hclear n hn hup hover
    have hnb : n ≠ b := fun hc => hup (hc ▸ htop.2)
    exact absurd ((hsame n hn hnb).mpr hover) (hclear n ((hin n).mpr (.inl hn)))
  · intro hcov n hn hover
    rcases (hin n).mp hn with hn | rfl
    · have hnn : n ≠ new := fun hc => hp.free (hc ▸ hn)
      by_cases hnb : n = b
      · subst hnb
        rw [overlaps_iff, hp.end_eq hnn, if_pos rfl] at hover
        omega
      · have hover' := (hsame n hn hnb).mp hover
        by_cases hup : t.up n = 0
        · rw [overlaps_iff] at hover'
          rcases hb.apart h ⟨hn, hup⟩ hnb with h4 | h4 <;> omega
        · exact hb.inRange_eq h (hcov n hn hup hover')
    · rw [overlaps_iff, hp.begin_new] at hover
      omega

/-- A record with no address in the hole is inside its parent, old or new. -/
theorem inside (hcov : ∀ n, t.InUse n → t.up n ≠ 0 → t.Overlaps n a e → n ∈ t.inRange a e)
    (hn : t'.InUse n) (hup : t'.up n ≠ 0) : t'.Inside n := by
  obtain ⟨htop, h1, h2, h3⟩ := id hb
  have hnn : n ≠ new := by
    rintro rfl
    exact hup (hp.up_new htop)
  have hn := ((hp.inUse_iff (by omega) htop.1).mp hn).resolve_right hnn
  have hnb : n ≠ b := by
    rintro rfl
    rw [hp.up_eq htop hnn, if_neg fun hc => htop.1.ne_zero (hc.1.symm.trans htop.2)] at hup
    exact hup htop.2
  have hup' : t.up n ≠ 0 := by
    intro h0
    rw [hp.up_eq htop hnn, if_neg fun hc => htop.1.ne_zero (hc.1.symm.trans h0)] at hup
    exact hup h0
  have hlt := h.bounds n hn
  have hout : ¬ t.Overlaps n a e := fun hc => hb.inRange_eq h (hcov n hn hup' hc)
  rw [overlaps_iff] at hout
  obtain ⟨h4, h5⟩ := h.inside n hn hup'
  simp only [Inside, hp.up_eq htop hnn, hp.begin_eq hnn, hp.end_eq hnn, if_neg hnb]
  split
  · rename_i hc
    rw [hc.1] at h5
    rw [hp.begin_new, hp.end_new]
    exact ⟨hc.2, h5⟩
  · rename_i hc
    have hpn : t.up n ≠ new := fun he => hp.free (he ▸ h.links.up_inUse n hn hup')
    rw [hp.begin_eq hpn, hp.end_eq hpn]
    split
    · rename_i hpb
      exact ⟨h4, by omega⟩
    · exact ⟨h4, h5⟩

omit h in
theorem owned_iff : (∀ m n, t'.InUse m → t'.InUse n → ¬ t'.Shares m n) ↔
    (∀ m n, t.InUse m → t.InUse n → ¬ t.Shares m n) ∧ (t b).suballocatorPrivateFree = none := by
  obtain ⟨htop, h1, h2, h3⟩ := id hb
  have hin := fun n => hp.inUse_iff (n := n) (by omega) htop.1
  have hne : ∀ n, t.InUse n → n ≠ new := fun n hn hc => hp.free (hc ▸ hn)
  obtain ⟨hnew1, hnew2⟩ := hp.owner_new
  constructor
  · intro hown
    refine ⟨fun m n hm hn hs => ?_, ?_⟩
    · refine hown m n ((hin m).mpr (.inl hm)) ((hin n).mpr (.inl hn)) ?_
      simpa only [Shares, hp.owner_eq (hne m hm), hp.owner_eq (hne n hn)] using hs
    · by_contra hfree
      obtain ⟨hb1, hb2⟩ := hp.owner_eq (hne b htop.1)
      exact hown b new ((hin b).mpr (.inl htop.1)) hp.inUse
        ⟨hne b htop.1, hb1.trans hnew1.symm, hb2 ▸ hfree, hnew2 ▸ hfree⟩
  · rintro ⟨hown, hfree⟩ m n hm hn hs
    have hnot : (t' new).suballocatorPrivateFree = none := hnew2.trans hfree
    rcases (hin m).mp hm with hm | rfl
    · rcases (hin n).mp hn with hn | rfl
      · refine hown m n hm hn ?_
        simpa only [Shares, hp.owner_eq (hne m hm), hp.owner_eq (hne n hn)] using hs
      · exact hs.2.2.2 hnot
    · exact hs.2.2.1 hnot

end Punched

/-! ### Both -/

theorem Unmapped.inOrder_iff (h : t.WellFormed) (hu : t.Unmapped a e t') :
    t'.InOrder a e ↔ t.Unmappable a e := by
  rcases hu with ⟨ht, hno⟩ | ⟨b, new, p, hb, hp⟩
  · have hclear := ht.clear_iff h hno
    have howned : (∀ m n, t'.InUse m → t'.InUse n → ¬ t'.Shares m n) ↔
        ∀ m n, t.InUse m → t.InUse n → m ∉ t.inRange a e → n ∉ t.inRange a e → ¬ t.Shares m n := by
      simp only [ht.inUse_iff h]
      refine forall₂_congr fun m n => ⟨fun hs hm hn hms hns hc => ?_, fun hs hm hn hc => ?_⟩
      · exact hs ⟨hm, hms⟩ ⟨hn, hns⟩ ((ht.shares_iff hms hns).mpr hc)
      · exact hs hm.1 hn.1 hm.2 hn.2 ((ht.shares_iff hm.2 hn.2).mp hc)
    constructor
    · intro hi
      exact ⟨hclear.mp hi.clear, howned.mp hi.owned, fun b hb => absurd hb (hno b)⟩
    · intro hu
      exact ⟨hclear.mpr hu.covered, fun n hn hup => ht.inside h hu.covered hn hup,
        howned.mpr hu.owned⟩
  · have hclear := hp.clear_iff h hb
    have howned := hp.owned_iff hb
    constructor
    · intro hi
      refine ⟨hclear.mp hi.clear, fun m n hm hn _ _ => (howned.mp hi.owned).1 m n hm hn,
        fun m hm => ?_⟩
      rw [hb.unique h hm]
      exact (howned.mp hi.owned).2
    · intro hu
      refine ⟨hclear.mpr hu.covered, fun n hn hup => hp.inside h hb hu.covered hn hup,
        howned.mpr ⟨fun m n hm hn => ?_, hu.whole b hb⟩⟩
      exact hu.owned m n hm hn (hb.inRange_eq h) (hb.inRange_eq h)

/-! ### A mapping of four pages -/

/-- Four anonymous pages. -/
def sampleSequence : MappingSequence where
  begin := 4096
  end_ := 20480
  nused := 1
  mappings := fun i => if i = 0 then
      { begin := 4096, end_ := 20480, prot := 3, flags := 34, isAnon := true }
    else {}

/-- A table without records, and the sequence on the private heap. -/
def sampleHeap : Table where
  sequences := fun p => if p = 1 then some sampleSequence else none
  nextPrivate := 2

/-- The bigalloc of the sequence. -/
def sampleMapping : NewRequest where
  ptr := 4096
  size := 16384
  allocatorPrivate := 1
  allocatorPrivateFree := some .privateNommapFree
  allocatedBy := some .mmap

/-- The mapping, with a record inside it that begins and ends in the middle of a page. -/
def sampleTable : Table :=
  (((sampleHeap.newBigalloc sampleEnv sampleMapping).bind fun x =>
    x.2.newBigalloc sampleEnv sampleInner).map Prod.snd).getD {}

theorem sampleHeap_empty : sampleHeap.Empty sampleEnv := ⟨⟨rfl, rfl, rfl, .inl rfl⟩, rfl, rfl, rfl⟩

theorem sampleTable_wellFormed : sampleTable.WellFormed ∧ sampleTable.Idle sampleEnv
    ∧ (∀ n, sampleTable.InUse n ↔ n = 1 ∨ n = 2) ∧ sampleTable.sequences 1 = some sampleSequence := by
  obtain ⟨used, t, hrun, rfl, h1, h2⟩ : ∃ used t, createAll sampleEnv [] sampleHeap
      [sampleMapping, sampleInner] = some (used, t) ∧ used = [2, 1]
      ∧ t.InUse 1 ∧ t.InUse 2 := by
    decide +kernel
  obtain ⟨hwf, hi, hin, hseq⟩ := sampleHeap_empty.createAll_wellFormed hrun
  have hsample : sampleTable = t := by
    simp only [createAll, Option.bind_eq_bind, Option.ite_none_right_eq_some,
      Option.bind_eq_some_iff] at hrun
    obtain ⟨-, ⟨b, t1⟩, ht1, -, ⟨c, t2⟩, ht2, heq⟩ := hrun
    obtain ⟨-, rfl⟩ := Prod.mk.inj (Option.some.inj heq)
    simp [sampleTable, ht1, ht2]
  rw [hsample]
  refine ⟨hwf, hi, fun n => ⟨fun hn => ?_, ?_⟩, by rw [hseq]; rfl⟩
  · simpa [or_comm] using hin n hn
  · rintro (rfl | rfl)
    · exact h1
    · exact h2

theorem sampleTable_records :
    sampleTable.up 1 = 0 ∧ sampleTable.up 2 = 1
      ∧ (sampleTable 1).begin = 4096 ∧ (sampleTable 1).end_ = 20480
      ∧ (sampleTable 2).begin = 5000 ∧ (sampleTable 2).end_ = 14000
      ∧ (sampleTable 1).allocatedBy = some .mmap := by
  decide +kernel

theorem sampleTable_top {n : Nat} : sampleTable.Top n ↔ n = 1 := by
  obtain ⟨-, -, hin, -⟩ := sampleTable_wellFormed
  obtain ⟨h1, h2, -⟩ := sampleTable_records
  simp only [Top, hin]
  constructor
  · rintro ⟨rfl | rfl, hup⟩
    · rfl
    · rw [h2] at hup
      cases hup
  · rintro rfl
    exact ⟨.inl rfl, h1⟩

/-! ### The result -/

theorem doMunmap_unmapped {len : Nat} (h : t.WellFormed) (hsys : env.systrapIsInitialized = true)
    (hmm : ∀ r, t.Top r → t.Overlaps r a (a + roundUp len pageSize) →
      (t r).allocatedBy = some .mmap)
    (ha : PageAligned a) (hrun : t.doMunmap env a len = some t') :
    t.Unmapped a (a + roundUp len pageSize) t' := by
  refine doMunmapLoop_unmapped h hsys hmm ha (Nat.dvd_add ha (pageAligned_roundUp len))
    (roundUp len pageSize / pageSize + 2) t a (.inl ⟨rfl, rfl⟩) le_rfl (Nat.le_add_right _ _) ha ?_
  rw [Nat.add_sub_cancel_left]
  exact hrun

/-- **`do_munmap` leaves the table in order exactly when** every record below the top level with an
address in the range lies under a top-level record inside it, the records that stay share no metadata,
and no hole goes into a record with suballocator metadata. -/
theorem doMunmap_inOrder_iff (env : Env) (t t' : Table) (a len : Nat) (h : t.WellFormed)
    (hsys : env.systrapIsInitialized = true)
    (hmm : ∀ r, t.Top r → t.Overlaps r a (a + roundUp len pageSize) →
      (t.bigAllocations r).allocatedBy = some .mmap)
    (ha : PageAligned a) (hrun : t.doMunmap env a len = some t') :
    t'.InOrder a (a + roundUp len pageSize) ↔ t.Unmappable a (a + roundUp len pageSize) :=
  (doMunmap_unmapped h hsys hmm ha hrun).inOrder_iff h

/-- Unmapping the whole mapping takes the record inside it along. -/
theorem doMunmap_inOrder_iff_all : ∃ t', sampleTable.doMunmap sampleEnv 4096 16384 = some t'
    ∧ t'.InOrder 4096 (4096 + roundUp 16384 pageSize) := by
  obtain ⟨hwf, -, hin, -⟩ := sampleTable_wellFormed
  obtain ⟨h1, h2, hb1, he1, hb2, he2, hal⟩ := sampleTable_records
  obtain ⟨t', ht'⟩ : ∃ t', sampleTable.doMunmap sampleEnv 4096 16384 = some t' :=
    Option.isSome_iff_exists.mp (by decide +kernel)
  have hall : ∀ n, sampleTable.InUse n →
      n ∈ sampleTable.inRange 4096 (4096 + roundUp 16384 pageSize) := by
    intro n hn
    refine ⟨1, sampleTable_top.mpr rfl, by rw [hb1], by rw [he1]; decide, ?_⟩
    rcases (hin n).mp hn with rfl | rfl
    · exact Below.refl _ 1
    · exact ⟨1, h2⟩
  refine ⟨t', ht', (doMunmap_inOrder_iff sampleEnv sampleTable t' 4096 16384 hwf rfl
    (fun r hr _ => by rw [sampleTable_top.mp hr]; exact hal) (by decide) ht').mpr ?_⟩
  refine ⟨fun n hn _ _ => hall n hn, fun m n hm _ hms => absurd (hall m hm) hms, fun b hb => ?_⟩
  have h3 := hb.2.1
  rw [sampleTable_top.mp hb.1, hb1] at h3
  omega

/-- Unmapping the tail of the mapping leaves the record inside it over the range. -/
theorem doMunmap_leaves_child : ∃ t', sampleTable.WellFormed
    ∧ (∀ r, sampleTable.Top r → (sampleTable.bigAllocations r).allocatedBy = some .mmap)
    ∧ sampleTable.doMunmap sampleEnv 12288 8192 = some t' ∧ t'.InUse 2
    ∧ t'.Overlaps 2 12288 (12288 + roundUp 8192 pageSize)
    ∧ ¬ t'.InOrder 12288 (12288 + roundUp 8192 pageSize) := by
  obtain ⟨hwf, -⟩ := sampleTable_wellFormed
  have hal := sampleTable_records.2.2.2.2.2.2
  obtain ⟨t', ht', huse, hb, he⟩ : ∃ t', sampleTable.doMunmap sampleEnv 12288 8192 = some t'
      ∧ t'.InUse 2 ∧ (t' 2).begin = 5000 ∧ (t' 2).end_ = 14000 := by
    decide +kernel
  have hover : t'.Overlaps 2 12288 (12288 + roundUp 8192 pageSize) := by
    rw [overlaps_iff, hb, he]
    decide
  exact ⟨t', hwf, fun r hr => by rw [sampleTable_top.mp hr]; exact hal, ht', huse, hover,
    fun hc => hc.clear 2 huse hover⟩

end Liballocs.Table
