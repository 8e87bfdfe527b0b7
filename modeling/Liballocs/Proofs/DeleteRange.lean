/-
Deleting every bigalloc that overlaps a range.

The cursor moves over unindexed pages one by one, and from an indexed page to the end of its tree,
which is deleted.  With the cursor at `d`, the table is the original one without the trees that have
an address from `a` up to `d`.  The trees at both ends of the range go as a whole.
-/
import Liballocs.Proofs.MunmapCover

namespace Liballocs.Table

open Forest

variable {env : Env} {t t₀ t₁ : Table} {a b d e m n q r : Nat} {s : Set Nat}

/-- The records under a top-level record with an address in `[a, d)`. -/
def overlapping (t : Table) (a d : Nat) : Set Nat :=
  { n | ∃ r, t.Top r ∧ t.Overlaps r a d ∧ Below t.up n r }

/-- `t` is `t₀` without the trees that have an address in `[a, d)`. -/
structure Cleared (t₀ : Table) (a d : Nat) (t : Table) : Prop where
  removed : t₀.Removed (t₀.overlapping a d) t
  zero : ∀ r q, t₀.Top r → t₀.Overlaps r a d → t₀.SpansPage r q → t.pageindex q = 0
  same : ∀ q, (∀ r, t₀.Top r → t₀.Overlaps r a d → ¬ t₀.SpansPage r q) →
    t.pageindex q = t₀.pageindex q

/-! ### Removal -/

theorem Removed.refl (h : t.Links 0) : t.Removed ∅ t :=
  ⟨h, fun _ _ => id, fun _ _ => rfl, fun _ hn => absurd hn id,
    fun _ l _ _ hl => ⟨l, List.Sublist.refl l, hl⟩, fun _ _ => rfl, rfl⟩

theorem Removed.childList (hr : t.Removed s t₁) (hb : b ≠ 0) (hbs : b ∉ s) {l : List Nat}
    (hl : t.ChildList b l) (hno : ∀ n ∈ l, n ∉ s) : t₁.ChildList b l := by
  obtain ⟨l', hsub, hl'⟩ := hr.lists b l hb hbs hl
  have hsub' : l ⊆ l' := by
    intro n hn
    obtain ⟨hu, hup⟩ := (hl.mem_iff n).mp hn
    exact (hl'.mem_iff n).mpr ⟨hr.inUse_iff.mpr ⟨hu, hno n hn⟩, (hr.up_eq (hno n hn)).trans hup⟩
  have heq : l' = l := hsub.eq_of_length_le (hl.nodup.subperm hsub').length_le
  exact heq ▸ hl'

theorem Top.mem_overlapping_iff (h : t.Links 0) (hr : t.Top r) (hn : Below t.up n r) :
    n ∈ t.overlapping a d ↔ t.Overlaps r a d := by
  constructor
  · intro hmem
    obtain ⟨r', hr', hov, hb⟩ := hmem
    rwa [hr.unique h hr' hn hb]
  · intro hov
    exact ⟨r, hr, hov, hn⟩

theorem overlapping_empty (h : d ≤ a) : t.overlapping a d = ∅ := by
  ext n
  simp only [Set.mem_empty_iff_false, iff_false]
  intro hmem
  obtain ⟨r, -, ⟨x, -, h1, h2⟩, -⟩ := hmem
  omega

theorem cleared_init (h : t.Links 0) (hd : d ≤ a) : t.Cleared a d t := by
  refine ⟨?_, ?_, fun q _ => rfl⟩
  · rw [overlapping_empty hd]
    exact Removed.refl h
  · intro r q _ hov
    obtain ⟨x, -, h1, h2⟩ := hov
    omega

/-! ### The page at the cursor -/

section

variable (hc : t₀.Cleared a d t) (h : t₀.WellFormed)

include hc h

theorem Cleared.skip (hd : PageAligned d)
    (had : a ≤ d) (h0 : t.pageindex (pagenum d) = 0) : t₀.Cleared a (d + pageSize) t := by
  have hiff : ∀ r, t₀.Top r → (t₀.Overlaps r a (d + pageSize) ↔ t₀.Overlaps r a d) := by
    intro r hr
    constructor
    · intro hov
      by_contra hno
      have hpage : d ∈ t₀.addrs r := by
        obtain ⟨⟨i, hi⟩, ⟨j, hj⟩⟩ := h.aligned r hr.1 hr.2
        obtain ⟨k, hk⟩ := hd
        rw [overlaps_iff] at hov hno
        simp only [addrs, Set.mem_ofPred_eq, pageSize] at *
        omega
      have hspans : t₀.SpansPage r (pagenum d) := by
        obtain ⟨hb, he⟩ := h.aligned r hr.1 hr.2
        exact spans_pagenum hb he hpage.1 hpage.2
      have hsame : t.pageindex (pagenum d) = t₀.pageindex (pagenum d) := by
        refine hc.same _ ?_
        intro r' hr' hov' hspans'
        have hne : r ≠ r' := by
          intro heq
          exact hno (heq ▸ hov')
        have hdisj := (h.apart_top hr hr' hne).disjoint_pages
        exact Set.disjoint_left.mp hdisj hspans hspans'
      exact h.pageindex_ne_zero hr.1 hpage (hsame.symm.trans h0)
    · intro hov
      obtain ⟨x, hx, h1, h2⟩ := hov
      exact ⟨x, hx, h1, h2.trans_le (Nat.le_add_right _ _)⟩
  have hset : t₀.overlapping a (d + pageSize) = t₀.overlapping a d := by
    ext n
    constructor
    · intro hmem
      obtain ⟨r, hr, hov, hb⟩ := hmem
      exact ⟨r, hr, (hiff r hr).mp hov, hb⟩
    · intro hmem
      obtain ⟨r, hr, hov, hb⟩ := hmem
      exact ⟨r, hr, (hiff r hr).mpr hov, hb⟩
  refine ⟨hset ▸ hc.removed, ?_, ?_⟩
  · intro r q hr hov
    exact hc.zero r q hr ((hiff r hr).mp hov)
  · intro q hno
    exact hc.same q fun r hr hov => hno r hr ((hiff r hr).mpr hov)

/-- A page that is still indexed leads to a tree that has not been deleted. -/
theorem Cleared.exists_top (h0 : t.pageindex (pagenum b) ≠ 0) :
    ∃ r, t₀.Top r ∧ b ∈ t₀.addrs r ∧ ¬ t₀.Overlaps r a d ∧ t.InUse (t.pageindex (pagenum b))
      ∧ t.rootOf nbigallocs (t.pageindex (pagenum b)) = some r := by
  have hsame : t.pageindex (pagenum b) = t₀.pageindex (pagenum b) := by
    refine hc.same _ ?_
    intro r hr hov hspans
    exact h0 (hc.zero r _ hr hov hspans)
  rw [hsame] at h0 ⊢
  obtain ⟨r, hr, hmemr, hu, hbelow⟩ := h.exists_top h0
  obtain ⟨hab, hae⟩ := h.aligned r hr.1 hr.2
  have hspans : t₀.SpansPage r (pagenum b) := spans_pagenum hab hae hmemr.1 hmemr.2
  have hno : ¬ t₀.Overlaps r a d := by
    intro hov
    exact h0 (hsame ▸ hc.zero r _ hr hov hspans)
  have hgone : t₀.pageindex (pagenum b) ∉ t₀.overlapping a d := by
    rw [Top.mem_overlapping_iff h.links hr hbelow]
    exact hno
  have hu' := hc.removed.inUse_iff.mpr ⟨hu, hgone⟩
  obtain ⟨k, hk⟩ := hc.removed.links.exists_depth hu'
  obtain ⟨r', hroot, hr', hup', hbelow'⟩ := rootOf_eq hc.removed.links hu' hk
    (hc.removed.links.depth_lt hu' hk).le
  have hold := (hc.removed.below_iff hgone).mp hbelow'
  obtain ⟨hur', hns'⟩ := hc.removed.inUse_iff.mp hr'
  have heq : r' = r := Top.unique h.links ⟨hur', (hc.removed.up_eq hns').symm.trans hup'⟩ hr
    hold hbelow
  exact ⟨r, hr, hmemr, hno, hu', heq ▸ hroot⟩

/-- Deleting the tree at the cursor takes the cursor to its end, or the range's. -/
theorem Cleared.take (had : a ≤ d) (hr : t₀.Top r)
    (hmem : d ∈ t₀.addrs r) (hno : ¬ t₀.Overlaps r a d) (hlt : d < e)
    (hle : e ≤ (t₀ r).end_) (hdel : t.Removed { n | Below t.up n r } t₁)
    (hpages : ∀ q, t₁.pageindex q = if t.SpansPage r q then t.up r else t.pageindex q) :
    t₀.Cleared a e t₁ := by
  have hrs : r ∉ t₀.overlapping a d := by
    rw [Top.mem_overlapping_iff h.links hr (Below.refl _ r)]
    exact hno
  have hiff : ∀ m, t₀.Top m → (t₀.Overlaps m a e ↔ t₀.Overlaps m a d ∨ m = r) := by
    intro m hm
    constructor
    · intro hov
      obtain ⟨x, hx, h1, h2⟩ := hov
      by_cases hxd : x < d
      · exact .inl ⟨x, hx, h1, hxd⟩
      · refine .inr ?_
        by_contra hne
        have hxr : x ∈ t₀.addrs r := ⟨hmem.1.trans (Nat.le_of_not_lt hxd), h2.trans_le hle⟩
        exact Set.disjoint_left.mp (h.apart_top hm hr hne).disjoint_addrs hx hxr
    · intro hcase
      rcases hcase with ⟨x, hx, h1, h2⟩ | rfl
      · exact ⟨x, hx, h1, h2.trans hlt⟩
      · exact ⟨d, hmem, had, hlt⟩
  have hdisj : ∀ n ∈ { n | Below t.up n r }, n ∉ t₀.overlapping a d := by
    intro n hbelow hgone
    rcases below_iff.mp hbelow with rfl | hbelow
    · exact hrs hgone
    · rw [hc.removed.up_gone hgone] at hbelow
      exact hr.1.ne_zero (eq_null_of_below hc.removed.links.up_zero hbelow)
  have hset : t₀.overlapping a e = t₀.overlapping a d ∪ { n | Below t.up n r } := by
    ext n
    constructor
    · intro hmem
      obtain ⟨m, hm, hov, hb⟩ := hmem
      by_cases hgone : n ∈ t₀.overlapping a d
      · exact .inl hgone
      · rcases (hiff m hm).mp hov with hov | rfl
        · exact .inl ⟨m, hm, hov, hb⟩
        · exact .inr ((hc.removed.below_iff hgone).mpr hb)
    · intro hcase
      rcases hcase with ⟨m, hm, hov, hb⟩ | hb
      · exact ⟨m, hm, (hiff m hm).mpr (.inl hov), hb⟩
      · exact ⟨r, hr, (hiff r hr).mpr (.inr rfl), (hc.removed.below_iff (hdisj n hb)).mp hb⟩
  have hup : t.up r = 0 := (hc.removed.up_eq hrs).trans hr.2
  refine ⟨hset ▸ hc.removed.trans hdel hdisj, ?_, ?_⟩
  · intro m q hm hov hspans
    rw [hpages q, hup]
    rcases (hiff m hm).mp hov with hov | rfl
    · rw [hc.zero m q hm hov hspans, ite_self]
    · rw [if_pos ((hc.removed.spansPage_iff hrs).mpr hspans)]
  · intro q hnone
    have hrq := hnone r hr ((hiff r hr).mpr (.inr rfl))
    rw [hpages q, if_neg fun hs => hrq ((hc.removed.spansPage_iff hrs).mp hs)]
    exact hc.same q fun m hm hov => hnone m hm ((hiff m hm).mpr (.inl hov))

end

/-! ### The loop -/

/-- The loop from a cursor, with a turn for each page up to the end of the range. -/
theorem Cleared.deleteAll (h : t₀.WellFormed) (he : PageAligned e)
    (hsmall : ∀ r, t₀.Top r → t₀.Overlaps r a e → t₀.Small env r) (fuel : Nat)
    (hd : PageAligned d) (had : a ≤ d) (hc : t₀.Cleared a (min d e) t)
    (hfuel : e ≤ d + fuel * pageSize) :
    ∃ t', deleteAllBigallocsOverlappingRange env e fuel t d = some t' ∧ t₀.Cleared a e t' := by
  induction fuel generalizing t d with
  | zero =>
    have hle : ¬ d < e := by omega
    rw [Nat.min_eq_right (Nat.le_of_not_lt hle)] at hc
    exact ⟨t, if_neg hle, hc⟩
  | succ fuel ih =>
    unfold deleteAllBigallocsOverlappingRange
    by_cases hlt : d < e
    · rw [Nat.min_eq_left (Nat.le_of_lt hlt)] at hc
      rw [if_pos hlt]
      dsimp only
      by_cases h0 : t.pageindex (pagenum d) = 0
      · rw [if_pos h0]
        have hnext := hd.add_pageSize_le he hlt
        refine ih ((Nat.dvd_add_right hd).mpr (Nat.dvd_refl _)) (by omega) ?_ (by
          rw [Nat.succ_mul] at hfuel
          omega)
        rw [Nat.min_eq_left hnext]
        exact hc.skip h hd had h0
      · rw [if_neg h0]
        obtain ⟨r, hr, hmem, hno, hu, hroot⟩ := hc.exists_top h h0
        have hrs : r ∉ t₀.overlapping a d := by
          rw [Top.mem_overlapping_iff h.links hr (Below.refl _ r)]
          exact hno
        have hend := hc.removed.end_eq hrs
        have hru : t.InUse r := hc.removed.inUse_iff.mpr ⟨hr.1, hrs⟩
        obtain ⟨k, hk⟩ := hc.removed.links.exists_depth hru
        have hdel := bigallocDel_cases env nbigallocs hc.removed.links hru hk (by omega)
          (hc.removed.nested hr.1.ne_zero (h.nested hr.1))
        have hmemlt := hmem.2
        rw [if_neg (not_or.mpr ⟨hu.2.2.1, hu.2.2.2⟩), hroot]
        simp only [Option.bind_eq_bind, Option.bind_some]
        rw [if_neg (by omega)]
        rcases hdel with ⟨-, hbig⟩ | ⟨t₁, hsome, -, hrem, hpages⟩
        · exact absurd ((hc.removed.small_iff hrs).mpr (hsmall r hr ⟨d, hmem, had, hlt⟩)) hbig
        · rw [hsome, Option.bind_some, hend]
          refine ih (h.aligned r hr.1 hr.2).2 (by omega) ?_ ?_
          · exact hc.take h had hr hmem hno (by omega) (by omega) hrem hpages
          · -- the tree reaches at least to the end of the page
            have hnext := hd.add_pageSize_le (h.aligned r hr.1 hr.2).2 hmemlt
            rw [Nat.succ_mul] at hfuel
            omega
    · rw [if_neg hlt]
      rw [Nat.min_eq_right (Nat.le_of_not_lt hlt)] at hc
      exact ⟨t, rfl, hc⟩

/-! ### The call -/

/-- What deleting a range does: nothing is left that overlaps it, each top-level bigalloc that
overlapped it is gone with its pages, and all others are as they were, with what is below them. -/
structure RangeDeleted (t : Table) (a e : Nat) (t' : Table) : Prop where
  clear : ∀ n, t'.InUse n → ¬ t'.Overlaps n a e
  gone : ∀ r, t.Top r → t.Overlaps r a e →
    ¬ t'.InUse r ∧ ∀ q, t.SpansPage r q → t'.pageindex q = 0
  kept : ∀ r, t.Top r → ¬ t.Overlaps r a e →
    (∀ n, Below t.up n r → (t'.bigAllocations n).core = (t.bigAllocations n).core
      ∧ t'.children n = t.children n)
    ∧ ∀ q, t.SpansPage r q → t'.pageindex q = t.pageindex q

theorem Cleared.rangeDeleted (hc : t.Cleared a e t₁) (h : t.WellFormed) :
    t.RangeDeleted a e t₁ := by
  refine ⟨?_, ?_, ?_⟩
  · intro n hn hov
    obtain ⟨x, hx, h1, h2⟩ := hov
    obtain ⟨hu, hns⟩ := hc.removed.inUse_iff.mp hn
    obtain ⟨r, hr, hup, hbelow⟩ := h.links.exists_root hu
    have hxt : x ∈ t.addrs n := by
      rwa [addrs, ← hc.removed.begin_eq hns, ← hc.removed.end_eq hns]
    have hxr : x ∈ t.addrs r := h.laminar_addrs.subset_of_below hu hbelow hr.ne_zero hxt
    exact hns ⟨r, ⟨hr, hup⟩, ⟨x, hxr, h1, h2⟩, hbelow⟩
  · intro r hr hov
    exact ⟨hc.removed.gone r ⟨r, hr, hov, Below.refl _ r⟩, fun q => hc.zero r q hr hov⟩
  · intro r hr hno
    have hout : ∀ n, Below t.up n r → n ∉ t.overlapping a e := by
      intro n hn
      rw [hr.mem_overlapping_iff h.links hn]
      exact hno
    refine ⟨?_, ?_⟩
    · intro n hn
      refine ⟨hc.removed.keep n (hout n hn), ?_⟩
      have hu := h.links.inUse_of_below_inUse hn hr.1
      obtain ⟨l, hl⟩ := h.links.kids n hu
      have hl' := hc.removed.childList hu.ne_zero (hout n hn) hl fun c hcl =>
        hout c (Below.trans ⟨1, ((hl.mem_iff c).mp hcl).2⟩ hn)
      rw [hl.children_eq, hl'.children_eq]
    · intro q hq
      refine hc.same q ?_
      intro r' hr' hov hq'
      have hne : r ≠ r' := by
        intro heq
        exact hno (heq ▸ hov)
      exact Set.disjoint_left.mp (h.apart_top hr hr' hne).disjoint_pages hq hq'

/-- **Deleting all that overlaps a range.**  With a turn for each page the call returns, and exactly
the trees that overlap the range are gone, unless one is larger than `memset_bigalloc` takes for sane.
-/
theorem deleteAllBigallocsOverlappingRange_correct (env : Env) (t : Table) (a e fuel : Nat)
    (h : t.WellFormed) (ha : PageAligned a) (he : PageAligned e)
    (hsmall : ∀ r, t.Top r → t.Overlaps r a e → t.Small env r)
    (hfuel : e ≤ a + fuel * pageSize) :
    ∃ t', deleteAllBigallocsOverlappingRange env e fuel t a = some t' ∧ t.RangeDeleted a e t' := by
  obtain ⟨t', hrun, hc⟩ := Cleared.deleteAll h he hsmall fuel ha le_rfl
    (cleared_init h.links (Nat.min_le_left a e)) hfuel
  exact ⟨t', hrun, hc.rangeDeleted h⟩

/-- The second page of a mapping of four pages. -/
theorem deleteAllBigallocsOverlappingRange_page :
    ∃ t', deleteAllBigallocsOverlappingRange sampleEnv 12288 1 sampleTable 8192 = some t'
      ∧ sampleTable.RangeDeleted 8192 12288 t' := by
  have hsmall : sampleTable.Small sampleEnv 1 := by
    obtain ⟨-, -, hb, he, -⟩ := sampleTable_records
    rw [Small, hb, he]
    decide
  exact deleteAllBigallocsOverlappingRange_correct sampleEnv sampleTable 8192 12288 1
    sampleTable_wellFormed.1 (by decide) (by decide)
    (fun r hr _ => sampleTable_top.mp hr ▸ hsmall) (by decide)

/-- A tree that is too large at the front of the range: the call gives up. -/
theorem WellFormed.deleteAll_gives_up (h : t.WellFormed) (hr : t.Top r) (hmem : a ∈ t.addrs r)
    (hbig : ¬ t.Small env r) (hlt : a < e) (fuel : Nat) :
    deleteAllBigallocsOverlappingRange env e fuel t a = none := by
  cases fuel with
  | zero => exact if_pos hlt
  | succ fuel =>
    have h0 := h.pageindex_ne_zero hr.1 hmem
    obtain ⟨hu, -⟩ := h.mem_addrs_pageindex h0
    obtain ⟨k, hk⟩ := h.links.exists_depth hr.1
    have hmemlt := hmem.2
    unfold deleteAllBigallocsOverlappingRange
    rw [if_pos hlt]
    dsimp only
    rw [if_neg h0, if_neg (not_or.mpr ⟨hu.2.2.1, hu.2.2.2⟩), h.rootOf_pageindex hr.1 hr.2 hmem]
    simp only [some_bind]
    rw [if_neg (by omega)]
    rcases bigallocDel_cases env nbigallocs h.links hr.1 hk (by omega) (h.nested hr.1) with
      ⟨hnone, -⟩ | ⟨t', -, hsmall, -⟩
    · rw [hnone]
      rfl
    · exact absurd hsmall hbig

/-- A mapping of 2^33 bytes. -/
theorem deleteAllBigallocsOverlappingRange_gives_up : ∃ t : Table, t.WellFormed
    ∧ ∀ fuel, deleteAllBigallocsOverlappingRange sampleEnv 8192 fuel t 4096 = none := by
  have hsane : (oneEntry (4096 + 2 ^ 33) {}).Sane :=
    ⟨show 0 < 1 by decide, show 1 ≤ 8 by decide, show 0 < 4096 by decide, rfl, by decide, rfl⟩
  obtain ⟨b, t, hcall, hu, hup, hb, he⟩ : ∃ b t, (heapOf (oneEntry (4096 + 2 ^ 33) {})).newBigalloc
      { biggestSaneUserAlloc := 2 ^ 34 } (bigallocOf (oneEntry (4096 + 2 ^ 33) {})) = some (b, t)
      ∧ t.InUse 1 ∧ t.up 1 = 0 ∧ (t 1).begin = 4096 ∧ (t 1).end_ = 4096 + 2 ^ 33 := by
    decide +kernel
  have hwf := (mapped_single hsane (by decide) (by decide) rfl hcall).wellFormed
  refine ⟨t, hwf, fun fuel => ?_⟩
  refine hwf.deleteAll_gives_up (r := 1) ⟨hu, hup⟩ ?_ ?_ (by decide) fuel
  · rw [addrs, hb, he]
    decide
  · rw [Small, hb, he]
    decide

end Liballocs.Table
