/-
Shrinking a record from either side.

Truncation hands a run of pages to the parent and moves one bound.  The table stays well formed only if
no child reaches into the part given up and the record did not share the page at the cut with its
parent without spanning it.
-/
import Liballocs.Proofs.Resize

namespace Liballocs.Table

open Forest

variable {env : Env} {t t' : Table} {a b hi lo n q : Nat} {f : Nat → Nat}

/-- The children of the record lie between the bounds. -/
def KidsWithin (t : Table) (b lo hi : Nat) : Prop :=
  ∀ n, t.InUse n → t.up n = b → lo ≤ (t.bigAllocations n).begin ∧ (t.bigAllocations n).end_ ≤ hi

/-- `b` was cut down to the range, and that is all that happened. -/
structure Truncated (t : Table) (b lo hi : Nat) (t' : Table) : Prop where
  wellFormed : t'.WellFormed
  range : (t'.bigAllocations b).begin = lo ∧ (t'.bigAllocations b).end_ = hi
  pages : ∀ q, t'.pageindex q ≠ t.pageindex q → t.pageindex q = b
  inside : ∀ n, t.InUse n → Below t.up n b →
    lo ≤ (t'.bigAllocations n).begin ∧ (t'.bigAllocations n).end_ ≤ hi

/-! ### The page at the cut -/

/-- A page with an address of `b` that `b` does not span is indexed by the parent exactly if that
spans it. -/
theorem WellFormed.pageindex_eq_up_iff (h : t.WellFormed) (hb : t.InUse b) (ha : a ∈ t.addrs b)
    (hno : ¬ t.SpansPage b (pagenum a)) (hup : t.up b ≠ 0) :
    t.pageindex (pagenum a) = t.up b ↔ t.SpansPage (t.up b) (pagenum a) := by
  have hu := h.links.up_inUse b hb hup
  constructor
  · intro hq
    exact h.wellNested.spansPage_of_pageindex hu hq
  · intro hs
    apply h.laminar_pages.deepest_unique (h.canonical (pagenum a))
    apply h.laminar_pages.deepest_iff.mpr
    refine .inr ⟨hu, hs, fun m hm hmq => ?_⟩
    rcases h.laminar_addrs.below_or_below hm hb (Spans.contains_pagenum hmq) ha with hc | hc
    · exact absurd (h.laminar_pages.subset_of_below hm hc hb.ne_zero hmq) hno
    · rcases below_iff.mp hc with rfl | hc
      · exact absurd hmq hno
      · exact hc

theorem Links.not_spansPage_zero {d : Nat} (h : t.Links d) : ¬ t.SpansPage 0 q := by
  intro hs
  have h2 := hs.2
  rw [h.null] at h2
  simp only [pageSize] at h2
  omega

/-- Handing pages with addresses of `b` to its parent suits a smaller range if they are those that `b`
no longer spans, and the parent spans those that `b` did not span either. -/
theorem WellFormed.handedUp_iff (h : t.WellFormed) (hb : t.InUse b) {W : Nat → Prop}
    [DecidablePred W] (hnew : ∀ q, W q → ¬ Spans lo hi q)
    (hout : ∀ q, ¬ W q → (t.SpansPage b q ↔ Spans lo hi q))
    (haddr : ∀ q, W q → ∃ a ∈ t.addrs b, pagenum a = q) :
    (∀ q, (if W q then t.up b else t.pageindex q) = t.resizedIndex b lo hi q)
      ↔ ∀ q, W q → t.SpansPage b q ∨ t.SpansPage (t.up b) q := by
  unfold resizedIndex
  constructor
  · intro hall q hq
    by_cases hs : t.SpansPage b q
    · exact .inl hs
    have hpage := hall q
    rw [if_pos hq, if_neg (hnew q hq), if_neg hs] at hpage
    obtain ⟨a, ha, rfl⟩ := haddr q hq
    by_cases hup : t.up b = 0
    · obtain ⟨h1, h2⟩ := h.aligned b hb hup
      exact absurd (spans_pagenum h1 h2 ha.1 ha.2) hs
    · exact .inr ((h.pageindex_eq_up_iff hb ha hs hup).mp hpage.symm)
  · intro hcond q
    by_cases hq : W q
    · rw [if_pos hq, if_neg (hnew q hq)]
      by_cases hs : t.SpansPage b q
      · rw [if_pos hs]
      · rw [if_neg hs]
        have hps := (hcond q hq).resolve_left hs
        have hup : t.up b ≠ 0 := by
          intro h0
          rw [h0] at hps
          exact h.links.not_spansPage_zero hps
        obtain ⟨a, ha, rfl⟩ := haddr q hq
        exact ((h.pageindex_eq_up_iff hb ha hs hup).mpr hps).symm
    · rw [if_neg hq]
      by_cases hs : t.SpansPage b q
      · rw [if_pos ((hout q hq).mp hs), if_pos hs]
      · rw [if_neg (mt (hout q hq).mpr hs), if_neg hs]

/-! ### The range -/

theorem WellFormed.fitsAt_iff_kidsWithin (h : t.WellFormed) (hb : t.InUse b)
    (hlo : (t b).begin ≤ lo) (hlt : lo < hi) (hhi : hi ≤ (t b).end_) :
    t.FitsAt b lo hi ↔ t.KidsWithin b lo hi := by
  constructor
  · intro hf
    exact hf.kids
  · intro hk
    refine ⟨hlt, fun hup => ?_, fun n hn hup hne => ?_, hk⟩
    · have hin := h.inside b hb hup
      unfold Inside at hin
      omega
    · rcases h.apart n b hn hb hup hne with ha | ha
      · exact .inl (ha.trans hlo)
      · exact .inr (hhi.trans ha)

theorem FitsAt.pageindex_of_changed (hf : t.FitsAt b lo hi) (h : t.WellFormed) (hb : t.InUse b)
    (hlo : (t b).begin ≤ lo) (hhi : hi ≤ (t b).end_)
    (hq : t.resizedIndex b lo hi q ≠ t.pageindex q) : t.pageindex q = b := by
  unfold resizedIndex at hq
  have hsub : Spans lo hi q → t.SpansPage b q := fun hs =>
    ⟨hlo.trans hs.1, hs.2.trans hhi⟩
  by_cases hnew : Spans lo hi q
  · rw [if_pos hnew, if_pos (hsub hnew)] at hq
    exact absurd rfl hq
  · rw [if_neg hnew] at hq
    by_cases hold : t.SpansPage b q
    · -- anything deeper would be a child's, and the children lie where `b` still is
      rcases h.canonical_iff q with ⟨-, hno⟩ | ⟨hu, hs, hbelow⟩
      · exact absurd hold (hno b hb)
      · by_contra hne
        obtain ⟨c, hc, hup, hcq⟩ := h.wellNested.exists_child_spans hu hb hs (hbelow b hb hold) hne
        exact hnew (hf.kid_spans h.wellNested hb hc hup hcq).2
    · rw [if_neg hold] at hq
      exact absurd rfl hq

/-- A smaller range is a truncation exactly if the table stays well formed. -/
theorem WellFormed.truncated_iff (h : t.WellFormed) (hb : t.InUse b)
    (hlo : (t b).begin ≤ lo) (hlt : lo < hi) (hhi : hi ≤ (t b).end_) :
    t.Truncated b lo hi (t.resize b lo hi f) ↔
      (t.KidsWithin b lo hi ∧ (t.up b = 0 → PageAligned lo ∧ PageAligned hi))
        ∧ ∀ q, f q = t.resizedIndex b lo hi q := by
  have hpos : lo ≠ 0 := by
    have := hb.2.2.1
    omega
  have hmeets : t.Meets b lo hi := ⟨by omega, by omega⟩
  have hresize := h.resize_iff (f := f) hb hpos (by omega) hmeets
  rw [h.fitsAt_iff_kidsWithin hb hlo hlt hhi] at hresize
  constructor
  · intro ht
    exact hresize.mp ht.wellFormed
  · intro hcond
    have hwf := hresize.mpr hcond
    have hf := (h.fitsAt_iff_kidsWithin hb hlo hlt hhi).mpr hcond.1.1
    refine ⟨hwf, by rw [resize_self]; exact ⟨rfl, rfl⟩, fun q hq => ?_, fun n hn hbelow => ?_⟩
    · apply hf.pageindex_of_changed h hb hlo hhi
      rw [← hcond.2 q]
      exact hq
    · have hin := (resize_inUse (f := f) hb hpos (by omega : hi ≠ 0)).mpr hn
      have hbounds := hwf.bounds n hin
      have hsub := hwf.laminar_addrs.subset_of_below hin (by rw [resize_up]; exact hbelow) hb.ne_zero
      have h1 := hsub ⟨le_rfl, hbounds⟩
      have h2 := hsub (show _ ∈ _ from ⟨Nat.le_sub_one_of_lt hbounds,
        Nat.sub_lt (by omega) Nat.one_pos⟩)
      unfold addrs at h1 h2
      simp only [resize_self, Set.mem_ofPred_eq] at h1 h2
      omega

/-! ### Truncating -/

/-- The pages that `__liballocs_truncate_bigalloc_at_end` hands to the parent. -/
def PagesBehind (t : Table) (b newEnd q : Nat) : Prop :=
  pagenum newEnd ≤ q ∧ q < pagenum (t.bigAllocations b).end_

/-- The pages that `__liballocs_truncate_bigalloc_at_beginning` hands to the parent. -/
def PagesBefore (t : Table) (b newBegin q : Nat) : Prop :=
  (t.bigAllocations b).begin ≤ q * pageSize ∧ q * pageSize < newBegin

instance (t : Table) (b newEnd : Nat) : DecidablePred (t.PagesBehind b newEnd) := fun _ =>
  inferInstanceAs (Decidable (_ ∧ _))

instance (t : Table) (b newBegin : Nat) : DecidablePred (t.PagesBefore b newBegin) := fun _ =>
  inferInstanceAs (Decidable (_ ∧ _))

section

variable (h : t.WellFormed) (hb : t.InUse b)
include h hb

theorem truncateBigallocAtEnd_iff_resize :
    t.truncateBigallocAtEnd env b hi = some t' ↔
      SanePages env (roundDown hi pageSize) (roundDown (t b).end_ pageSize)
        ∧ t' = t.resize b (t b).begin hi
          (fun q => if t.PagesBehind b hi q then t.up b else t.pageindex q) := by
  rw [truncateBigallocAtEnd_eq_some_iff env t' hi (up_lt h.links hb), pagenum_roundDown,
    pagenum_roundDown]
  rfl

theorem truncateBigallocAtBeginning_iff_resize :
    t.truncateBigallocAtBeginning env b lo = some t' ↔
      SanePages env (roundUp (t b).begin pageSize) (roundUp lo pageSize)
        ∧ t' = t.resize b lo (t b).end_
          (fun q => if t.PagesBefore b lo q then t.up b else t.pageindex q) := by
  rw [truncateBigallocAtBeginning_eq_some_iff env t' lo h.links hb]
  refine and_congr Iff.rfl (Eq.congr rfl ?_)
  unfold resize setPages
  congr 1
  funext q
  exact if_congr (and_congr pagenum_roundUp_le lt_pagenum_roundUp) rfl rfl

theorem WellFormed.pagesBehind_iff (h1 : (t b).begin < hi) (h2 : hi < (t b).end_) :
    (∀ q, (if t.PagesBehind b hi q then t.up b else t.pageindex q)
        = t.resizedIndex b (t b).begin hi q)
      ↔ ∀ q, t.PagesBehind b hi q → t.SpansPage b q ∨ t.SpansPage (t.up b) q := by
  have hle : pagenum hi ≤ pagenum (t b).end_ := Nat.div_le_div_right (by omega)
  refine h.handedUp_iff hb (fun q hq hs => ?_) (fun q hq => ?_) fun q hq => ?_
  · exact hq.1.not_gt (spans_iff_lt_pagenum.mp hs).2
  · unfold PagesBehind at hq
    unfold SpansPage
    rw [spans_iff_lt_pagenum, spans_iff_lt_pagenum]
    omega
  · -- the part of `b` in the page begins with the page or with `b`
    obtain ⟨hq1, hq2⟩ := hq
    have hpage := (pagenum_eq_iff.mp (rfl : pagenum hi = pagenum hi)).2
    have hmono : (pagenum hi + 1) * pageSize ≤ (q + 1) * pageSize :=
      Nat.mul_le_mul_right _ (by omega)
    have hend : q * pageSize < (t b).end_ := by
      have := (Nat.le_div_iff_mul_le (by decide : 0 < pageSize)).mp hq2
      simp only [pageSize] at this ⊢
      omega
    have hsucc : q * pageSize < (q + 1) * pageSize := by
      simp only [pageSize]
      omega
    exact ⟨max (t b).begin (q * pageSize),
      ⟨Nat.le_max_left _ _, by omega⟩, pagenum_eq_iff.mpr ⟨Nat.le_max_right _ _, by omega⟩⟩

theorem WellFormed.pagesBefore_iff (h1 : (t b).begin < lo) (h2 : lo < (t b).end_) :
    (∀ q, (if t.PagesBefore b lo q then t.up b else t.pageindex q)
        = t.resizedIndex b lo (t b).end_ q)
      ↔ ∀ q, t.PagesBefore b lo q → t.SpansPage b q ∨ t.SpansPage (t.up b) q := by
  refine h.handedUp_iff hb (fun q hq hs => ?_) (fun q hq => ?_) fun q hq => ?_
  · exact hs.1.not_gt hq.2
  · unfold PagesBefore at hq
    unfold SpansPage Spans
    omega
  · refine ⟨q * pageSize, ⟨hq.1, hq.2.trans h2⟩, pagenum_eq_iff.mpr ⟨le_rfl, ?_⟩⟩
    simp only [pageSize]
    omega

end

/-- A record with all children before `hi` is truncated there, if the pages behind are its own or its
parent's. -/
theorem KidsWithin.truncateBigallocAtEnd (hkids : t.KidsWithin b (t b).begin hi)
    (h : t.WellFormed) (hb : t.InUse b) (h1 : (t b).begin < hi)
    (h2 : hi < (t b).end_)
    (hsane : SanePages env (roundDown hi pageSize) (roundDown (t b).end_ pageSize))
    (hpages : ∀ q, t.PagesBehind b hi q → t.SpansPage b q ∨ t.SpansPage (t.up b) q)
    (halign : t.up b = 0 → PageAligned hi) :
    ∃ f, t.truncateBigallocAtEnd env b hi = some (t.resize b (t b).begin hi f)
      ∧ t.Truncated b (t b).begin hi (t.resize b (t b).begin hi f) := by
  refine ⟨_, (truncateBigallocAtEnd_iff_resize h hb).mpr ⟨hsane, rfl⟩, ?_⟩
  refine (h.truncated_iff hb le_rfl h1 h2.le).mpr ⟨⟨hkids, ?_⟩, ?_⟩
  · intro hup
    exact ⟨(h.aligned b hb hup).1, halign hup⟩
  · exact (h.pagesBehind_iff hb h1 h2).mpr hpages

/-- **Truncation leaves a well-formed table exactly when the number of pages is sane, no child reaches
into the part given up, each page handed over is one that the bigalloc or its parent spans, and a
top-level bigalloc is cut page-aligned.** -/
theorem truncateBigalloc_wellFormed_iff (env : Env) (t : Table) (b : Nat) (h : t.WellFormed)
    (hb : t.InUse b) :
    (∀ newEnd, (t.bigAllocations b).begin < newEnd → newEnd < (t.bigAllocations b).end_ →
      ((∃ t', t.truncateBigallocAtEnd env b newEnd = some t'
          ∧ t.Truncated b (t.bigAllocations b).begin newEnd t')
        ↔ SanePages env (roundDown newEnd pageSize) (roundDown (t.bigAllocations b).end_ pageSize)
          ∧ t.KidsWithin b (t.bigAllocations b).begin newEnd
          ∧ (∀ q, t.PagesBehind b newEnd q → t.SpansPage b q ∨ t.SpansPage (t.up b) q)
          ∧ (t.up b = 0 → PageAligned newEnd)))
    ∧ ∀ newBegin, (t.bigAllocations b).begin < newBegin → newBegin < (t.bigAllocations b).end_ →
      ((∃ t', t.truncateBigallocAtBeginning env b newBegin = some t'
          ∧ t.Truncated b newBegin (t.bigAllocations b).end_ t')
        ↔ SanePages env (roundUp (t.bigAllocations b).begin pageSize) (roundUp newBegin pageSize)
          ∧ t.KidsWithin b newBegin (t.bigAllocations b).end_
          ∧ (∀ q, t.PagesBefore b newBegin q → t.SpansPage b q ∨ t.SpansPage (t.up b) q)
          ∧ (t.up b = 0 → PageAligned newBegin)) := by
  constructor
  · intro newEnd h1 h2
    have hiff := h.truncated_iff (f := fun q =>
      if t.PagesBehind b newEnd q then t.up b else t.pageindex q) hb le_rfl h1
      h2.le
    rw [h.pagesBehind_iff hb h1 h2] at hiff
    constructor
    · rintro ⟨t', hrun, htr⟩
      obtain ⟨hsane, rfl⟩ := (truncateBigallocAtEnd_iff_resize h hb).mp hrun
      obtain ⟨⟨hkids, halign⟩, hpages⟩ := hiff.mp htr
      exact ⟨hsane, hkids, hpages, fun hup => (halign hup).2⟩
    · rintro ⟨hsane, hkids, hpages, halign⟩
      obtain ⟨f, hrun, htr⟩ := hkids.truncateBigallocAtEnd h hb h1 h2 hsane hpages halign
      exact ⟨_, hrun, htr⟩
  · intro newBegin h1 h2
    have hiff := h.truncated_iff (f := fun q =>
      if t.PagesBefore b newBegin q then t.up b else t.pageindex q) hb h1.le h2
      le_rfl
    rw [h.pagesBefore_iff hb h1 h2] at hiff
    constructor
    · rintro ⟨t', hrun, htr⟩
      obtain ⟨hsane, rfl⟩ := (truncateBigallocAtBeginning_iff_resize h hb).mp hrun
      obtain ⟨⟨hkids, halign⟩, hpages⟩ := hiff.mp htr
      exact ⟨hsane, hkids, hpages, fun hup => (halign hup).1⟩
    · rintro ⟨hsane, hkids, hpages, halign⟩
      exact ⟨_, (truncateBigallocAtBeginning_iff_resize h hb).mpr ⟨hsane, rfl⟩,
        hiff.mpr ⟨⟨hkids, fun hup => ⟨halign hup, (h.aligned b hb hup).2⟩⟩, hpages⟩⟩

/-- Nothing lies in the record `[5000, 14000)`, which spans the page that is cut: it may end, or
begin, at 9000. -/
theorem truncateBigalloc_wellFormed_sample : ∃ used t t₁ t₂,
    sampleNested 5000 9000 = some (used, t)
      ∧ t.truncateBigallocAtEnd sampleEnv 2 9000 = some t₁ ∧ t.Truncated 2 5000 9000 t₁
      ∧ t.truncateBigallocAtBeginning sampleEnv 2 9000 = some t₂
      ∧ t.Truncated 2 9000 14000 t₂ := by
  obtain ⟨used, t, ht, hn⟩ := sampleNested_isNested
  obtain ⟨hin, hup, hlo, hhi⟩ := hn.inner
  obtain ⟨hwf, -, hused, -⟩ := sample_empty.createAll_wellFormed ht
  have hkids : ∀ lo hi, t.KidsWithin 2 lo hi := by
    intro lo hi n hn' hupn
    rcases hn.eq_of_inUse hused hn' with rfl | rfl
    · exact absurd (hup.symm.trans hupn) (by decide)
    · exact absurd (hn.outer.2.1.symm.trans hupn) (by decide)
  have htop : t.up 2 ≠ 0 := fun hc => absurd (hup.symm.trans hc) (by decide)
  have hbehind : ∀ q, t.PagesBehind 2 9000 q → t.SpansPage 2 q := by
    intro q hq
    unfold PagesBehind pagenum at hq
    unfold SpansPage Spans
    simp only [hlo, hhi, pageSize] at hq ⊢
    omega
  have hbefore : ∀ q, t.PagesBefore 2 9000 q → t.SpansPage 2 q := by
    intro q hq
    unfold PagesBefore at hq
    unfold SpansPage Spans
    simp only [hlo, hhi, pageSize] at hq ⊢
    omega
  obtain ⟨hend, hbegin⟩ := truncateBigalloc_wellFormed_iff sampleEnv t 2 hwf hin
  rw [hlo, hhi] at hend hbegin
  obtain ⟨t₁, hrun1, htr1⟩ := (hend 9000 (by decide) (by decide)).mpr
    ⟨by decide, hkids 5000 9000, fun q hq => .inl (hbehind q hq), fun hc => absurd hc htop⟩
  obtain ⟨t₂, hrun2, htr2⟩ := (hbegin 9000 (by decide) (by decide)).mpr
    ⟨by decide, hkids 9000 14000, fun q hq => .inl (hbefore q hq), fun hc => absurd hc htop⟩
  exact ⟨used, t, t₁, t₂, ht, hrun1, htr1, hrun2, htr2⟩

/-- Three bigallocs, each in the one before. -/
def sampleDeep : Option (List Nat × Table) :=
  createAll sampleEnv [] {} [sampleOuter, sampleInner,
    { ptr := 5100, size := 3900, maybeParent := 2, allocatedBy := some .genericSmall }]

/-- Truncating the middle record `[5000, 14000)` at 8000 leaves its child `[5100, 9000)` sticking out.
Truncating that child at 5200 gives the second page to the middle record, which does not span it,
where the outer one had been. -/
theorem truncateBigallocAtEnd_breaks : ∃ used t t₁ t₂, sampleDeep = some (used, t) ∧ t.WellFormed
    ∧ (t.InUse 2 ∧ (t.bigAllocations 2).begin < 8000 ∧ 8000 < (t.bigAllocations 2).end_
      ∧ t.truncateBigallocAtEnd sampleEnv 2 8000 = some t₁
      ∧ t₁.InUse 3 ∧ t₁.up 3 = 2 ∧ (t₁.bigAllocations 2).end_ < (t₁.bigAllocations 3).end_)
    ∧ (t.InUse 3 ∧ (t.bigAllocations 3).begin < 5200 ∧ 5200 < (t.bigAllocations 3).end_
      ∧ t.truncateBigallocAtEnd sampleEnv 3 5200 = some t₂
      ∧ t.pageindex 1 = 1 ∧ t₂.pageindex 1 = 2 ∧ ¬ t₂.SpansPage 2 1) := by
  obtain ⟨used, t, ht, ⟨h1, h2, h3⟩, ⟨h4, h5, h6⟩, ⟨t₁, hout⟩, t₂, hpage⟩ :
      ∃ used t, sampleDeep = some (used, t) ∧ (t.InUse 2 ∧ (t 2).begin < 8000 ∧ 8000 < (t 2).end_)
        ∧ (t.InUse 3 ∧ (t 3).begin < 5200 ∧ 5200 < (t 3).end_)
        ∧ (∃ t₁, t.truncateBigallocAtEnd sampleEnv 2 8000 = some t₁ ∧ t₁.InUse 3 ∧ t₁.up 3 = 2
          ∧ (t₁ 2).end_ < (t₁ 3).end_)
        ∧ ∃ t₂, t.truncateBigallocAtEnd sampleEnv 3 5200 = some t₂
          ∧ t.pageindex 1 = 1 ∧ t₂.pageindex 1 = 2 ∧ ¬ t₂.SpansPage 2 1 := by
    decide +kernel
  exact ⟨used, t, t₁, t₂, ht, (sample_empty.createAll_wellFormed ht).1, ⟨h1, h2, h3, hout⟩,
    ⟨h4, h5, h6, hpage⟩⟩

end Liballocs.Table
