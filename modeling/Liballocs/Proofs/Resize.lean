/-
Growing and shrinking a record in its place in the forest.

For a new range inside the parent, apart from siblings and around the children there is one canonical
page index.  Extending and truncating write one run of pages, and at its ends the record need not span
the page, so the index they leave is not always that one.
-/
import Liballocs.Proofs.Bounds
import Liballocs.Proofs.Runs

namespace Liballocs.Table

open Forest

variable {env : Env} {t t' : Table} {b hi lo m n q e : Nat} {f : Nat → Nat} {used : List Nat}

/-- The range leaves the record `b` in its place among the others. -/
structure FitsAt (t : Table) (b lo hi : Nat) : Prop where
  bounds : lo < hi
  inside : t.up b ≠ 0 →
    (t.bigAllocations (t.up b)).begin ≤ lo ∧ hi ≤ (t.bigAllocations (t.up b)).end_
  apart : ∀ n, t.InUse n → t.up n = t.up b → n ≠ b →
    (t.bigAllocations n).end_ ≤ lo ∨ hi ≤ (t.bigAllocations n).begin
  kids : ∀ n, t.InUse n → t.up n = b →
    lo ≤ (t.bigAllocations n).begin ∧ (t.bigAllocations n).end_ ≤ hi

/-- The record overlaps the range. -/
def Meets (t : Table) (b lo hi : Nat) : Prop :=
  lo < (t.bigAllocations b).end_ ∧ (t.bigAllocations b).begin < hi

/-- The page index that suits other bounds for `b`. -/
def resizedIndex (t : Table) (b lo hi q : Nat) : Nat :=
  if Spans lo hi q then
    if t.SpansPage b q then t.pageindex q else b
  else if t.SpansPage b q then t.up b
  else t.pageindex q

/-- The table with other bounds for one record, and another page index. -/
def resize (t : Table) (b lo hi : Nat) (f : Nat → Nat) : Table :=
  { t.setBounds b lo hi with pageindex := f }

/-! ### The records -/

theorem resize_self : (t.resize b lo hi f) b
    = { t b with begin := lo, end_ := hi } := t.setBounds_self b lo hi

theorem resize_of_ne (hn : n ≠ b) : (t.resize b lo hi f) n = t n := setBounds_of_ne hn

@[simp] theorem resize_up : (t.resize b lo hi f).up = t.up := setBounds_up

theorem resize_inUse (hb : t.InUse b) (hlo : lo ≠ 0) (hhi : hi ≠ 0) :
    (t.resize b lo hi f).InUse n ↔ t.InUse n := setBounds_inUse hb hlo hhi

theorem resize_spansPage_self : (t.resize b lo hi f).SpansPage b q ↔ Spans lo hi q := by
  unfold SpansPage
  rw [resize_self]

theorem resize_spansPage_of_ne (hn : n ≠ b) :
    (t.resize b lo hi f).SpansPage n q ↔ t.SpansPage n q := by
  unfold SpansPage
  rw [resize_of_ne hn]

section

variable (hf : t.FitsAt b lo hi) (h : t.WellNested) (hb : t.InUse b) (hlo : lo ≠ 0)

include hf h hb hlo

theorem FitsAt.links (hm : t.Meets b lo hi) : (t.resize b lo hi f).Links 0 := by
  have hlt := hf.bounds
  suffices hs : (t.setBounds b lo hi).Links 0 from hs.of_eq rfl rfl
  refine h.links.setBounds hb hlo (by omega) fun hup n hn hn0 hne => ?_
  have hbn := h.bounds n hn
  have hapart := h.apart n b hn hb (hn0.trans hup.symm) hne
  have hapart' := hf.apart n hn (hn0.trans hup.symm) hne
  obtain ⟨hm1, hm2⟩ := hm
  constructor <;> intro h1 h2 <;> omega

theorem FitsAt.tiled : (t.resize b lo hi f).Tiled := by
  have hlt := hf.bounds
  have hin : ∀ n, (t.resize b lo hi f).InUse n ↔ t.InUse n := fun n =>
    resize_inUse hb hlo (by omega)
  refine ⟨fun n hn => ?_, fun n hn hup => ?_, fun m n hm hn hup hne => ?_⟩
  · by_cases hnb : n = b
    · subst hnb
      rw [resize_self]
      exact hlt
    · rw [resize_of_ne hnb]
      exact h.bounds n ((hin n).mp hn)
  · rw [resize_up] at hup
    unfold Inside
    rw [resize_up]
    by_cases hnb : n = b
    · subst hnb
      rw [resize_self, resize_of_ne (h.links.up_ne_self hb)]
      exact hf.inside hup
    · rw [resize_of_ne hnb]
      by_cases hpb : t.up n = b
      · rw [hpb, resize_self]
        exact hf.kids n ((hin n).mp hn) hpb
      · rw [resize_of_ne hpb]
        exact h.inside n ((hin n).mp hn) hup
  · rw [resize_up] at hup
    unfold Apart
    by_cases hmb : m = b
    · subst hmb
      rw [resize_self, resize_of_ne (Ne.symm hne)]
      exact (hf.apart n ((hin n).mp hn) hup.symm (Ne.symm hne)).symm
    · rw [resize_of_ne hmb]
      by_cases hnb : n = b
      · subst hnb
        rw [resize_self]
        exact hf.apart m ((hin m).mp hm) hup hmb
      · rw [resize_of_ne hnb]
        exact h.apart m n ((hin m).mp hm) ((hin n).mp hn) hup hne

end

/-- Nothing but these four things must be true of the range. -/
theorem FitsAt.of_tiled (h : (t.resize b lo hi f).Tiled) (hb : t.InUse b) (hlo : lo ≠ 0)
    (hhi : hi ≠ 0) (hne : t.up b ≠ b) : t.FitsAt b lo hi := by
  have hin : ∀ n, t.InUse n → (t.resize b lo hi f).InUse n := fun n => (resize_inUse hb hlo hhi).mpr
  have hupeq : (t.resize b lo hi f).up = t.up := resize_up
  refine ⟨?_, fun hup => ?_, fun n hn hup hnb => ?_, fun n hn hup => ?_⟩
  · have hbounds := h.bounds b (hin b hb)
    rw [resize_self] at hbounds
    exact hbounds
  · have hinside := h.inside b (hin b hb) (by rwa [hupeq])
    unfold Inside at hinside
    rw [hupeq, resize_self, resize_of_ne hne] at hinside
    exact hinside
  · have hapart := h.apart n b (hin n hn) (hin b hb) (by rwa [hupeq]) hnb
    unfold Apart at hapart
    rw [resize_self, resize_of_ne hnb] at hapart
    exact hapart
  · have hnb : n ≠ b := fun hc => hne (by rw [hc] at hup; exact hup)
    have hinside := h.inside n (hin n hn) (by rw [hupeq, hup]; exact hb.ne_zero)
    unfold Inside at hinside
    rw [hupeq, hup, resize_self, resize_of_ne hnb] at hinside
    exact hinside

/-! ### Records of which one ends elsewhere -/

section EndMoved

variable {e r : Nat}

/-- The records of `t'` are those of `t`, but that `r` ends at `e`. -/
structure EndMoved (t : Table) (r e : Nat) (t' : Table) : Prop where
  records : t'.bigAllocations
    = Function.update t.bigAllocations r { t.bigAllocations r with end_ := e }
  brk : t'.brkBigalloc = t.brkBigalloc
  mapping : t'.brkMappingBigalloc = t.brkMappingBigalloc
  initialized : t'.brkInitialized = t.brkInitialized

namespace EndMoved

theorem refl (h : (t r).end_ = e) : t.EndMoved r e t := by
  subst h
  exact ⟨(Function.update_eq_self r t.bigAllocations).symm, rfl, rfl, rfl⟩

section

variable (h : t.EndMoved r e t')
include h

theorem self : t' r = { t r with end_ := e } := by
  rw [h.records, Function.update_self]

theorem of_ne (hn : n ≠ r) : t' n = t n := by
  rw [h.records, Function.update_of_ne hn]

theorem begin_eq (n : Nat) : (t' n).begin = (t n).begin := by
  by_cases hn : n = r
  · rw [hn, h.self]
  · rw [h.of_ne hn]

theorem up_eq : t'.up = t.up := by
  funext n
  unfold up
  by_cases hn : n = r
  · rw [hn, h.self]
  · rw [h.of_ne hn]

theorem inUse_iff (hr : t.InUse r) (he : e ≠ 0) : t'.InUse n ↔ t.InUse n := by
  by_cases hn : n = r
  · subst hn
    unfold InUse
    rw [h.self]
    exact ⟨fun _ => hr, fun hin => ⟨hin.1, hin.2.1, hin.2.2.1, he⟩⟩
  · unfold InUse
    rw [h.of_ne hn]

end

end EndMoved

theorem resize_endMoved : t.EndMoved r e (t.resize r (t r).begin e f) := by
  refine ⟨?_, rfl, rfl, rfl⟩
  funext n
  by_cases hn : n = r
  · rw [hn, resize_self, Function.update_self]
  · rw [resize_of_ne hn, Function.update_of_ne hn]

theorem EndMoved.setSequence (h : t.EndMoved r e t') (p : Nat) (s : MappingSequence) :
    t.EndMoved r e (t'.setSequence p s) :=
  ⟨h.records, h.brk, h.mapping, h.initialized⟩

theorem setSequence_resize_endMoved (p : Nat) (s : MappingSequence) :
    t.EndMoved r e ((t.setSequence p s).resize r (t r).begin e f) :=
  ⟨(resize_endMoved (t := t.setSequence p s)).records, rfl, rfl, rfl⟩

end EndMoved

/-! ### The page index -/

/-- A record below `b` that spans a page lies under a child of `b` that does. -/
theorem WellNested.exists_child_spans (h : t.WellNested) (hm : t.InUse m) (hb : t.InUse b)
    (hmq : t.SpansPage m q) (hbelow : Below t.up m b) (hne : m ≠ b) :
    ∃ c, t.InUse c ∧ t.up c = b ∧ t.SpansPage c q := by
  obtain ⟨c, hmc, hup⟩ := hbelow.exists_child hne
  have hc : t.InUse c := h.links.inUse_of_up (by rw [hup]; exact hb.ne_zero)
  exact ⟨c, hc, hup, h.laminar_pages.subset_of_below hm hmc hc.ne_zero hmq⟩

theorem FitsAt.kid_spans (hf : t.FitsAt b lo hi) (h : t.WellNested) (hb : t.InUse b)
    (hn : t.InUse n) (hup : t.up n = b) (hq : t.SpansPage n q) :
    t.SpansPage b q ∧ Spans lo hi q := by
  have hspan := (h.inside n hn (by rw [hup]; exact hb.ne_zero)).spansPage hq
  rw [hup] at hspan
  obtain ⟨h1, h2⟩ := hf.kids n hn hup
  exact ⟨hspan, h1.trans hq.1, hq.2.trans h2⟩

section

variable (hf : t.FitsAt b lo hi) (h : t.WellNested) (hb : t.InUse b) (hlo : lo ≠ 0)
  (hm : t.Meets b lo hi)
include hf h hb hlo hm

theorem FitsAt.laminar :
    Laminar (t.resize b lo hi f).InUse (t.resize b lo hi f).up 0 (t.resize b lo hi f).pages :=
  (hf.tiled h hb hlo).laminar_pages (hf.links h hb hlo hm)

/-- A page that `b` spans before and after, or neither, keeps its entry. -/
theorem FitsAt.deepest_same (hq : t.SpansPage b q ↔ Spans lo hi q) :
    (t.resize b lo hi f).DeepestSuchThat ((t.resize b lo hi f).SpansPage · q) (t.pageindex q) := by
  have hlt := hf.bounds
  have hin : ∀ n, (t.resize b lo hi f).InUse n ↔ t.InUse n := fun n =>
    resize_inUse hb hlo (by omega)
  have hspan : ∀ n, (t.resize b lo hi f).SpansPage n q ↔ t.SpansPage n q := by
    intro n
    by_cases hn : n = b
    · rw [hn, resize_spansPage_self, hq]
    · exact resize_spansPage_of_ne hn
  apply (hf.laminar h hb hlo hm).deepest_iff.mpr
  rcases h.canonical_iff q with ⟨h0, hno⟩ | ⟨hu, hs, hbelow⟩
  · exact .inl ⟨h0, fun m hm hmq => hno m ((hin m).mp hm) ((hspan m).mp hmq)⟩
  · refine .inr ⟨(hin _).mpr hu, (hspan _).mpr hs, fun m hm hmq => ?_⟩
    rw [resize_up]
    exact hbelow m ((hin m).mp hm) ((hspan m).mp hmq)

/-- A page that `b` spans no longer goes to the parent. -/
theorem FitsAt.deepest_parent (hold : t.SpansPage b q) (hnew : ¬ Spans lo hi q) :
    (t.resize b lo hi f).DeepestSuchThat ((t.resize b lo hi f).SpansPage · q) (t.up b) := by
  have hlt := hf.bounds
  have hin : ∀ n, (t.resize b lo hi f).InUse n ↔ t.InUse n := fun n =>
    resize_inUse hb hlo (by omega)
  have habove : ∀ m, (t.resize b lo hi f).InUse m → (t.resize b lo hi f).SpansPage m q →
      Below t.up (t.up b) m := by
    intro m hm hmq
    have hmb : m ≠ b := fun hc => hnew (resize_spansPage_self.mp (hc ▸ hmq))
    have hmq' := (resize_spansPage_of_ne hmb).mp hmq
    have hm' := (hin m).mp hm
    rcases h.laminar_pages.below_or_below hm' hb hmq' hold with hc | hc
    · obtain ⟨c, hcu, hup, hcq⟩ := h.exists_child_spans hm' hb hmq' hc hmb
      exact absurd (hf.kid_spans h hb hcu hup hcq).2 hnew
    · exact (below_iff.mp hc).resolve_left (Ne.symm hmb)
  apply (hf.laminar h hb hlo hm).deepest_iff.mpr
  by_cases hup : t.up b = 0
  · refine .inl ⟨hup, fun m hm hmq => ?_⟩
    have hbelow := habove m hm hmq
    rw [hup] at hbelow
    exact hm.ne_zero (eq_null_of_below h.links.up_zero hbelow)
  · refine .inr ⟨(hin _).mpr (h.links.up_inUse b hb hup), ?_, fun m hm hmq => ?_⟩
    · exact (resize_spansPage_of_ne (h.links.up_ne_self hb)).mpr
        ((h.inside b hb hup).spansPage hold)
    · rw [resize_up]
      exact habove m hm hmq

/-- In the resized table `resizedIndex` is the deepest record on each page. -/
theorem FitsAt.deepest (q : Nat) :
    (t.resize b lo hi f).DeepestSuchThat ((t.resize b lo hi f).SpansPage · q)
      (t.resizedIndex b lo hi q) := by
  have hlt := hf.bounds
  unfold resizedIndex
  by_cases hnew : Spans lo hi q <;> by_cases hold : t.SpansPage b q
  · rw [if_pos hnew, if_pos hold]
    exact hf.deepest_same h hb hlo hm ⟨fun _ => hnew, fun _ => hold⟩
  · rw [if_pos hnew, if_neg hold]
    refine (hf.laminar h hb hlo hm).deepest_of_no_child (n := b)
      ((resize_inUse hb hlo (by omega)).mpr hb) (resize_spansPage_self.mpr hnew) ?_
    intro c hc hup hcq
    rw [resize_up] at hup
    have hcb : c ≠ b := fun hcb => h.links.up_ne_self hb (by rw [hcb] at hup; exact hup)
    exact hold (hf.kid_spans h hb ((resize_inUse hb hlo (by omega)).mp hc) hup
      ((resize_spansPage_of_ne hcb).mp hcq)).1
  · rw [if_neg hnew, if_pos hold]
    exact hf.deepest_parent h hb hlo hm hold hnew
  · rw [if_neg hnew, if_neg hold]
    exact hf.deepest_same h hb hlo hm ⟨fun hc => absurd hc hold, fun hc => absurd hc hnew⟩

end

/-- **The new bounds are good exactly when they leave the record in its place and the page index suits
them.** -/
theorem WellNested.resize_iff (h : t.WellNested) (hb : t.InUse b) (hlo : lo ≠ 0) (hhi : hi ≠ 0)
    (hm : t.Meets b lo hi) :
    (t.resize b lo hi f).WellNested ↔ t.FitsAt b lo hi ∧ ∀ q, f q = t.resizedIndex b lo hi q := by
  constructor
  · intro h'
    have hf := FitsAt.of_tiled h'.toTiled hb hlo hhi (h.links.up_ne_self hb)
    exact ⟨hf, fun q => h'.laminar_pages.deepest_unique (h'.canonical q) (hf.deepest h hb hlo hm q)⟩
  · rintro ⟨hf, hq⟩
    refine ⟨hf.tiled h hb hlo, hf.links h hb hlo hm, fun h0 => ?_, fun q => ?_⟩
    · obtain ⟨hu, hup, hne⟩ := h.entered h0
      exact ⟨(resize_inUse hb hlo hhi).mpr hu, by rw [resize_up]; exact hup, hne⟩
    · have hd := hf.deepest (f := f) h hb hlo hm q
      rw [← hq q] at hd
      exact hd

/-- The alignment of the top-level records is a matter of the new bounds alone. -/
theorem WellFormed.resize_iff (h : t.WellFormed) (hb : t.InUse b) (hlo : lo ≠ 0) (hhi : hi ≠ 0)
    (hm : t.Meets b lo hi) :
    (t.resize b lo hi f).WellFormed ↔
      (t.FitsAt b lo hi ∧ (t.up b = 0 → PageAligned lo ∧ PageAligned hi))
        ∧ ∀ q, f q = t.resizedIndex b lo hi q := by
  rw [wellFormed_iff, h.wellNested.resize_iff hb hlo hhi hm, resize_up]
  have halign : (∀ n, (t.resize b lo hi f).InUse n → t.up n = 0 →
      PageAligned ((t.resize b lo hi f) n).begin ∧ PageAligned ((t.resize b lo hi f) n).end_)
      ↔ (t.up b = 0 → PageAligned lo ∧ PageAligned hi) := by
    constructor
    · intro ha hup
      have hb' := ha b ((resize_inUse hb hlo hhi).mpr hb) hup
      rw [resize_self] at hb'
      exact hb'
    · intro ha n hn hup
      by_cases hnb : n = b
      · subst hnb
        rw [resize_self]
        exact ha hup
      · rw [resize_of_ne hnb]
        exact h.aligned n ((resize_inUse hb hlo hhi).mp hn) hup
  rw [halign]
  tauto

theorem spans_iff_lt_pagenum : Spans lo e q ↔ lo ≤ q * pageSize ∧ q < pagenum e := by
  unfold Spans
  rw [← pagenum_roundDown e, lt_pagenum_roundDown]

theorem WellNested.spansPage_of_pageindex (h : t.WellNested) (hb : t.InUse b)
    (hq : t.pageindex q = b) : t.SpansPage b q := by
  rcases h.canonical_iff q with ⟨h0, -⟩ | ⟨-, hs, -⟩
  · exact absurd (hq.symm.trans h0) hb.ne_zero
  · rwa [hq] at hs

/-! ### Extending -/

/-- The addresses from the end of the record up to `newEnd` are free for it. -/
structure RoomAbove (t : Table) (b newEnd : Nat) : Prop where
  inside : t.up b ≠ 0 → newEnd ≤ (t.bigAllocations (t.up b)).end_
  apart : ∀ n, t.InUse n → t.up n = t.up b → n ≠ b →
    (t.bigAllocations n).end_ ≤ (t.bigAllocations b).end_ ∨ newEnd ≤ (t.bigAllocations n).begin
  aligned : t.up b = 0 → PageAligned newEnd

theorem RoomAbove.fitsAt (hr : t.RoomAbove b hi) (h : t.WellFormed) (hb : t.InUse b)
    (hlt : (t b).end_ < hi) : t.FitsAt b (t b).begin hi := by
  have hbb := h.bounds b hb
  refine ⟨by omega, fun hup => ⟨(h.inside b hb hup).1, hr.inside hup⟩, fun n hn hup hne => ?_,
    fun n hn hup => ?_⟩
  · have hbn := h.bounds n hn
    rcases h.apart n b hn hb hup hne with ha | ha
    · exact .inl ha
    · rcases hr.apart n hn hup hne with hc | hc
      · omega
      · exact .inr hc
  · have hin := h.toFitted.tiled.inside_of_up hn hb.ne_zero hup
    omega

/-- The page index that `__liballocs_extend_bigalloc` leaves behind. -/
def extendedIndex (t : Table) (b newEnd q : Nat) : Nat :=
  if pagenum (t.bigAllocations b).end_ ≤ q ∧ q < pagenum newEnd then b else t.pageindex q

/-- The number of pages that `memset_bigalloc` is asked for is sane. -/
def SanePages (env : Env) (first second : Nat) : Prop :=
  pageDist first second ≤ env.biggestSaneUserAlloc >>> logPageSize

instance (env : Env) (first second : Nat) : Decidable (SanePages env first second) :=
  inferInstanceAs (Decidable (_ ≤ _))

theorem extendBigalloc_iff_resize (hb : t.InUse b) :
    t.extendBigalloc env b hi = some t' ↔
      SanePages env (roundDown (t b).end_ pageSize) (roundDown hi pageSize)
        ∧ t' = t.resize b (t b).begin hi (t.extendedIndex b hi) := by
  rw [extendBigalloc_eq_some_iff hb, pagenum_roundDown, pagenum_roundDown]
  rfl

/-- What is written suits the new end, but for the old end's page if the record begins there. -/
theorem WellNested.extendedIndex_iff (h : t.WellNested) (hb : t.InUse b) (hlt : (t b).end_ < hi) :
    (∀ q, t.extendedIndex b hi q = t.resizedIndex b (t b).begin hi q)
      ↔ (t b).begin ≤ roundDown (t b).end_ pageSize ∨ pagenum hi = pagenum (t b).end_ := by
  have hle : pagenum (t b).end_ ≤ pagenum hi := Nat.div_le_div_right hlt.le
  have hold : ∀ q, t.SpansPage b q ↔ (t b).begin ≤ q * pageSize
      ∧ q < pagenum (t b).end_ := fun q => spans_iff_lt_pagenum
  unfold extendedIndex resizedIndex
  constructor
  · intro hall
    by_contra hcon
    obtain ⟨h1, h2⟩ := not_or.mp hcon
    -- the page of the old end is written, and `b` does not span it
    have hq := hall (pagenum (t b).end_)
    have hno : ¬ Spans (t b).begin hi (pagenum (t b).end_) := fun hs => h1 hs.1
    have hno' : ¬ t.SpansPage b (pagenum (t b).end_) := fun hs => h1 hs.1
    rw [if_pos ⟨le_rfl, by omega⟩, if_neg hno, if_neg hno'] at hq
    exact hno' (h.spansPage_of_pageindex hb hq.symm)
  · intro hcond q
    by_cases hw : pagenum (t b).end_ ≤ q ∧ q < pagenum hi
    · have hbegin : (t b).begin ≤ q * pageSize := by
        have hmono : pagenum (t b).end_ * pageSize ≤ q * pageSize := Nat.mul_le_mul_right _ hw.1
        rcases hcond with hc | hc
        · exact hc.trans hmono
        · omega
      rw [if_pos hw, if_pos (spans_iff_lt_pagenum.mpr ⟨hbegin, hw.2⟩),
        if_neg fun hs => hw.1.not_gt ((hold q).mp hs).2]
    · rw [if_neg hw]
      by_cases hs : Spans (t b).begin hi q
      · obtain ⟨hs1, hs2⟩ := spans_iff_lt_pagenum.mp hs
        rw [if_pos hs, if_pos ((hold q).mpr ⟨hs1, by omega⟩)]
      · rw [if_neg hs, if_neg fun hc => hs (spans_iff_lt_pagenum.mpr
          ⟨((hold q).mp hc).1, ((hold q).mp hc).2.trans_le hle⟩)]

/-- With room above it a record is extended, and the table stays well-formed unless it gets pages that
it does not span. -/
theorem RoomAbove.extendBigalloc (hroom : t.RoomAbove b hi) (h : t.WellFormed) (hb : t.InUse b)
    (hlt : (t b).end_ < hi)
    (hsane : SanePages env (roundDown (t b).end_ pageSize) (roundDown hi pageSize))
    (hpage : (t b).begin ≤ roundDown (t b).end_ pageSize ∨ pagenum hi = pagenum (t b).end_) :
    t.extendBigalloc env b hi = some (t.resize b (t b).begin hi (t.extendedIndex b hi))
      ∧ (t.resize b (t b).begin hi (t.extendedIndex b hi)).WellFormed := by
  have hbb := h.bounds b hb
  refine ⟨(extendBigalloc_iff_resize hb).mpr ⟨hsane, rfl⟩, ?_⟩
  refine (h.resize_iff hb hb.2.2.1 (by omega) ⟨hbb, by omega⟩).mpr ⟨⟨hroom.fitsAt h hb hlt, ?_⟩, ?_⟩
  · intro hup
    exact ⟨(h.aligned b hb hup).1, hroom.aligned hup⟩
  · exact (h.wellNested.extendedIndex_iff hb hlt).mpr hpage

/-- **Extending a bigalloc over free addresses leaves a well-formed table exactly when the number of
new pages is sane and the bigalloc does not begin in the page of its old end, unless it also ends
there.** -/
theorem extendBigalloc_wellFormed_iff (env : Env) (t : Table) (b newEnd : Nat) (h : t.WellFormed)
    (hb : t.InUse b) (hlt : (t.bigAllocations b).end_ < newEnd) (hroom : t.RoomAbove b newEnd) :
    (∃ t', t.extendBigalloc env b newEnd = some t' ∧ t'.WellFormed
        ∧ (t'.bigAllocations b).end_ = newEnd
        ∧ ∀ q, t'.pageindex q = b → t'.SpansPage b q)
      ↔ SanePages env (roundDown (t.bigAllocations b).end_ pageSize) (roundDown newEnd pageSize)
        ∧ ((t.bigAllocations b).begin ≤ roundDown (t.bigAllocations b).end_ pageSize
          ∨ pagenum newEnd = pagenum (t.bigAllocations b).end_) := by
  have hbb := h.bounds b hb
  have hpos : newEnd ≠ 0 := by omega
  have hresize := h.resize_iff (f := t.extendedIndex b newEnd) hb hb.2.2.1 hpos ⟨hbb, by omega⟩
  rw [h.wellNested.extendedIndex_iff hb hlt] at hresize
  constructor
  · rintro ⟨t', hrun, hwf, -, -⟩
    obtain ⟨hsane, rfl⟩ := (extendBigalloc_iff_resize hb).mp hrun
    exact ⟨hsane, (hresize.mp hwf).2⟩
  · rintro ⟨hsane, hcond⟩
    obtain ⟨hrun, hwf⟩ := hroom.extendBigalloc h hb hlt hsane hcond
    refine ⟨_, hrun, hwf, ?_, fun q hq => ?_⟩
    · rw [resize_self]
    · exact hwf.wellNested.spansPage_of_pageindex ((resize_inUse hb hb.2.2.1 hpos).mpr hb) hq

/-! ### A record among four pages -/

/-- A bigalloc with another in it. -/
def sampleNested (ptr size : Nat) : Option (List Nat × Table) :=
  createAll sampleEnv [] {} [sampleOuter,
    { ptr := ptr, size := size, maybeParent := 1, allocatedBy := some .genericMalloc }]

/-- What `sampleNested` makes, read back. -/
structure IsNested (used : List Nat) (t : Table) (lo hi : Nat) : Prop where
  used : used = [2, 1]
  outer : t.InUse 1 ∧ (t.bigAllocations 1).parent = 0 ∧ (t.bigAllocations 1).begin = 4096
    ∧ (t.bigAllocations 1).end_ = 20480
  inner : t.InUse 2 ∧ (t.bigAllocations 2).parent = 1 ∧ (t.bigAllocations 2).begin = lo
    ∧ (t.bigAllocations 2).end_ = hi

instance (used : List Nat) (t : Table) (lo hi : Nat) : Decidable (IsNested used t lo hi) :=
  decidable_of_iff (used = [2, 1]
    ∧ (t.InUse 1 ∧ (t.bigAllocations 1).parent = 0 ∧ (t.bigAllocations 1).begin = 4096
      ∧ (t.bigAllocations 1).end_ = 20480)
    ∧ (t.InUse 2 ∧ (t.bigAllocations 2).parent = 1 ∧ (t.bigAllocations 2).begin = lo
      ∧ (t.bigAllocations 2).end_ = hi))
    ⟨fun h => ⟨h.1, h.2.1, h.2.2⟩, fun h => ⟨h.used, h.outer, h.inner⟩⟩

theorem IsNested.eq_of_inUse {n : Nat} (hn : IsNested used t lo hi)
    (hused : ∀ n, t.InUse n → n ∈ used) (hin : t.InUse n) : n = 2 ∨ n = 1 := by
  have hmem := hused n hin
  rwa [hn.used, List.mem_pair] at hmem

theorem IsNested.roomAbove (hn : IsNested used t lo hi) (hused : ∀ n, t.InUse n → n ∈ used)
    (he : e ≤ 20480) : t.RoomAbove 2 e := by
  obtain ⟨-, h1, -, hout⟩ := hn.outer
  obtain ⟨-, h2, -⟩ := hn.inner
  refine ⟨fun _ => ?_, fun n hin hup hne => ?_, fun hup => ?_⟩
  · show e ≤ (t (t 2).parent).end_
    rw [h2, hout]
    exact he
  · obtain rfl := (hn.eq_of_inUse hused hin).resolve_left hne
    exact absurd (h1.symm.trans (hup.trans h2)) (by decide)
  · exact absurd (h2.symm.trans hup) (by decide)

theorem sampleNested_isNested : ∃ used t, sampleNested 5000 9000 = some (used, t)
    ∧ IsNested used t 5000 14000 := by
  decide +kernel

/-- The record `[5000, 14000)` may end at 18000 instead. -/
theorem extendBigalloc_wellFormed_sample : ∃ used t t', sampleNested 5000 9000 = some (used, t)
    ∧ t.extendBigalloc sampleEnv 2 18000 = some t' ∧ t'.WellFormed
    ∧ (t'.bigAllocations 2).end_ = 18000 := by
  obtain ⟨used, t, ht, hn⟩ := sampleNested_isNested
  obtain ⟨hin, -, hlo, hhi⟩ := hn.inner
  obtain ⟨hwf, -, hused, -⟩ := sample_empty.createAll_wellFormed ht
  obtain ⟨t', hrun, hwf', hend, -⟩ := (extendBigalloc_wellFormed_iff sampleEnv t 2 18000 hwf hin
    (by rw [hhi]; decide) (hn.roomAbove hused (by decide))).mpr (by rw [hlo, hhi]; decide)
  exact ⟨used, t, t', ht, hrun, hwf', hend⟩

/-- The record `[5000, 6000)` is in the second page.  Extended to 9000 it gets that page in the index,
and does not span it. -/
theorem extendBigalloc_takes_page : ∃ used t t', sampleNested 5000 1000 = some (used, t)
    ∧ t.WellFormed ∧ t.InUse 2 ∧ (t.bigAllocations 2).end_ = 6000 ∧ t.RoomAbove 2 9000
    ∧ t.extendBigalloc sampleEnv 2 9000 = some t' ∧ t'.pageindex 1 = 2 ∧ ¬ t'.SpansPage 2 1 := by
  obtain ⟨used, t, ht, hn, t', hrun, hpage, hspan⟩ : ∃ used t, sampleNested 5000 1000 = some (used, t)
      ∧ IsNested used t 5000 6000 ∧ ∃ t', t.extendBigalloc sampleEnv 2 9000 = some t'
        ∧ t'.pageindex 1 = 2 ∧ ¬ t'.SpansPage 2 1 := by
    decide +kernel
  obtain ⟨hwf, -, hused, -⟩ := sample_empty.createAll_wellFormed ht
  exact ⟨used, t, t', ht, hwf, hn.inner.1, hn.inner.2.2.2, hn.roomAbove hused (by decide), hrun,
    hpage, hspan⟩

end Liballocs.Table
