/-
Creating a bigalloc.

`Added t b r p t'`: the record `b`, which was free, has the fields of `r` and the parent `p`, and the
others are as they were up to sibling links.  A new record has no children, so it is the deepest one
on every page it spans.
-/
import Liballocs.Proofs.Lookup

namespace Liballocs.Table

open Forest

variable {t t' : Table} {b m n p q : Nat} {r : BigAllocation}

/-- `t'` is `t` with the free record `b` set to `r` and put under `p`. -/
structure Added (t : Table) (b : Nat) (r : BigAllocation) (p : Nat) (t' : Table) : Prop where
  links : t'.Links 0
  keep : ∀ n, n ≠ b → (t'.bigAllocations n).core = (t.bigAllocations n).core
  new : (t'.bigAllocations b).core = { r with firstChild := 0, nextSib := 0, prevSib := 0, parent := p }
  inUse : t'.InUse b
  childless : ∀ c, t'.up c ≠ b
  rest : t' = { t with bigAllocations := t'.bigAllocations }

/-- The free record `b` was set to `r` and given the parent `p`, whatever the lists. -/
structure Made (t : Table) (b : Nat) (r : BigAllocation) (p : Nat) (t' : Table) : Prop where
  keep : ∀ n, n ≠ b → (t'.bigAllocations n).core = (t.bigAllocations n).core
  new : (t'.bigAllocations b).core = { r with firstChild := 0, nextSib := 0, prevSib := 0, parent := p }
  rest : t' = { t with bigAllocations := t'.bigAllocations }

theorem Added.made (h : t.Added b r p t') : t.Made b r p t' := ⟨h.keep, h.new, h.rest⟩

/-- The range can go into the list of top-level records. -/
def FitsTop (t : Table) (r : BigAllocation) : Prop :=
  ∀ n, t.InUse n → t.up n = 0 →
    ((t.bigAllocations n).begin < r.begin ∧ (t.bigAllocations n).end_ ≤ r.end_)
      ∨ (r.begin < (t.bigAllocations n).begin ∧ r.end_ < (t.bigAllocations n).end_)

/-! ### The record -/

theorem findFreeBigalloc_eq_some (h : t.findFreeBigalloc = some b) :
    0 < b ∧ b < nbigallocs ∧ ¬ t.InUse b := by
  have hfree := List.find?_some h
  have hmem := List.mem_range'_1.mp (List.mem_of_find?_eq_some h)
  refine ⟨by omega, by omega, fun hb => ?_⟩
  simp only [Bool.not_eq_true', Bool.and_eq_false_iff, decide_eq_false_iff_not, not_not] at hfree
  exact hfree.elim hb.2.2.1 hb.2.2.2

theorem findFreeBigalloc_isSome (hlo : 0 < b) (hhi : b < nbigallocs) (hb : ¬ t.InUse b) :
    t.findFreeBigalloc.isSome := by
  refine List.find?_isSome.mpr ⟨b, List.mem_range'_1.mpr (by omega), ?_⟩
  unfold InUse at hb
  simp only [Bool.not_eq_true', Bool.and_eq_false_iff, decide_eq_false_iff_not]
  tauto

theorem Links.bigallocInitNomemset (h : t.Links 0) (hb : ¬ t.InUse b) (hlo : 0 < b)
    (hhi : b < nbigallocs) (h1 : r.begin ≠ 0) (h2 : r.end_ ≠ 0) (hp : p ≠ 0 → t.InUse p)
    (htop : p = 0 → t.Entered 0 ∧ t.FitsTop r) :
    ∃ t', t.bigallocInitNomemset b r p = some t' ∧ t.Added b r p t'
      ∧ ∀ q l, q ≠ 0 → q ≠ b → q ≠ p → t.ChildList q l → t'.ChildList q l := by
  have hplace := h.place hb hlo hhi h1 h2
  have hin : ∀ n, (t.place b r).InUse n ↔ t.InUse n ∨ n = b := fun n => place_inUse hlo hhi h1 h2
  have hbu : (t.place b r).InUse b := (hin b).mpr (.inr rfl)
  have hupb : t.up b = 0 := h.free b hb
  have hno : ∀ c, t.up c ≠ b := fun c hc =>
    hb (h.up_eq_inUse hc hlo.ne').2
  by_cases hp0 : p = 0
  · subst hp0
    have hfit : (t.place b r).Fits b := by
      intro n hn hup hne
      rw [place_of_ne hne]
      rw [place_up] at hup
      have hbr : ((t.place b r) b).begin = r.begin ∧
          ((t.place b r) b).end_ = r.end_ := by simp [place_self]
      rw [hbr.1, hbr.2]
      exact (htop rfl).2 n (((hin n).mp hn).resolve_right hne) hup
    have hent : (t.place b r).Entered b := by
      intro h0
      obtain ⟨hu, hup, -⟩ := (htop rfl).1 h0
      exact ⟨(hin _).mpr (.inl hu), by rw [place_up]; exact hup, fun hc => hb (hc ▸ hu)⟩
    obtain ⟨p', q', heq, hlinks, hlists⟩ := hplace.addToplevel hbu hent hfit
    refine ⟨_, heq, ⟨hlinks, fun n hn => ?_, ?_, hbu, fun c hc => ?_, rfl⟩, fun q l hq hqb _ hl =>
      hlists q l hq (hl.place h hb hlo hhi h1 h2 hq hqb)⟩
    · simp [insertedTop, relinked, BigAllocation.core, place_of_ne hn, up]
    · simp [insertedTop, relinked, BigAllocation.core, place_self, hupb]
    · simp only [insertedTop, relinked_up, place_up] at hc
      exact hno c hc
  · have hpu : t.InUse p := hp hp0
    have hbp : b ≠ p := fun hc => hb (hc ▸ hpu)
    have hacyc : ¬ Below (t.place b r).up p b := by
      rw [place_up]
      exact fun hc => hb (h.inUse_of_below hpu hc hlo.ne')
    have hprev : (t.place b r).prev b = 0 := by simp [prev, place_self]
    have hlinks := hplace.addChild hbu ((hin p).mpr (.inl hpu)) hprev hacyc
    refine ⟨(t.place b r).addChild b p, if_pos hp0,
      ⟨hlinks, fun n hn => ?_, ?_, ?_, fun c hc => ?_, ?_⟩, fun q l hq hqb hqp hl =>
        (hl.place h hb hlo hhi h1 h2 hq hqb).addChild hplace ((hin p).mpr (.inl hpu)) hbp hq hqp⟩
    · simp [addChild_eq hbp, relinked, BigAllocation.core, place_of_ne hn, up, hn]
    · simp [addChild_eq hbp, relinked, BigAllocation.core, place_self]
    · rw [addChild_eq hbp]
      exact hbu
    · simp only [addChild_eq hbp, relinked_up, place_up] at hc
      split at hc
      · exact hbp hc.symm
      · exact hno c hc
    · rw [addChild_eq hbp]
      rfl

namespace Made

section

variable (h : t.Made b r p t')

include h

theorem begin_eq : (t' b).begin = r.begin :=
  (congrArg (·.begin) h.new :)

theorem end_eq : (t' b).end_ = r.end_ := (congrArg (·.end_) h.new :)

theorem up_eq : t'.up b = p := (congrArg (·.parent) h.new :)

theorem old (hn : n ≠ b) :
    (t' n).begin = (t n).begin ∧ (t' n).end_ = (t n).end_ ∧ t'.up n = t.up n := by
  obtain ⟨h1, h2⟩ := bounds_congr (h.keep n hn)
  exact ⟨h1, h2, up_congr (h.keep n hn)⟩

end

end Made

namespace Added

section

variable (h : t.Added b r p t')
include h

theorem begin_eq : (t' b).begin = r.begin := h.made.begin_eq

theorem end_eq : (t' b).end_ = r.end_ := h.made.end_eq

theorem up_eq : t'.up b = p := h.made.up_eq

theorem inUse_iff : t'.InUse n ↔ t.InUse n ∨ n = b := by
  by_cases hn : n = b
  · simp [hn, h.inUse]
  · simp [hn, inUse_congr (h.keep n hn)]

theorem old (hn : n ≠ b) :
    (t' n).begin = (t n).begin ∧ (t' n).end_ = (t n).end_ ∧ t'.up n = t.up n := h.made.old hn

theorem below_iff (hn : n ≠ b) : Below t'.up n m ↔ Below t.up n m := by
  refine (below_congr (P := (· ≠ b)) (fun x hx => ⟨(h.old hx).2.2.symm, ?_⟩) hn).symm
  exact h.childless x

end

end Added

/-! ### Its place among the others -/

/-- The new record lies in its parent. -/
def RangeInside (t : Table) (r : BigAllocation) (p : Nat) : Prop :=
  (t.bigAllocations p).begin ≤ r.begin ∧ r.end_ ≤ (t.bigAllocations p).end_

/-- The new record does not overlap another. -/
def RangeApart (t : Table) (r : BigAllocation) (n : Nat) : Prop :=
  (t.bigAllocations n).end_ ≤ r.begin ∨ r.end_ ≤ (t.bigAllocations n).begin

/-- The range may go under `p`: inside it, apart from its records, at the top in whole pages. -/
structure Placed (t : Table) (r : BigAllocation) (p : Nat) : Prop where
  bounds : r.begin < r.end_
  inside : p ≠ 0 → t.InUse p ∧ t.RangeInside r p
  apart : ∀ n, t.InUse n → t.up n = p → t.RangeApart r n
  aligned : p = 0 → PageAligned r.begin ∧ PageAligned r.end_

theorem Added.fitted (h : t.Added b r p t') (hb : ¬ t.InUse b) (hf : t.Fitted)
    (hr : t.Placed r p) : t'.Fitted := by
  have hsplit : ∀ {n}, t'.InUse n → n ≠ b → t.InUse n := fun hn hne =>
    (h.inUse_iff.mp hn).resolve_right hne
  have hup : ∀ {n}, n ≠ b → t'.up n = t.up n := fun hne => (h.old hne).2.2
  have happart : ∀ n, t'.InUse n → t'.up n = p → n ≠ b → t.RangeApart r n :=
    fun n hn hnp hne => hr.apart n (hsplit hn hne) ((hup hne).symm.trans hnp)
  refine ⟨fun n hn => ?_, fun n hn hn0 => ?_, fun m n hm hn heq hne => ?_, fun n hn hn0 => ?_⟩
  · by_cases hne : n = b
    · subst hne
      rw [h.begin_eq, h.end_eq]
      exact hr.bounds
    · obtain ⟨h1, h2, -⟩ := h.old hne
      rw [h1, h2]
      exact hf.bounds n (hsplit hn hne)
  · by_cases hne : n = b
    · subst hne
      rw [h.up_eq] at hn0
      obtain ⟨hpu, hin⟩ := hr.inside hn0
      obtain ⟨h1, h2, -⟩ := h.old (n := p) fun hc => hb (hc ▸ hpu)
      simp only [Inside, h.up_eq, h.begin_eq, h.end_eq, h1, h2]
      exact hin
    · obtain ⟨h1, h2, h3⟩ := h.old hne
      rw [h3] at hn0
      obtain ⟨h1', h2', -⟩ := h.old (n := t.up n) fun hc => h.childless n (h3.trans hc)
      simp only [Inside, h1, h2, h3, h1', h2']
      exact hf.inside n (hsplit hn hne) hn0
  · by_cases hmb : m = b
    · subst hmb
      have hnm : n ≠ m := fun hc => hne hc.symm
      obtain ⟨h1, h2, -⟩ := h.old hnm
      simp only [Apart, h.begin_eq, h.end_eq, h1, h2]
      exact (happart n hn (heq.symm.trans h.up_eq) hnm).symm
    · by_cases hnb : n = b
      · subst hnb
        obtain ⟨h1, h2, -⟩ := h.old hmb
        simp only [Apart, h.begin_eq, h.end_eq, h1, h2]
        exact happart m hm (heq.trans h.up_eq) hmb
      · obtain ⟨h1, h2, h3⟩ := h.old hmb
        obtain ⟨h1', h2', h3'⟩ := h.old hnb
        simp only [Apart, h1, h2, h1', h2']
        exact hf.apart m n (hsplit hm hmb) (hsplit hn hnb) (h3.symm.trans (heq.trans h3')) hne
  · by_cases hne : n = b
    · subst hne
      rw [h.begin_eq, h.end_eq]
      exact hr.aligned (h.up_eq.symm.trans hn0)
    · obtain ⟨h1, h2, h3⟩ := h.old hne
      rw [h1, h2]
      exact hf.aligned n (hsplit hn hne) (h3.symm.trans hn0)

theorem Placed.fitsTop (h : t.Placed r 0) (hf : t.Fitted) : t.FitsTop r := by
  intro n hn hup
  have hb := hf.bounds n hn
  have hr := h.bounds
  rcases h.apart n hn hup with ha | ha <;> omega

theorem WellFormed.added {t1 : Table} (h : t.WellFormed) (hb : ¬ t.InUse b)
    (hadd : t.Added b r p t1) (hr : t.Placed r p) :
    (t1.setPages (pagenum (roundUp r.begin pageSize)) (pagenum (roundDown r.end_ pageSize)) b).WellFormed
    := by
  have hfit := hadd.fitted hb h.toFitted hr
  set t' := t1.setPages (pagenum (roundUp r.begin pageSize)) (pagenum (roundDown r.end_ pageSize)) b
  have hlinks : t'.Links 0 := hadd.links.of_eq rfl rfl
  have hfit' : t'.Fitted := ⟨hfit.bounds, hfit.inside, hfit.apart, hfit.aligned⟩
  have hpage : ∀ q, t'.pageindex q = if Spans r.begin r.end_ q then b else t.pageindex q := by
    intro q
    have hpi : t1.pageindex = t.pageindex := by rw [hadd.rest]
    rw [← hpi]
    exact setPages_pageindex_spans t1 _ _ b q
  have hspanb : ∀ q, t'.SpansPage b q ↔ Spans r.begin r.end_ q := by
    intro q
    show Spans (t1 b).begin (t1 b).end_ q ↔ _
    rw [hadd.begin_eq, hadd.end_eq]
  have hlam := hfit'.laminar_pages hlinks
  have hent : t'.Entered 0 := by
    intro h0
    have hs : t'.start = t.start := by
      show t1.start = t.start
      rw [hadd.rest]
    rw [hs] at h0 ⊢
    obtain ⟨hu, hup, -⟩ := h.entered h0
    have hne : t.start ≠ b := fun hc => hb (hc ▸ hu)
    exact ⟨hadd.inUse_iff.mpr (.inl hu), (hadd.old hne).2.2.trans hup, h0⟩
  refine ⟨hfit', hlinks, hent, fun q => ?_⟩
  by_cases hq : Spans r.begin r.end_ q
  · rw [hpage q, if_pos hq]
    exact hlam.deepest_of_no_child (n := b) hadd.inUse ((hspanb q).mpr hq) fun c _ hup =>
      absurd hup (hadd.childless c)
  · rw [hpage q, if_neg hq]
    refine hlam.deepest_iff.mpr ?_
    have hne : ∀ {m}, t'.SpansPage m q → m ≠ b := fun hm hc => hq ((hspanb q).mp (hc ▸ hm))
    have hold : ∀ {m}, t'.InUse m → t'.SpansPage m q → t.InUse m ∧ t.SpansPage m q := fun hm hmq =>
      ⟨(hadd.inUse_iff.mp hm).resolve_right (hne hmq),
        (spansPage_congr (hadd.keep _ (hne hmq))).mp hmq⟩
    rcases h.canonical_iff q with ⟨h0, hno⟩ | ⟨hu, hs, hbelow⟩
    · exact .inl ⟨h0, fun m hm hmq => hno m (hold hm hmq).1 (hold hm hmq).2⟩
    · have hqb : t.pageindex q ≠ b := fun hc => hb (hc ▸ hu)
      refine .inr ⟨hadd.inUse_iff.mpr (.inl hu), ?_, fun m hm hmq => ?_⟩
      · exact (spansPage_congr (hadd.keep _ hqb)).mpr hs
      · exact (hadd.below_iff hqb).mpr (hbelow m (hold hm hmq).1 (hold hm hmq).2)

end Liballocs.Table
