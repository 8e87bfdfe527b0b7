/-
Trees cut away from a range of pages.

`Trimmed t a c t'`: top-level records inside the range from `a` up to `c` are gone with all below them,
those that reach into it have lost that part, and no page of it is indexed.  Records below one that
stays are as they were.  Unmapping goes through such tables.
-/
import Liballocs.Proofs.Bounds

namespace Liballocs

open Forest

/-- What is left of a range that is not inside `[a, c)`, and has no hole there. -/
def BigAllocation.trim (a c : Nat) (r : BigAllocation) : BigAllocation :=
  { r with
    begin := if a ≤ r.begin ∧ r.begin < c then c else r.begin
    end_ := if a < r.end_ ∧ r.end_ ≤ c then a else r.end_ }

theorem BigAllocation.trim_congr {a c c' : Nat} {r : BigAllocation}
    (h1 : ¬ (a ≤ r.begin ∧ r.begin < c)) (h2 : ¬ (a ≤ r.begin ∧ r.begin < c'))
    (h3 : (a < r.end_ ∧ r.end_ ≤ c) ↔ (a < r.end_ ∧ r.end_ ≤ c')) : r.trim a c = r.trim a c' := by
  simp [trim, if_neg h1, if_neg h2, h3]

theorem BigAllocation.trim_eq_self {a c : Nat} {r : BigAllocation}
    (h1 : ¬ (a ≤ r.begin ∧ r.begin < c)) (h2 : ¬ (a < r.end_ ∧ r.end_ ≤ c)) : r.trim a c = r := by
  simp [trim, if_neg h1, if_neg h2]

namespace Table

variable {t t₁ t₂ : Table} {a b c m n p q r : Nat}

/-- A top-level record. -/
def Top (t : Table) (n : Nat) : Prop := t.InUse n ∧ t.up n = 0

/-- The records under a top-level record that lies inside `[a, c)`. -/
def inRange (t : Table) (a c : Nat) : Set Nat :=
  { n | ∃ r, t.Top r ∧ a ≤ (t.bigAllocations r).begin ∧ (t.bigAllocations r).end_ ≤ c
    ∧ Below t.up n r }

/-- `t'` is `t` without the range from `a` up to `c`. -/
structure Trimmed (t : Table) (a c : Nat) (t' : Table) : Prop where
  links : t'.Links 0
  gone : ∀ n ∈ t.inRange a c, ¬ t'.InUse n
  inner : ∀ n, n ∉ t.inRange a c → ¬ t.Top n →
    (t'.bigAllocations n).core = (t.bigAllocations n).core
  outer : ∀ n, n ∉ t.inRange a c → t.Top n →
    (t'.bigAllocations n).core = ((t.bigAllocations n).trim a c).core
  pages : ∀ q, t'.pageindex q
    = if a ≤ q * pageSize ∧ q * pageSize < c then 0 else t.pageindex q
  statics : t.SameStatics t'

/-- No top-level record reaches across `c`. -/
def Cut (t : Table) (c : Nat) : Prop :=
  ∀ r, t.Top r → (t.bigAllocations r).begin < c → (t.bigAllocations r).end_ ≤ c

/-! ### Roots -/

theorem Top.below_iff (h : t.Links 0) (hr : t.Top r) : Below t.up r n ↔ n = r ∨ n = 0 := by
  rw [Forest.below_iff, hr.2]
  constructor
  · rintro (rfl | hb)
    · exact .inl rfl
    · exact .inr (eq_null_of_below h.up_zero hb)
  · rintro (rfl | rfl)
    · exact .inl rfl
    · exact .inr (Below.refl t.up 0)

theorem Top.unique (h : t.Links 0) (hr : t.Top r) (hm : t.Top m) (hnr : Below t.up n r)
    (hnm : Below t.up n m) : r = m := by
  rcases hnr.total hnm with hb | hb
  · exact (((hr.below_iff h).mp hb).resolve_right hm.1.ne_zero).symm
  · exact ((hm.below_iff h).mp hb).resolve_right hr.1.ne_zero

theorem inRange_closed (hn : n ∉ t.inRange a c) : t.up n ∉ t.inRange a c :=
  fun ⟨r, hr, h1, h2, hb⟩ => hn ⟨r, hr, h1, h2, hb.step⟩

theorem Top.mem_inRange_iff (h : t.Links 0) (hr : t.Top r) : r ∈ t.inRange a c ↔
    a ≤ (t r).begin ∧ (t r).end_ ≤ c := by
  constructor
  · rintro ⟨m, hm, h1, h2, hb⟩
    obtain rfl := ((hr.below_iff h).mp hb).resolve_right hm.1.ne_zero
    exact ⟨h1, h2⟩
  · rintro ⟨h1, h2⟩
    exact ⟨r, hr, h1, h2, Below.refl t.up r⟩

theorem WellFormed.apart_top (h : t.WellFormed) (hm : t.Top m) (hn : t.Top n) (hne : m ≠ n) :
    t.Apart m n := h.apart m n hm.1 hn.1 (hm.2.trans hn.2.symm) hne

theorem WellFormed.cut_of_unindexed (h : t.WellFormed) (h0 : t.pageindex (pagenum c) = 0)
    (hr : t.Top r) : c ∉ t.addrs r := fun hc => h.pageindex_ne_zero hr.1 hc h0

/-- An indexed page is a top-level record's. -/
theorem WellFormed.exists_top (h : t.WellFormed) (h0 : t.pageindex (pagenum c) ≠ 0) :
    ∃ r, t.Top r ∧ c ∈ t.addrs r ∧ t.InUse (t.pageindex (pagenum c))
      ∧ Below t.up (t.pageindex (pagenum c)) r := by
  obtain ⟨hu, hc⟩ := h.mem_addrs_pageindex h0
  obtain ⟨r, hr, hup, hbelow⟩ := h.links.exists_root hu
  exact ⟨r, ⟨hr, hup⟩, h.laminar_addrs.subset_of_below hu hbelow hr.ne_zero hc, hu, hbelow⟩

/-- A top-level record has whole pages, so it is on one side of an unindexed page. -/
theorem WellFormed.beside_unindexed (h : t.WellFormed) (hc : PageAligned c)
    (h0 : t.pageindex (pagenum c) = 0) (hr : t.Top r) :
    (t r).end_ ≤ c ∨ c + pageSize ≤ (t r).begin := by
  have hnot := h.cut_of_unindexed h0 hr
  have hnext := hc.add_pageSize_le (h.aligned r hr.1 hr.2).1
  simp only [addrs, Set.mem_ofPred_eq, not_and, not_lt] at hnot
  omega

/-! ### What is left -/

namespace Trimmed

section

variable (ht : t.Trimmed a c t₁) (hn : n ∉ t.inRange a c)
include ht hn

theorem begin_eq (htop : t.Top n) : (t₁ n).begin = ((t n).trim a c).begin :=
  (congrArg (·.begin) (ht.outer n hn htop) :)

theorem end_eq (htop : t.Top n) : (t₁ n).end_ = ((t n).trim a c).end_ :=
  (congrArg (·.end_) (ht.outer n hn htop) :)

theorem up_eq : t₁.up n = t.up n := by
  by_cases htop : t.Top n
  · exact (congrArg (·.parent) (ht.outer n hn htop) :)
  · exact up_congr (ht.inner n hn htop)

end

section

variable (h : t.WellFormed) (ht : t.Trimmed a c t₁)
include h ht

theorem bounds (hn : n ∉ t.inRange a c) (htop : t.Top n) :
    (t n).begin ≤ (t₁ n).begin ∧ (t₁ n).begin < (t₁ n).end_ ∧ (t₁ n).end_ ≤ (t n).end_
      ∧ (t₁ n).begin ≠ 0 := by
  have hlt := h.bounds n htop.1
  have h0 := htop.1.2.2.1
  rw [htop.mem_inRange_iff h.links] at hn
  rw [ht.begin_eq (by rwa [htop.mem_inRange_iff h.links]) htop,
    ht.end_eq (by rwa [htop.mem_inRange_iff h.links]) htop]
  simp only [BigAllocation.trim]
  split_ifs <;> omega

theorem inUse_iff : t₁.InUse n ↔ t.InUse n ∧ n ∉ t.inRange a c := by
  by_cases hn : n ∈ t.inRange a c
  · simp [ht.gone n hn, hn]
  · by_cases htop : t.Top n
    · obtain ⟨h1, h2, h3, h4⟩ := ht.bounds h hn htop
      simp only [hn, not_false_eq_true, and_true]
      refine ⟨fun _ => htop.1, fun hu => ⟨hu.1, hu.2.1, h4, by omega⟩⟩
    · simp [inUse_congr (ht.inner n hn htop), hn]

theorem top_iff : t₁.Top n ↔ t.Top n ∧ n ∉ t.inRange a c := by
  unfold Top
  rw [ht.inUse_iff h]
  by_cases hn : n ∈ t.inRange a c
  · simp [hn]
  · simp [ht.up_eq hn, hn]

theorem apart (hm : t₁.Top m) (hn : t₁.Top n) (hne : m ≠ n) : t₁.Apart m n := by
  obtain ⟨hm, hms⟩ := (ht.top_iff h).mp hm
  obtain ⟨hn, hns⟩ := (ht.top_iff h).mp hn
  have h1 := ht.bounds h hms hm
  have h2 := ht.bounds h hns hn
  rcases h.apart_top hm hn hne with h3 | h3
  · exact .inl (by omega)
  · exact .inr (by omega)

end

theorem below_iff (ht : t.Trimmed a c t₁) (hn : n ∉ t.inRange a c) :
    Below t₁.up n p ↔ Below t.up n p :=
  below_congr (P := (· ∉ t.inRange a c)) (fun _ hx => ⟨ht.up_eq hx, inRange_closed hx⟩) hn

theorem refl (h : t.WellFormed) (a : Nat) : t.Trimmed a a t := by
  have hempty : ∀ n, n ∉ t.inRange a a := by
    rintro n ⟨r, hr, h1, h2, -⟩
    have := h.bounds r hr.1
    omega
  refine ⟨h.links, fun n hn => absurd hn (hempty n), fun _ _ _ => rfl, fun n _ _ => ?_,
    fun q => (if_neg (by omega)).symm, rfl⟩
  rw [BigAllocation.trim_eq_self] <;> omega

theorem skip (h : t.WellFormed) (ht : t.Trimmed a c t₁) (hc : PageAligned c)
    (h0 : t.pageindex (pagenum c) = 0) : t.Trimmed a (c + pageSize) t₁ := by
  have hout := fun r (hr : t.Top r) => h.beside_unindexed hc h0 hr
  have hset : t.inRange a (c + pageSize) = t.inRange a c := by
    ext n
    constructor
    · rintro ⟨r, hr, h1, h2, hb⟩
      have := h.bounds r hr.1
      rcases hout r hr with h3 | h3
      · exact ⟨r, hr, h1, h3, hb⟩
      · omega
    · rintro ⟨r, hr, h1, h2, hb⟩
      exact ⟨r, hr, h1, by omega, hb⟩
  refine ⟨ht.links, hset ▸ ht.gone, hset ▸ ht.inner, fun n hn htop => ?_, fun q => ?_, ht.statics⟩
  · rw [hset] at hn
    rw [ht.outer n hn htop]
    have hlt := h.bounds n htop.1
    rw [htop.mem_inRange_iff h.links] at hn
    refine congrArg BigAllocation.core (BigAllocation.trim_congr ?_ ?_ ?_) <;>
      rcases hout n htop with h3 | h3 <;> omega
  · rw [ht.pages q]
    by_cases hq : q = pagenum c
    · subst hq
      rw [h0, ite_self, ite_self]
    · have hq' : ¬ (c ≤ q * pageSize ∧ q * pageSize < c + pageSize) := by
        intro hc'
        refine hq (pagenum_eq_iff.mpr ?_).symm
        obtain ⟨k, hk⟩ := hc
        simp only [pageSize] at hc' hk ⊢
        omega
      exact if_congr (by omega) rfl rfl

theorem of_eq (ht : t.Trimmed a c t₁) (hb : t₂.bigAllocations = t₁.bigAllocations)
    (hp : t₂.pageindex = t₁.pageindex) (hs : t₁.SameStatics t₂) : t.Trimmed a c t₂ := by
  have hstart : t₂.start = t₁.start := by rw [hs]
  refine ⟨ht.links.of_eq hb hstart, fun n hn => ?_, ?_, ?_, ?_, ht.statics.trans hs⟩
  · rw [inUse_congr (t := t₁) (by rw [hb])]
    exact ht.gone n hn
  · rw [hb]
    exact ht.inner
  · rw [hb]
    exact ht.outer
  · rw [hp]
    exact ht.pages

section

variable (h : t.WellFormed)

include h

/-- A record that ends in the range, first touched by it, loses its tail. -/
theorem tail (ha : PageAligned a) (hb : t.Top b)
    (h1 : (t b).begin < a) (h2 : a < (t b).end_) :
    t.Trimmed a (t b).end_ ((t.setBounds b (t b).begin a).setPages (pagenum a)
        (pagenum (t b).end_) 0) := by
  have hpos := hb.1.2.2.1
  have hempty : ∀ n, n ∉ t.inRange a (t b).end_ := by
    rintro n ⟨r, hr, h3, h4, -⟩
    have hlt := h.bounds r hr.1
    have hrb : r ≠ b := by
      rintro rfl
      omega
    rcases h.apart_top hr hb hrb with h5 | h5 <;> omega
  have hlinks := h.links.shrink hb.1 hpos le_rfl h1 h2.le
    fun n hn hup hne => h.apart_top ⟨hn, hup⟩ hb hne
  refine ⟨hlinks.of_eq rfl rfl, fun n hn => absurd hn (hempty n), fun n _ htop => ?_,
    fun n _ htop => ?_, fun q => ?_, rfl⟩
  · have hne : n ≠ b := by
      rintro rfl
      exact htop hb
    show ((t.setBounds b _ a) n).core = _
    rw [setBounds_of_ne hne]
  · show ((t.setBounds b _ a) n).core = _
    by_cases hne : n = b
    · subst hne
      rw [setBounds_self, BigAllocation.trim, if_neg (by omega), if_pos (by omega)]
    · rw [setBounds_of_ne hne]
      have hlt := h.bounds n htop.1
      have hap := h.apart_top htop hb hne
      rw [BigAllocation.trim_eq_self] <;> rcases hap with h3 | h3 <;> omega
  · exact setPages_pageindex_aligned _ 0 ha (h.aligned b hb.1 hb.2).2

theorem core_at (ht : t.Trimmed a c t₁) (hb : t.Top b) (hbegin : (t b).begin = c) :
    b ∉ t.inRange a c ∧ t₁.Top b ∧ (t₁ b).core = (t b).core := by
  have hlt := h.bounds b hb.1
  have hbs : b ∉ t.inRange a c := by
    rw [hb.mem_inRange_iff h.links]
    omega
  refine ⟨hbs, (ht.top_iff h).mpr ⟨hb, hbs⟩, ?_⟩
  rw [ht.outer b hbs hb, BigAllocation.trim_eq_self] <;> omega

variable (hac : a ≤ c) (hcut : c = a ∨ t.Cut c) (hb : t.Top b) (hbegin : (t b).begin = c)

include hac hcut hb hbegin

/-- A record that stays is not cut where the range goes on over part of another. -/
theorem trim_other {e : Nat} (hce : c < e) (he : e ≤ (t b).end_) (hn : n ∉ t.inRange a c)
    (htop : t.Top n) (hne : n ≠ b) : ((t n).trim a c).core = ((t n).trim a e).core := by
  have hlt := h.bounds n htop.1
  have hap := h.apart_top htop hb hne
  have hleft : ¬ (a ≤ (t n).begin ∧ (t n).begin < c) := by
    rintro ⟨h3, h4⟩
    rcases hcut with rfl | hcut
    · omega
    · exact hn ((htop.mem_inRange_iff h.links).mpr ⟨h3, hcut n htop h4⟩)
  refine congrArg BigAllocation.core (BigAllocation.trim_congr hleft ?_ ?_) <;>
    rcases hap with h3 | h3 <;> omega

/-- A record where the range ends so far is deleted, and the range goes on where the record ended. -/
theorem whole (ht : t.Trimmed a c t₁) (hr : t₁.Removed { n | Below t₁.up n b } t₂)
    (hpages : ∀ q, t₂.pageindex q = if t₁.SpansPage b q then t₁.up b else t₁.pageindex q) :
    t.Trimmed a (t b).end_ t₂ := by
  have hlt := h.bounds b hb.1
  obtain ⟨hbs, -, hcore⟩ := ht.core_at h hb hbegin
  have hset : t.inRange a (t b).end_ = t.inRange a c ∪ { n | Below t.up n b } := by
    ext n
    constructor
    · rintro ⟨r, hr, h1, h2, hn⟩
      by_cases hrb : r = b
      · exact .inr (hrb ▸ hn)
      · have := h.bounds r hr.1
        rcases h.apart_top hr hb hrb with h3 | h3
        · exact .inl ⟨r, hr, h1, by omega, hn⟩
        · omega
    · rintro (⟨r, hr, h1, h2, hn⟩ | hn)
      · exact ⟨r, hr, h1, by omega, hn⟩
      · exact ⟨b, hb, by omega, le_rfl, hn⟩
  have hstay : ∀ n, n ∉ t.inRange a (t b).end_ →
      n ∉ t.inRange a c ∧ n ∉ { n | Below t₁.up n b } := by
    intro n hn
    rw [hset] at hn
    have h1 := fun hc => hn (.inl hc)
    refine ⟨h1, fun hc => hn (.inr ?_)⟩
    exact (ht.below_iff h1).mp hc
  refine ⟨hr.links, fun n hn => ?_, fun n hn htop => ?_, fun n hn htop => ?_, fun q => ?_,
    ht.statics.trans hr.statics⟩
  · by_cases hns : n ∈ t.inRange a c
    · exact fun hc => ht.gone n hns (hr.inUse_iff.mp hc).1
    · rw [hset] at hn
      exact hr.gone n ((ht.below_iff hns).mpr (hn.resolve_left hns))
  · obtain ⟨h1, h2⟩ := hstay n hn
    rw [hr.keep n h2, ht.inner n h1 htop]
  · obtain ⟨h1, h2⟩ := hstay n hn
    rw [hr.keep n h2, ht.outer n h1 htop]
    have hnb : n ≠ b := by
      rintro rfl
      exact h2 (Below.refl t₁.up n)
    exact trim_other h hac hcut hb hbegin (hbegin ▸ hlt) le_rfl h1 htop hnb
  · have hup : t₁.up b = 0 := (ht.up_eq hbs).trans hb.2
    rw [hpages q, hup, ht.pages q]
    simp only [spansPage_congr hcore]
    have hspan : t.SpansPage b q ↔ c ≤ q * pageSize ∧ q * pageSize < (t b).end_ := by
      obtain ⟨k, hk⟩ := (h.aligned b hb.1 hb.2).2
      simp only [SpansPage, Spans, pageSize] at hk ⊢
      omega
    simp only [hspan]
    split_ifs <;> first | rfl | omega

/-- A record that begins where the range ends so far, and ends behind, loses its head. -/
theorem head {e : Nat} (ht : t.Trimmed a c t₁) (hce : c < e) (he : e < (t b).end_)
    (hae : PageAligned e) :
    t.Trimmed a e ((t₁.setBounds b e (t₁ b).end_).setPages (pagenum c) (pagenum e) 0) := by
  obtain ⟨hbs, hb1, hcore⟩ := ht.core_at h hb hbegin
  obtain ⟨h1, h2⟩ := bounds_congr hcore
  rw [hbegin] at h1
  have hset : t.inRange a e = t.inRange a c := by
    ext n
    constructor
    · rintro ⟨r, hr, h3, h4, hn⟩
      have hlt := h.bounds r hr.1
      have hrb : r ≠ b := by
        rintro rfl
        omega
      refine ⟨r, hr, h3, ?_, hn⟩
      rcases h.apart_top hr hb hrb with h5 | h5 <;> omega
    · rintro ⟨r, hr, h3, h4, hn⟩
      exact ⟨r, hr, h3, by omega, hn⟩
  have hlinks : (t₁.setBounds b e (t₁ b).end_).Links 0 := by
    exact ht.links.shrink hb1.1 (by omega) (by omega) (by omega) le_rfl
      fun n hn hup hne => ht.apart h ⟨hn, hup⟩ hb1 hne
  refine ⟨hlinks.of_eq rfl rfl, fun n hn => ?_, fun n hn htop => ?_, fun n hn htop => ?_,
    fun q => ?_, ht.statics.trans rfl⟩
  · rw [hset] at hn
    show ¬ (t₁.setBounds b e _).InUse n
    rw [setBounds_inUse hb1.1 (by omega) (by omega)]
    exact ht.gone n hn
  · rw [hset] at hn
    have hne : n ≠ b := by
      rintro rfl
      exact htop hb
    show ((t₁.setBounds b e _) n).core = _
    rw [setBounds_of_ne hne, ht.inner n hn htop]
  · rw [hset] at hn
    show ((t₁.setBounds b e _) n).core = _
    by_cases hne : n = b
    · subst hne
      rw [setBounds_self, BigAllocation.trim, if_pos (by omega), if_neg (by omega), h2]
      have := congrArg (fun r : BigAllocation =>
        { r with begin := e, end_ := (t n).end_ }) hcore
      exact this
    · rw [setBounds_of_ne hne, ht.outer n hn htop]
      exact trim_other h hac hcut hb hbegin hce he.le hn htop hne
  · rw [setPages_pageindex_aligned _ 0 (hbegin ▸ (h.aligned b hb.1 hb.2).1) hae]
    show (if _ then _ else t₁.pageindex q) = _
    rw [ht.pages q]
    split_ifs <;> first | rfl | omega

end

end Trimmed

end Table

end Liballocs
