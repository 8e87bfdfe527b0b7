/-
Well-formed bigalloc tables.

The records in use form a forest, each inside its parent and apart from its siblings; top-level ones
are whole pages; and each page is indexed by the deepest record that spans it, which is where a search
begins and not where it ends.  Addresses and pages make a laminar family each.
-/
import Liballocs.Proofs.Delete

namespace Liballocs.Table

open Forest

variable {t t' : Table} {a b m n p q : Nat} {s : Set Nat}

/-- The addresses of a record. -/
def addrs (t : Table) (n : Nat) : Set Nat :=
  { a | (t.bigAllocations n).begin ≤ a ∧ a < (t.bigAllocations n).end_ }

/-- The pages that a record spans. -/
def pages (t : Table) (n : Nat) : Set Nat := { q | t.SpansPage n q }

/-- Two records do not overlap. -/
def Apart (t : Table) (m n : Nat) : Prop :=
  (t.bigAllocations m).end_ ≤ (t.bigAllocations n).begin
    ∨ (t.bigAllocations n).end_ ≤ (t.bigAllocations m).begin

/-- `n` is the deepest record in use with the property `P`, or null if there is none. -/
def DeepestSuchThat (t : Table) (P : Nat → Prop) (n : Nat) : Prop := Deepest t.InUse t.up 0 P n

/-- The records in use lie inside their parents and apart from their siblings. -/
structure Fitted (t : Table) : Prop where
  bounds : ∀ n, t.InUse n → (t.bigAllocations n).begin < (t.bigAllocations n).end_
  inside : ∀ n, t.InUse n → t.up n ≠ 0 → t.Inside n
  apart : ∀ m n, t.InUse m → t.InUse n → t.up m = t.up n → m ≠ n → t.Apart m n
  aligned : ∀ n, t.InUse n → t.up n = 0 →
    PageAligned (t.bigAllocations n).begin ∧ PageAligned (t.bigAllocations n).end_

/-- Each page is indexed by the deepest record in use that spans it. -/
def Canonical (t : Table) : Prop := ∀ q, t.DeepestSuchThat (t.SpansPage · q) (t.pageindex q)

/-- The invariant of the table: its records are fitted into each other, their links make up a
forest, and the page index leads to the deepest record that spans each page. -/
structure WellFormed (t : Table) : Prop extends Fitted t where
  links : t.Links 0
  entered : t.Entered 0
  canonical : t.Canonical

/-- What a fit says without the alignment of the top-level records. -/
structure Tiled (t : Table) : Prop where
  bounds : ∀ n, t.InUse n → (t.bigAllocations n).begin < (t.bigAllocations n).end_
  inside : ∀ n, t.InUse n → t.up n ≠ 0 → t.Inside n
  apart : ∀ m n, t.InUse m → t.InUse n → t.up m = t.up n → m ≠ n → t.Apart m n

/-- A table that is well formed but for the alignment of its top-level records. -/
structure WellNested (t : Table) : Prop extends Tiled t where
  links : t.Links 0
  entered : t.Entered 0
  canonical : t.Canonical

theorem Fitted.tiled (h : t.Fitted) : t.Tiled := ⟨h.bounds, h.inside, h.apart⟩

theorem WellFormed.wellNested (h : t.WellFormed) : t.WellNested :=
  ⟨h.toFitted.tiled, h.links, h.entered, h.canonical⟩

theorem Tiled.inside_of_up {p : Nat} (h : t.Tiled) (hn : t.InUse n) (hp : p ≠ 0) (hup : t.up n = p) :
    (t p).begin ≤ (t n).begin ∧ (t n).end_ ≤ (t p).end_ := by
  subst hup
  exact h.inside n hn hp

theorem wellFormed_iff : t.WellFormed ↔ t.WellNested ∧ ∀ n, t.InUse n → t.up n = 0 →
    PageAligned (t n).begin ∧ PageAligned (t n).end_ := by
  constructor
  · intro h
    exact ⟨h.wellNested, h.aligned⟩
  · intro h
    exact ⟨⟨h.1.bounds, h.1.inside, h.1.apart, h.2⟩, h.1.links, h.1.entered, h.1.canonical⟩

/-! ### Two laminar families -/

theorem Apart.disjoint_addrs (h : t.Apart m n) : Disjoint (t.addrs m) (t.addrs n) := by
  refine Set.disjoint_left.mpr fun a ha hb => ?_
  obtain ⟨a1, a2⟩ := ha
  obtain ⟨b1, b2⟩ := hb
  rcases h with h | h <;> omega

theorem Apart.disjoint_pages (h : t.Apart m n) : Disjoint (t.pages m) (t.pages n) := by
  refine Set.disjoint_left.mpr fun q ha hb => ?_
  obtain ⟨a1, a2⟩ := ha
  obtain ⟨b1, b2⟩ := hb
  have hpos : q * pageSize < (q + 1) * pageSize := by simp only [pageSize]; omega
  rcases h with h | h <;> omega

theorem Tiled.laminar_addrs (h : t.Tiled) (hl : t.Links 0) : Laminar t.InUse t.up 0 t.addrs := by
  refine ⟨hl.up_zero, fun n hn => hn.ne_zero, hl.rooted, hl.up_inUse, fun n hn hup a ha => ?_,
    fun m n hm hn hup hne => (h.apart m n hm hn hup hne).disjoint_addrs⟩
  obtain ⟨h1, h2⟩ := h.inside n hn hup
  exact ⟨h1.trans ha.1, ha.2.trans_le h2⟩

theorem Tiled.laminar_pages (h : t.Tiled) (hl : t.Links 0) : Laminar t.InUse t.up 0 t.pages :=
  ⟨hl.up_zero, fun _ hn => hn.ne_zero, hl.rooted, hl.up_inUse,
    fun n hn hup _ hq => (h.inside n hn hup).spansPage hq,
    fun m n hm hn hup hne => (h.apart m n hm hn hup hne).disjoint_pages⟩

theorem Fitted.laminar_addrs (h : t.Fitted) (hl : t.Links 0) :
    Laminar t.InUse t.up 0 t.addrs := h.tiled.laminar_addrs hl

theorem Fitted.laminar_pages (h : t.Fitted) (hl : t.Links 0) :
    Laminar t.InUse t.up 0 t.pages := h.tiled.laminar_pages hl

theorem WellNested.laminar_pages (h : t.WellNested) : Laminar t.InUse t.up 0 t.pages :=
  h.toTiled.laminar_pages h.links

theorem WellFormed.laminar_addrs (h : t.WellFormed) : Laminar t.InUse t.up 0 t.addrs :=
  h.toFitted.laminar_addrs h.links

theorem WellFormed.laminar_pages (h : t.WellFormed) : Laminar t.InUse t.up 0 t.pages :=
  h.toFitted.laminar_pages h.links

theorem WellNested.canonical_iff (h : t.WellNested) (q : Nat) :
    (t.pageindex q = 0 ∧ ∀ m, t.InUse m → ¬ t.SpansPage m q) ∨
      (t.InUse (t.pageindex q) ∧ t.SpansPage (t.pageindex q) q
        ∧ ∀ m, t.InUse m → t.SpansPage m q → Below t.up (t.pageindex q) m) :=
  h.laminar_pages.deepest_iff.mp (h.canonical q)

theorem WellFormed.canonical_iff (h : t.WellFormed) (q : Nat) :
    (t.pageindex q = 0 ∧ ∀ m, t.InUse m → ¬ t.SpansPage m q) ∨
      (t.InUse (t.pageindex q) ∧ t.SpansPage (t.pageindex q) q
        ∧ ∀ m, t.InUse m → t.SpansPage m q → Below t.up (t.pageindex q) m) :=
  h.wellNested.canonical_iff q

theorem WellFormed.nested (h : t.WellFormed) (hb : t.InUse b) : t.Nested b := by
  intro n hbelow hne
  refine h.inside n (h.links.inUse_of_below_inUse hbelow hb) fun hup => ?_
  rcases below_iff.mp hbelow with hc | hc
  · exact hne hc
  · rw [hup] at hc
    exact hb.ne_zero (eq_null_of_below h.links.up_zero hc)

/-! ### Records and pages -/

theorem spansPage_congr (h : (t' n).core = (t n).core) : t'.SpansPage n q ↔ t.SpansPage n q := by
  have h1 := congrArg (·.begin) h
  have h2 := congrArg (·.end_) h
  simp only [BigAllocation.core] at h1 h2
  simp [SpansPage, h1, h2]

theorem Links.exists_root {d : Nat} (h : t.Links d) (hn : t.InUse n) :
    ∃ r, t.InUse r ∧ t.up r = 0 ∧ Below t.up n r := by
  obtain ⟨e, he⟩ := h.exists_depth hn
  obtain ⟨e, rfl⟩ : ∃ f, e = f + 1 := ⟨e - 1, by have := he.pos hn.ne_zero; omega⟩
  refine ⟨t.up^[e] n, h.inUse_iterate hn (he.2 e (Nat.lt_succ_self e)), ?_, e, rfl⟩
  rw [← Function.iterate_succ_apply' t.up e n]
  exact he.1

theorem WellFormed.eq_of_begin {m n : Nat} (h : t.WellFormed) (hm : t.InUse m) (hn : t.InUse n)
    (hup : t.up m = t.up n) (hbegin : (t m).begin = (t n).begin) : m = n := by
  by_contra hne
  have hbm := h.bounds m hm
  have hbn := h.bounds n hn
  rcases h.apart m n hm hn hup hne with hap | hap <;> omega

theorem WellFormed.pageindex_ne_zero (h : t.WellFormed) (hn : t.InUse n) (ha : a ∈ t.addrs n) :
    t.pageindex (pagenum a) ≠ 0 := by
  obtain ⟨r, hr, hup, hbelow⟩ := h.links.exists_root hn
  obtain ⟨h1, h2⟩ := h.laminar_addrs.subset_of_below hn hbelow hr.ne_zero ha
  obtain ⟨hb, he⟩ := h.aligned r hr hup
  intro h0
  rcases h.canonical_iff (pagenum a) with ⟨-, hno⟩ | ⟨hu, -⟩
  · exact hno r hr (spans_pagenum hb he h1 h2)
  · exact hu.ne_zero h0

theorem WellFormed.mem_addrs_pageindex (h : t.WellFormed) (h0 : t.pageindex (pagenum a) ≠ 0) :
    t.InUse (t.pageindex (pagenum a)) ∧ a ∈ t.addrs (t.pageindex (pagenum a)) := by
  rcases h.canonical_iff (pagenum a) with ⟨hc, -⟩ | ⟨hu, hs, -⟩
  · exact absurd hc h0
  · exact ⟨hu, Spans.contains_pagenum hs⟩

/-! ### Deletion -/

theorem Removed.apart_iff (h : t.Removed s t') (hm : m ∉ s) (hn : n ∉ s) :
    t'.Apart m n ↔ t.Apart m n := by
  simp [Apart, h.begin_eq hm, h.begin_eq hn, h.end_eq hm, h.end_eq hn]

theorem Removed.fitted (h : t.Removed s t') (hf : t.Fitted) : t'.Fitted := by
  refine ⟨fun n hn => ?_, fun n hn hup => ?_, fun m n hm hn hup hne => ?_, fun n hn hup => ?_⟩
  · obtain ⟨hn, hs⟩ := h.inUse_iff.mp hn
    rw [h.begin_eq hs, h.end_eq hs]
    exact hf.bounds n hn
  · obtain ⟨hn, hs⟩ := h.inUse_iff.mp hn
    rw [h.up_eq hs] at hup
    exact (h.inside_iff hs).mpr (hf.inside n hn hup)
  · obtain ⟨hm, hms⟩ := h.inUse_iff.mp hm
    obtain ⟨hn, hns⟩ := h.inUse_iff.mp hn
    rw [h.up_eq hms, h.up_eq hns] at hup
    exact (h.apart_iff hms hns).mpr (hf.apart m n hm hn hup hne)
  · obtain ⟨hn, hs⟩ := h.inUse_iff.mp hn
    rw [h.up_eq hs] at hup
    rw [h.begin_eq hs, h.end_eq hs]
    exact hf.aligned n hn hup

/-- Deleting a record with all below it, and giving its pages to its parent, keeps the table well
formed. -/
theorem WellFormed.removed (h : t.WellFormed) (hb : t.InUse b) (hs : b ≠ t.start)
    (hr : t.Removed { n | Below t.up n b } t')
    (hpages : ∀ q, t'.pageindex q = if t.SpansPage b q then t.up b else t.pageindex q) :
    t'.WellFormed := by
  have hfit := hr.fitted h.toFitted
  have hent : t'.Entered 0 := by
    intro h0
    rw [hr.start_eq] at h0 ⊢
    obtain ⟨hu, hup, -⟩ := h.entered h0
    have hns : t.start ∉ { n | Below t.up n b } := fun hc => by
      rcases below_iff.mp hc with hc | hc
      · exact hs hc.symm
      · rw [hup] at hc
        exact hb.ne_zero (eq_null_of_below h.links.up_zero hc)
    exact ⟨hr.inUse_iff.mpr ⟨hu, hns⟩, (hr.up_eq hns).trans hup, h0⟩
  refine ⟨hfit, hr.links, hent, fun q => (hfit.laminar_pages hr.links).deepest_iff.mpr ?_⟩
  show (t'.pageindex q = 0 ∧ ∀ m, t'.InUse m → ¬ t'.SpansPage m q) ∨
    (t'.InUse (t'.pageindex q) ∧ t'.SpansPage (t'.pageindex q) q
      ∧ ∀ m, t'.InUse m → t'.SpansPage m q → Below t'.up (t'.pageindex q) m)
  rw [hpages q]
  split
  · rename_i hq
    have habove : ∀ m, t'.InUse m → t'.SpansPage m q → Below t.up (t.up b) m := by
      intro m hm hmq
      obtain ⟨hm, hms⟩ := hr.inUse_iff.mp hm
      rcases h.laminar_pages.below_or_below hm hb ((hr.spansPage_iff hms).mp hmq) hq with hc | hc
      · exact absurd hc hms
      · rcases below_iff.mp hc with rfl | hc
        · exact absurd (Below.refl t.up b) hms
        · exact hc
    by_cases hup : t.up b = 0
    · refine .inl ⟨hup, fun m hm hmq => ?_⟩
      have hbelow := habove m hm hmq
      rw [hup] at hbelow
      exact hm.ne_zero (eq_null_of_below h.links.up_zero hbelow)
    · have hps : t.up b ∉ { n | Below t.up n b } := h.links.not_below_up hb
      refine .inr ⟨hr.inUse_iff.mpr ⟨h.links.up_inUse b hb hup, hps⟩,
        (hr.spansPage_iff hps).mpr ((h.inside b hb hup).spansPage hq), fun m hm hmq => ?_⟩
      exact (hr.below_iff hps).mpr (habove m hm hmq)
  · rename_i hq
    have hsub : ∀ m, t.InUse m → t.SpansPage m q → m ∉ { n | Below t.up n b } := fun m hm hmq hc =>
      hq (h.laminar_pages.subset_of_below hm hc hb.ne_zero hmq)
    rcases h.canonical_iff q with ⟨h0, hno⟩ | ⟨hu, hs, hbelow⟩
    · refine .inl ⟨h0, fun m hm hmq => ?_⟩
      obtain ⟨hm, hms⟩ := hr.inUse_iff.mp hm
      exact hno m hm ((hr.spansPage_iff hms).mp hmq)
    · have hqs := hsub _ hu hs
      refine .inr ⟨hr.inUse_iff.mpr ⟨hu, hqs⟩, (hr.spansPage_iff hqs).mpr hs, fun m hm hmq => ?_⟩
      obtain ⟨hm, hms⟩ := hr.inUse_iff.mp hm
      exact (hr.below_iff hqs).mpr (hbelow m hm ((hr.spansPage_iff hms).mp hmq))

/-! ### Other fields -/

/-- Whether a table is well formed depends on the records' bounds and links, the head of the top-level
list, and the page index. -/
theorem WellFormed.of_shape (h : t.WellFormed) (hb : ∀ n, (t' n).shape = (t n).shape)
    (h0 : t' 0 = t 0) (hs : t'.start = t.start)
    (hp : t'.pageindex = t.pageindex) : t'.WellFormed := by
  have hbegin : ∀ n, (t' n).begin = (t n).begin := fun n => by
    exact (congrArg (·.begin) (hb n) :)
  have hend : ∀ n, (t' n).end_ = (t n).end_ := fun n => by
    exact (congrArg (·.end_) (hb n) :)
  have hup : t'.up = t.up := funext fun n => by
    exact (congrArg (·.parent) (hb n) :)
  have hin : t'.InUse = t.InUse := funext fun n => by
    simp [InUse, hbegin, hend]
  have hfit : t'.Fitted := by
    refine ⟨fun n hn => ?_, fun n hn hn0 => ?_, fun m n hm hn hmn hne => ?_, fun n hn hn0 => ?_⟩
    · rw [hbegin, hend]
      exact h.bounds n (hin ▸ hn)
    · simp only [Inside, hbegin, hend, hup]
      exact h.inside n (hin ▸ hn) (hup ▸ hn0)
    · simp only [Apart, hbegin, hend]
      exact h.apart m n (hin ▸ hm) (hin ▸ hn) (hup ▸ hmn) hne
    · rw [hbegin, hend]
      exact h.aligned n (hin ▸ hn) (hup ▸ hn0)
  refine ⟨hfit, h.links.of_shape hb h0 hs, ?_, fun q => ?_⟩
  · simp only [Entered, hin, hup, hs]
    exact h.entered
  · have hspans : (t'.SpansPage · q) = (t.SpansPage · q) := funext fun n => by
      simp [SpansPage, hbegin, hend]
    rw [DeepestSuchThat, hin, hup, hspans, hp]
    exact h.canonical q

theorem setSequence_wellFormed (h : t.WellFormed) (p : Nat) (s : MappingSequence) :
    (t.setSequence p s).WellFormed := h.of_shape (fun _ => rfl) rfl rfl rfl

end Liballocs.Table
