/-
Extending a bigalloc downwards, with its ancestors.

`__liballocs_pre_extend_bigalloc_recursive` extends each record on the way up to a begin of its own,
rounded down to what the allocator above asks for (`Asked`).  The page of the old begin changes hands
only if the record now spans it; when the old begin is inside the page, the source's test says no.
-/
import Liballocs.Proofs.Truncate

namespace Liballocs.Table

open Forest

variable {env : Env} {t t' : Table} {b d hi lo m n q x y fuel second outer : Nat}
  {childThere : Bool} {a : Allocator}

/-! ### Is it one or more levels under? -/

theorem anyM_eq_some {f : Nat → Option Bool} {P : Nat → Prop} {l : List Nat}
    (h : ∀ c ∈ l, ∃ r, f c = some r ∧ (r = true ↔ P c)) :
    ∃ r, l.anyM f = some r ∧ (r = true ↔ ∃ c ∈ l, P c) := by
  induction l with
  | nil => exact ⟨false, rfl, by simp⟩
  | cons c l ih =>
    obtain ⟨r, hr, hP⟩ := h c (.head _)
    obtain ⟨r', hr', hP'⟩ := ih fun c hc => h c (.tail _ hc)
    cases r with
    | true =>
      refine ⟨true, ?_, by simp [hP.mp rfl]⟩
      simp [List.anyM, hr]
    | false =>
      have hno : ¬ P c := fun hc => Bool.false_ne_true (hP.mpr hc)
      refine ⟨r', ?_, by simp [hP', hno]⟩
      simp [List.anyM, hr, hr']

theorem Links.isOneOrMoreLevelsUnder_spec (h : t.Links 0) (m : Nat) (hn : t.InUse n)
    (hd : HasDepth t.up 0 n d) (hf : nbigallocs ≤ d + fuel) :
    ∃ r, t.isOneOrMoreLevelsUnder m fuel n = some r ∧ (r = true ↔ m ≠ n ∧ Below t.up m n) := by
  induction fuel generalizing n d with
  | zero =>
    have := h.depth_lt hn hd
    omega
  | succ fuel ih =>
    obtain ⟨l, hl⟩ := h.kids n hn
    unfold isOneOrMoreLevelsUnder
    by_cases hmn : m = n
    · exact ⟨false, if_pos hmn, by simp [hmn]⟩
    rw [if_neg hmn, hl.children_eq]
    by_cases hml : m ∈ l
    · have hup := ((hl.mem_iff m).mp hml).2
      refine ⟨true, by simp [hml], ?_⟩
      have hbelow : Below t.up m n := Below.step (hup ▸ Below.refl t.up _)
      simp [hmn, hbelow]
    · have hkids : ∀ c ∈ l, ∃ r, t.isOneOrMoreLevelsUnder m fuel c = some r
          ∧ (r = true ↔ m ≠ c ∧ Below t.up m c) := by
        intro c hc
        obtain ⟨hcu, hup⟩ := (hl.mem_iff c).mp hc
        exact ih hcu ((hasDepth_succ hcu.ne_zero).mpr (hup ▸ hd)) (by omega)
      obtain ⟨r, hr, hP⟩ := anyM_eq_some hkids
      refine ⟨r, by simpa [hml] using hr, hP.trans ⟨?_, ?_⟩⟩
      · rintro ⟨c, hc, -, hbelow⟩
        exact ⟨hmn, hbelow.trans (Below.step (((hl.mem_iff c).mp hc).2 ▸ Below.refl t.up _))⟩
      · rintro ⟨-, hbelow⟩
        obtain ⟨c, hmc, hup⟩ := hbelow.exists_child hmn
        have hcl := (hl.mem_iff c).mpr ⟨h.inUse_of_up (by rw [hup]; exact hn.ne_zero), hup⟩
        exact ⟨c, hcl, fun hc => hml (hc ▸ hcl), hmc⟩

/-! ### One record -/

theorem pageDist_mono_right {first second' : Nat} (h : second ≤ second') :
    pageDist first second ≤ pageDist first second' := by
  have hle : pagenum second ≤ pagenum second' := Nat.div_le_div_right h
  unfold pageDist
  split <;> split <;> omega

/-- The pages below the last one written are those below the old begin that the record spans with its
new one. -/
theorem lt_pagenum_last {begin end_ : Nat} (hlt : begin < end_)
    (hchild : childThere = true → PageAligned begin) :
    q < pagenum (if pagenum end_ > pagenum begin ∧ !childThere then roundUp begin pageSize
        else roundDown begin pageSize)
      ↔ q * pageSize < begin ∧ q < pagenum end_ := by
  have hle : pagenum begin ≤ pagenum end_ := Nat.div_le_div_right hlt.le
  split
  · rename_i hpast
    rw [lt_pagenum_roundUp]
    refine ⟨fun hq => ⟨hq, ?_⟩, fun hq => hq.1⟩
    have hqb : q ≤ pagenum begin := (Nat.le_div_iff_mul_le (by decide)).mpr hq.le
    exact hqb.trans_lt hpast.1
  · rename_i hpast
    rw [pagenum_roundDown]
    constructor
    · intro hq
      have hqb := (Nat.le_div_iff_mul_le (by decide : 0 < pageSize)).mp hq
      have hsucc : q * pageSize < q.succ * pageSize := by
        simp only [pageSize]
        omega
      exact ⟨hsucc.trans_le hqb, hq.trans_le hle⟩
    · rintro ⟨hq, hend⟩
      by_cases hp : pagenum end_ > pagenum begin
      · exact (lt_pagenum_iff (hchild (by simpa [hp] using hpast))).mpr hq
      · omega

section

variable (h : t.WellNested) (hb : t.InUse b)

include h hb

theorem WellNested.preExtendedIndex_eq (hlt : lo < (t b).begin)
    (hchild : childThere = true → PageAligned (t b).begin) :
    (fun q => if pagenum (roundUp lo pageSize) ≤ q ∧ q < pagenum
          (if pagenum (t b).end_ > pagenum (t b).begin ∧ !childThere
            then roundUp (t b).begin pageSize
            else roundDown (t b).begin pageSize) then b else t.pageindex q)
      = t.resizedIndex b lo (t b).end_ := by
  funext q
  have hold : t.SpansPage b q ↔ (t b).begin ≤ q * pageSize
      ∧ q < pagenum (t b).end_ := spans_iff_lt_pagenum
  have hnew : Spans lo (t b).end_ q ↔ lo ≤ q * pageSize
      ∧ q < pagenum (t b).end_ := spans_iff_lt_pagenum
  have hwritten := and_congr (pagenum_roundUp_le (a := lo) (q := q))
    (lt_pagenum_last (q := q) (h.bounds b hb) hchild)
  unfold resizedIndex
  by_cases hw : lo ≤ q * pageSize ∧ q * pageSize < (t b).begin ∧ q < pagenum (t b).end_
  · rw [if_pos (hwritten.mpr hw), if_pos (hnew.mpr ⟨hw.1, hw.2.2⟩),
      if_neg fun hs => (hold.mp hs).1.not_gt hw.2.1]
  · rw [if_neg fun hc => hw (hwritten.mp hc)]
    by_cases hs : Spans lo (t b).end_ q
    · obtain ⟨h1, h2⟩ := hnew.mp hs
      rw [if_pos hs, if_pos (hold.mpr ⟨not_lt.mp fun hc => hw ⟨h1, hc, h2⟩, h2⟩)]
    · rw [if_neg hs, if_neg fun hc => hs (hnew.mpr
        ⟨(Nat.le_of_lt hlt).trans (hold.mp hc).1, (hold.mp hc).2⟩)]

/-- Nothing below the record is indexed on the page of a begin inside it. -/
theorem WellNested.pageAligned_of_under (hm : Below t.up (t.pageindex (pagenum (t b).begin)) b) :
    PageAligned (t b).begin := by
  rcases h.canonical_iff (pagenum (t b).begin) with ⟨h0, -⟩ | ⟨hu, hs, -⟩
  · rw [h0] at hm
    exact absurd (eq_null_of_below h.links.up_zero hm) hb.ne_zero
  · obtain ⟨h1, -⟩ := h.laminar_pages.subset_of_below hu hm hb.ne_zero hs
    have h2 := (pagenum_eq_iff.mp (rfl : pagenum (t b).begin = _)).1
    exact ⟨pagenum (t b).begin, by rw [Nat.mul_comm]; omega⟩

/-- **One record is extended downwards**, and its page index with it. -/
theorem WellNested.preExtendBigalloc_eq (hpos : lo ≠ 0)
    (hlt : lo < (t b).begin) (hf : t.FitsAt b lo (t b).end_)
    (hsane : SanePages env (roundUp lo pageSize) (roundUp (t b).begin pageSize)) :
    t.preExtendBigalloc env b lo = some (t.resize b lo (t b).end_
      (t.resizedIndex b lo (t b).end_)) := by
  have hbb := h.bounds b hb
  have hlinks : (t.setBounds b lo (t b).end_).Links 0 :=
    (hf.links (f := t.pageindex) h hb hpos ⟨by omega, by omega⟩).of_eq rfl rfl
  have hb' : (t.setBounds b lo (t b).end_).InUse b := (setBounds_inUse hb hpos (by omega)).mpr hb
  obtain ⟨d, hd⟩ := hlinks.exists_depth hb'
  obtain ⟨under, hunder, hiff⟩ := hlinks.isOneOrMoreLevelsUnder_spec
    (t.pageindex (pagenum (t b).begin)) hb' hd (Nat.le_add_left _ _)
  rw [setBounds_up] at hiff
  have hend : ((t.setBounds b lo (t b).end_) b).end_ = (t b).end_ := by
    rw [setBounds_self]
  have hwrite : ∀ childThere : Bool, (childThere = true → PageAligned (t b).begin) →
      (t.setBounds b lo (t b).end_).memset env (roundUp lo pageSize)
        (if pagenum (t b).end_ > pagenum (t b).begin ∧ !childThere
          then roundUp (t b).begin pageSize
          else roundDown (t b).begin pageSize) b
        = some (t.resize b lo (t b).end_ (t.resizedIndex b lo (t b).end_)) := by
    intro childThere hchild
    refine (memset_eq_some_iff env _ _ _ _ (hb.2.1.trans (by decide))).mpr ⟨?_, ?_⟩
    · refine (pageDist_mono_right ?_).trans hsane
      split
      · exact le_rfl
      · exact (roundDown_le _ _).trans (le_roundUp _)
    · rw [← h.preExtendedIndex_eq hb hlt hchild]
      rfl
  unfold preExtendBigalloc
  simp only [modify_begin, if_pos hlt, hend]
  by_cases hpast : pagenum (t b).end_ > pagenum (t b).begin
  · rw [if_pos hpast]
    refine Option.bind_eq_some_iff.mpr ⟨under, hunder, ?_⟩
    exact hwrite under fun hc => h.pageAligned_of_under hb (hiff.mp hc).2
  · rw [if_neg hpast]
    exact hwrite false fun hc => absurd hc Bool.false_ne_true

end

/-! ### The way up -/

/-- A begin as an allocator wants it. -/
def alignDown (env : Env) (a : Allocator) (x : Nat) : Nat :=
  if env.minAlignment a ≠ 0 then roundDown x (env.minAlignment a) else x

/-- On the way up from `b`, the record `n` is asked to begin at `x` or below. -/
inductive Asked (env : Env) (t : Table) (b newBegin : Nat) : Nat → Nat → Prop
  | self : Asked env t b newBegin b newBegin
  | up {n x : Nat} {a : Allocator} (h : Asked env t b newBegin n x) (hup : t.up n ≠ 0)
      (ha : (t.bigAllocations (t.up n)).allocatedBy = some a) :
      Asked env t b newBegin (t.up n) (alignDown env a x)

/-- What a caller of `__liballocs_pre_extend_bigalloc_recursive` promises, and the limit on sizes:
the ancestors have allocators, and at each level the new addresses are free. -/
structure PreExtendable (env : Env) (t : Table) (b newBegin : Nat) : Prop where
  allocated : ∀ n x, Asked env t b newBegin n x → t.up n ≠ 0 →
    ((t.bigAllocations (t.up n)).allocatedBy).isSome
  positive : ∀ n x, Asked env t b newBegin n x → x ≠ 0
  free : ∀ n x, Asked env t b newBegin n x → ∀ m, t.InUse m → t.up m = t.up n → m ≠ n →
    (t.bigAllocations m).end_ ≤ x ∨ (t.bigAllocations n).begin ≤ (t.bigAllocations m).begin
  sane : ∀ n x, Asked env t b newBegin n x →
    SanePages env (roundUp x pageSize) (roundUp (t.bigAllocations n).begin pageSize)

/-- Everybody asked begins low enough, and nobody else changed. -/
structure PreExtended (env : Env) (t : Table) (b newBegin : Nat) (t' : Table) : Prop where
  wellNested : t'.WellNested
  asked : ∀ n x, Asked env t b newBegin n x →
    t'.bigAllocations n = { t.bigAllocations n with begin := min x (t.bigAllocations n).begin }
  others : ∀ n, (∀ x, ¬ Asked env t b newBegin n x) → t'.bigAllocations n = t.bigAllocations n

theorem alignDown_le (a : Allocator) (x : Nat) : alignDown env a x ≤ x := by
  unfold alignDown
  split
  · exact roundDown_le x _
  · exact le_rfl

section

variable (h : Asked env t b lo n x)

include h

theorem Asked.ancestor : Below t.up b n := by
  induction h with
  | self => exact Below.refl t.up b
  | up h _ _ ih => exact ih.trans (Below.step (Below.refl t.up _))

theorem Asked.ne_zero (hb : b ≠ 0) : n ≠ 0 := by
  cases h with
  | self => exact hb
  | up _ hup _ => exact hup

theorem Asked.le : x ≤ lo := by
  induction h with
  | self => exact le_rfl
  | up _ _ _ ih => exact (alignDown_le _ _).trans ih

end

theorem Asked.of_parent (hup : t.up b ≠ 0) (ha : (t (t.up b)).allocatedBy = some a)
    (h : Asked env t (t.up b) (alignDown env a lo) n x) : Asked env t b lo n x := by
  induction h with
  | self => exact .up .self hup ha
  | up _ hup' ha' ih => exact .up ih hup' ha'

theorem Asked.cases_parent (h : Asked env t b lo n x) :
    (n = b ∧ x = lo) ∨ (t.up b ≠ 0 ∧ ∃ a, (t (t.up b)).allocatedBy = some a
      ∧ Asked env t (t.up b) (alignDown env a lo) n x) := by
  induction h with
  | self => exact .inl ⟨rfl, rfl⟩
  | up _ hup ha ih =>
    rcases ih with ⟨rfl, rfl⟩ | ⟨hup', a', ha', h'⟩
    · exact .inr ⟨hup, _, ha, .self⟩
    · exact .inr ⟨hup', a', ha', .up h' hup ha⟩

theorem PreExtendable.parent (h : PreExtendable env t b lo) (hup : t.up b ≠ 0)
    (ha : (t (t.up b)).allocatedBy = some a) : PreExtendable env t (t.up b) (alignDown env a lo) :=
  ⟨fun n x hn => h.allocated n x (hn.of_parent hup ha),
    fun n x hn => h.positive n x (hn.of_parent hup ha),
    fun n x hn => h.free n x (hn.of_parent hup ha),
    fun n x hn => h.sane n x (hn.of_parent hup ha)⟩

theorem PreExtendable.exists_asked (h : PreExtendable env t b lo) (hl : t.Links 0)
    (hbelow : Below t.up b n) (hn : n ≠ 0) : ∃ x, Asked env t b lo n x := by
  obtain ⟨k, rfl⟩ := hbelow
  induction k with
  | zero => exact ⟨lo, .self⟩
  | succ k ih =>
    rw [Function.iterate_succ_apply'] at hn ⊢
    have hk : t.up^[k] b ≠ 0 := by
      intro h0
      rw [h0, hl.up_zero] at hn
      exact hn rfl
    obtain ⟨x, hx⟩ := ih hk
    obtain ⟨a, ha⟩ := Option.isSome_iff_exists.mp (h.allocated _ x hx hn)
    exact ⟨_, .up hx hn ha⟩

namespace PreExtended

section

variable (h : PreExtended env t b lo t')
include h

theorem up_eq : t'.up = t.up := by
  funext n
  unfold up
  by_cases hn : ∃ x, Asked env t b lo n x
  · obtain ⟨x, hx⟩ := hn
    rw [h.asked n x hx]
  · rw [h.others n fun x hx => hn ⟨x, hx⟩]

theorem end_eq (n : Nat) : (t' n).end_ = (t n).end_ := by
  by_cases hn : ∃ x, Asked env t b lo n x
  · obtain ⟨x, hx⟩ := hn
    rw [h.asked n x hx]
  · rw [h.others n fun x hx => hn ⟨x, hx⟩]

theorem inUse_iff (hreq : PreExtendable env t b lo) : t'.InUse n ↔ t.InUse n := by
  by_cases hn : ∃ x, Asked env t b lo n x
  · obtain ⟨x, hx⟩ := hn
    have hpos := hreq.positive n x hx
    unfold InUse
    rw [h.asked n x hx]
    show 0 < n ∧ n < nbigallocs ∧ min x (t n).begin ≠ 0 ∧ _ ↔ _
    constructor
    · rintro ⟨h1, h2, h3, h4⟩
      exact ⟨h1, h2, by omega, h4⟩
    · rintro ⟨h1, h2, h3, h4⟩
      exact ⟨h1, h2, by omega, h4⟩
  · unfold InUse
    rw [h.others n fun x hx => hn ⟨x, hx⟩]

theorem eq_of_not_above (hn : ¬ Below t.up b n) : t' n = t n :=
  h.others n fun _ hx => hn hx.ancestor

end

end PreExtended

section

variable (hreq : PreExtendable env t b lo) (h : t.WellNested) (hb : t.InUse b)
include hreq h hb

theorem PreExtendable.fitsAt (hlt : lo < (t b).begin) (hup : t.up b ≠ 0)
    (ha : (t (t.up b)).allocatedBy = some a)
    (hp : PreExtended env t (t.up b) (alignDown env a lo) t') : t'.FitsAt b lo (t' b).end_ := by
  have hpin : ∀ n, t'.InUse n ↔ t.InUse n := fun n => hp.inUse_iff (hreq.parent hup ha)
  have hend := hp.end_eq
  have hbb := h.bounds b hb
  have hsib : ∀ n, t.InUse n → t.up n = t.up b → t' n = t n := by
    intro n hn hupn
    apply hp.eq_of_not_above
    rw [← hupn]
    exact h.links.not_below_up hn
  have hkid : ∀ n, t.InUse n → t.up n = b → t' n = t n := by
    intro n hn hupn
    apply hp.eq_of_not_above
    intro hc
    exact h.links.not_below_up hb (hc.trans (Below.step (by rw [hupn]; exact Below.refl t.up b)))
  refine ⟨by rw [hend]; omega, fun _ => ?_, fun n hn hupn hne => ?_, fun n hn hupn => ?_⟩
  · rw [hp.up_eq, hend, hend, hp.asked _ _ .self]
    have hin := h.inside b hb hup
    exact ⟨(Nat.min_le_left _ _).trans (alignDown_le a lo), hin.2⟩
  · rw [hp.up_eq] at hupn
    have hn' := (hpin n).mp hn
    rw [hend b, hsib n hn' hupn]
    have hbn := h.bounds n hn'
    have hapart := h.apart n b hn' hb hupn hne
    have hfree := hreq.free b lo .self n hn' hupn hne
    unfold Apart at hapart
    omega
  · rw [hp.up_eq] at hupn
    have hn' := (hpin n).mp hn
    rw [hend b, hkid n hn' hupn]
    have hin := h.inside_of_up hn' hb.ne_zero hupn
    omega

/-- The ancestors of `b` have been extended, and `b` has not. -/
structure PreExtendedAbove (env : Env) (t : Table) (b newBegin : Nat) (t' : Table) : Prop where
  wellNested : t'.WellNested
  inUse : t'.InUse b
  same : t'.bigAllocations b = t.bigAllocations b
  fits : newBegin < (t.bigAllocations b).begin → t'.FitsAt b newBegin (t.bigAllocations b).end_
  asked : ∀ n x, Asked env t b newBegin n x → n ≠ b →
    t'.bigAllocations n = { t.bigAllocations n with begin := min x (t.bigAllocations n).begin }
  others : ∀ n, (∀ x, ¬ Asked env t b newBegin n x) → t'.bigAllocations n = t.bigAllocations n

theorem PreExtendable.above_top (hup : t.up b = 0) : PreExtendedAbove env t b lo t := by
  refine ⟨h, hb, rfl, fun hlt => ⟨?_, fun hc => absurd hup hc, fun n hn hupn hne => ?_,
    fun n hn hupn => ?_⟩, fun n x hx hne => ?_, fun _ _ => rfl⟩
  · exact hlt.trans (h.bounds b hb)
  · have hbn := h.bounds n hn
    have hapart := h.apart n b hn hb hupn hne
    have hfree := hreq.free b lo .self n hn hupn hne
    unfold Apart at hapart
    omega
  · have hin := h.inside_of_up hn hb.ne_zero hupn
    omega
  · rcases hx.cases_parent with ⟨hc, -⟩ | ⟨hc, -⟩
    · exact absurd hc hne
    · exact absurd hup hc

theorem PreExtended.above (hp : PreExtended env t (t.up b) (alignDown env a lo) t')
    (hup : t.up b ≠ 0) (ha : (t (t.up b)).allocatedBy = some a) : PreExtendedAbove env t b lo t' := by
  have hsame : t' b = t b := hp.eq_of_not_above (h.links.not_below_up hb)
  refine ⟨hp.wellNested, (hp.inUse_iff (hreq.parent hup ha)).mpr hb, hsame, fun hlt => ?_,
    fun n x hx hne => ?_, fun n hn => ?_⟩
  · rw [← hsame]
    exact hreq.fitsAt h hb hlt hup ha hp
  · rcases hx.cases_parent with ⟨hc, -⟩ | ⟨-, a', ha', hx'⟩
    · exact absurd hc hne
    · obtain rfl := Option.mem_unique ha ha'
      exact hp.asked n x hx'
  · exact hp.others n fun x hx => hn x (hx.of_parent hup ha)

theorem PreExtendedAbove.step (hp : PreExtendedAbove env t b lo t') :
    ∃ t'', t'.preExtendBigalloc env b lo = some t'' ∧ PreExtended env t b lo t'' := by
  have hself : ∀ x, Asked env t b lo b x → x = lo := by
    intro x hx
    rcases hx.cases_parent with ⟨-, hc⟩ | ⟨-, a, -, hx'⟩
    · exact hc
    · exact absurd hx'.ancestor (h.links.not_below_up hb)
  by_cases hlt : lo < (t b).begin
  · have hfits := hp.fits hlt
    have hbb := h.bounds b hb
    have hpos := hreq.positive b lo .self
    have hsane := hreq.sane b lo .self
    rw [← hp.same] at hsane
    have hrun := hp.wellNested.preExtendBigalloc_eq hp.inUse hpos
      (by rw [hp.same]; exact hlt) (by rw [hp.same]; exact hfits) hsane
    rw [hp.same] at hrun
    refine ⟨_, hrun, ?_, fun n x hx => ?_, fun n hn => ?_⟩
    · exact (hp.wellNested.resize_iff hp.inUse hpos (by omega)
        (by unfold Meets; rw [hp.same]; omega)).mpr ⟨hfits, fun _ => rfl⟩
    · by_cases hnb : n = b
      · subst hnb
        rw [resize_self, hp.same, hself x hx, Nat.min_eq_left hlt.le]
      · rw [resize_of_ne hnb]
        exact hp.asked n x hx hnb
    · have hnb : n ≠ b := fun hc => hn lo (hc ▸ .self)
      rw [resize_of_ne hnb]
      exact hp.others n hn
  · refine ⟨t', ?_, hp.wellNested, fun n x hx => ?_, hp.others⟩
    · unfold preExtendBigalloc
      rw [hp.same, if_neg hlt]
      rfl
    · by_cases hnb : n = b
      · subst hnb
        rw [hp.same, hself x hx, Nat.min_eq_right (not_lt.mp hlt)]
      · exact hp.asked n x hx hnb

end

/-- By induction on the way up: first the ancestors, then the record. -/
theorem WellNested.preExtendBigallocRecursive_spec (h : t.WellNested) (hb : t.InUse b)
    (hd : HasDepth t.up 0 b d) (hf : d ≤ fuel) (hreq : PreExtendable env t b lo) :
    ∃ t', preExtendBigallocRecursive env fuel t b lo = some t' ∧ PreExtended env t b lo t' := by
  induction fuel generalizing b d lo with
  | zero =>
    have := hd.pos hb.ne_zero
    omega
  | succ fuel ih =>
    unfold preExtendBigallocRecursive
    by_cases hup : t.up b = 0
    · obtain ⟨t', hrun, hp⟩ := (hreq.above_top h hb hup).step hreq h hb
      refine ⟨t', ?_, hp⟩
      have hcond : ¬ (t b).parent ≠ 0 := not_not.mpr hup
      rw [if_neg hcond]
      exact hrun
    · obtain ⟨a, ha⟩ := Option.isSome_iff_exists.mp (hreq.allocated b lo .self hup)
      have hpu := h.links.up_inUse b hb hup
      obtain ⟨d, rfl⟩ : ∃ e, d = e + 1 := ⟨d - 1, by have := hd.pos hb.ne_zero; omega⟩
      obtain ⟨t1, hrun1, hp1⟩ := ih hpu ((hasDepth_succ hb.ne_zero).mp hd) (by omega)
        (hreq.parent hup ha)
      obtain ⟨t', hrun, hp⟩ := (hp1.above hreq h hb hup ha).step hreq h hb
      refine ⟨t', ?_, hp⟩
      have hcond : (t b).parent ≠ 0 := hup
      rw [if_pos hcond]
      refine Option.bind_eq_some_iff.mpr ⟨a, ha, ?_⟩
      exact Option.bind_eq_some_iff.mpr ⟨t1, hrun1, hrun⟩

/-- Alignment at the top is a matter of what the top-level record was asked for. -/
theorem PreExtended.wellFormed_iff (hp : PreExtended env t b lo t') (h : t.WellFormed)
    (hb : t.InUse b) (hreq : PreExtendable env t b lo) :
    t'.WellFormed ↔ ∀ n x, Asked env t b lo n x → t.up n = 0 → x < (t n).begin → PageAligned x := by
  rw [Table.wellFormed_iff, hp.up_eq]
  constructor
  · rintro ⟨-, halign⟩ n x hx hup hlt
    have hn : t.InUse n := h.links.inUse_of_below hb hx.ancestor (hx.ne_zero hb.ne_zero)
    have h' := (halign n ((hp.inUse_iff hreq).mpr hn) hup).1
    rw [hp.asked n x hx] at h'
    rwa [Nat.min_eq_left hlt.le] at h'
  · intro halign
    refine ⟨hp.wellNested, fun n hn hup => ?_⟩
    have hn' := (hp.inUse_iff hreq).mp hn
    obtain ⟨h1, h2⟩ := h.aligned n hn' hup
    rw [hp.end_eq]
    refine ⟨?_, h2⟩
    by_cases hx : ∃ x, Asked env t b lo n x
    · obtain ⟨x, hx⟩ := hx
      rw [hp.asked n x hx]
      show PageAligned (min x (t n).begin)
      by_cases hlt : x < (t n).begin
      · rw [Nat.min_eq_left hlt.le]
        exact halign n x hx hup hlt
      · rw [Nat.min_eq_right (not_lt.mp hlt)]
        exact h1
    · rw [hp.others n fun x hc => hx ⟨x, hc⟩]
      exact h1

/-! ### Further and further down -/

theorem alignDown_mono (a : Allocator) (h : x ≤ y) : alignDown env a x ≤ alignDown env a y := by
  unfold alignDown
  split
  · exact roundDown_mono _ h
  · exact h

theorem Asked.mono (h : Asked env t b hi n y) (hle : lo ≤ hi) : ∃ x ≤ y, Asked env t b lo n x := by
  induction h with
  | self => exact ⟨lo, hle, .self⟩
  | @up n y a _ hup ha ih =>
    obtain ⟨x, hx, hasked⟩ := ih
    exact ⟨alignDown env a x, alignDown_mono a hx, .up hasked hup ha⟩

theorem Asked.congr (h : Asked env t' b lo n x)
    (hsame : ∀ m, Below t.up b m → t'.up m = t.up m ∧ (t' m).allocatedBy = (t m).allocatedBy) :
    Asked env t b lo n x := by
  induction h with
  | self => exact .self
  | @up n x a _ hup ha ih =>
    have hup' := (hsame n ih.ancestor).1
    have habove := ih.ancestor.trans (Below.step (Below.refl t.up (t.up n)))
    rw [hup'] at hup ha ⊢
    rw [(hsame _ habove).2] at ha
    exact .up ih hup ha

theorem pageDist_anti_left {first first' : Nat} (h : first ≤ first') :
    pageDist first' second ≤ pageDist first second := by
  have hle : pagenum first ≤ pagenum first' := Nat.div_le_div_right h
  unfold pageDist
  split <;> split <;> omega

theorem PreExtendable.mono (h : PreExtendable env t b lo) (hle : lo ≤ hi) :
    PreExtendable env t b hi := by
  refine ⟨fun n y hy hup => ?_, fun n y hy => ?_, fun n y hy m hm hup hne => ?_, fun n y hy => ?_⟩
  all_goals obtain ⟨x, hx, hasked⟩ := hy.mono hle
  · exact h.allocated n x hasked hup
  · have := h.positive n x hasked
    omega
  · have := h.free n x hasked m hm hup hne
    omega
  · exact (pageDist_anti_left (roundUp_mono pageSize hx)).trans (h.sane n x hasked)

theorem PreExtended.eq_with_begin (h : PreExtended env t b lo t') (n : Nat) :
    ∃ x ≤ (t n).begin, t' n = { t n with begin := x } := by
  by_cases hn : ∃ x, Asked env t b lo n x
  · obtain ⟨x, hx⟩ := hn
    exact ⟨_, Nat.min_le_right _ _, h.asked n x hx⟩
  · exact ⟨_, le_rfl, h.others n fun x hx => hn ⟨x, hx⟩⟩

theorem PreExtended.allocatedBy_eq (h : PreExtended env t b lo t') (n : Nat) :
    (t' n).allocatedBy = (t n).allocatedBy := by
  obtain ⟨x, -, hx⟩ := h.eq_with_begin n
  rw [hx]

/-- An extension leaves the record extendable as far as it was before. -/
theorem PreExtended.extendable (hp : PreExtended env t b hi t') (h : t.WellNested) (hb : t.InUse b)
    (hhi : PreExtendable env t b hi) (hlo : PreExtendable env t b lo) :
    PreExtendable env t' b lo := by
  have hasked : ∀ {n x}, Asked env t' b lo n x → Asked env t b lo n x := fun hx =>
    hx.congr fun m _ => ⟨congrFun hp.up_eq m, hp.allocatedBy_eq m⟩
  have hbegin : ∀ n, (t' n).begin ≤ (t n).begin := by
    intro n
    obtain ⟨x, hle, hx⟩ := hp.eq_with_begin n
    rw [hx]
    exact hle
  refine ⟨fun n x hx hup => ?_, fun n x hx => hlo.positive n x (hasked hx),
    fun n x hx m hm hup hne => ?_, fun n x hx => ?_⟩
  · rw [hp.up_eq] at hup ⊢
    rw [hp.allocatedBy_eq]
    exact hlo.allocated n x (hasked hx) hup
  · rw [hp.up_eq] at hup
    have hm' := (hp.inUse_iff hhi).mp hm
    have hn' := h.links.inUse_of_below hb (hasked hx).ancestor ((hasked hx).ne_zero hb.ne_zero)
    have hsib : ¬ Below t.up b m := by
      intro hc
      obtain ⟨d, hd⟩ := h.links.exists_depth hm'
      obtain ⟨e, he⟩ := h.links.exists_depth hn'
      rcases hc.total (hasked hx).ancestor with hmn | hnm
      · exact hne (hmn.eq_of_sibling h.links.up_zero hd hn'.ne_zero hup)
      · exact hne (hnm.eq_of_sibling h.links.up_zero he hm'.ne_zero hup.symm).symm
    have hfree := hlo.free n x (hasked hx) m hm' hup hne
    have hle := hbegin n
    rw [hp.end_eq, hp.eq_of_not_above hsib]
    omega
  · exact Nat.le_trans (pageDist_mono_right (roundUp_mono pageSize (hbegin n)))
      (hlo.sane n x (hasked hx))

/-! ### The call as a whole -/

/-- **Extending a bigalloc downwards with its ancestors keeps everything in its place**: the bigalloc
and its ancestors cover the new begin, each child is inside its parent, the page index is canonical,
and nobody else changed.  The table is well formed if the begin that the top-level record is asked for
is page-aligned. -/
theorem preExtendBigallocRecursive_correct (env : Env) (t : Table) (b newBegin : Nat)
    (h : t.WellFormed) (hb : t.InUse b) (hreq : PreExtendable env t b newBegin) :
    ∃ t', preExtendBigallocRecursive env nbigallocs t b newBegin = some t'
      ∧ t'.WellNested
      ∧ (t'.WellFormed ↔ ∀ n x, Asked env t b newBegin n x → t.up n = 0 →
          x < (t.bigAllocations n).begin → PageAligned x)
      ∧ (∀ n, t.InUse n → Below t.up b n → (t'.bigAllocations n).begin ≤ newBegin
          ∧ (t'.bigAllocations n).begin ≤ (t.bigAllocations n).begin
          ∧ (t'.bigAllocations n).end_ = (t.bigAllocations n).end_)
      ∧ (∀ n, ¬ Below t.up b n → t'.bigAllocations n = t.bigAllocations n) := by
  obtain ⟨d, hd⟩ := h.links.exists_depth hb
  obtain ⟨t', hrun, hp⟩ := h.wellNested.preExtendBigallocRecursive_spec hb hd
    (h.links.depth_lt hb hd).le hreq
  refine ⟨t', hrun, hp.wellNested, hp.wellFormed_iff h hb hreq, fun n hn hbelow => ?_,
    fun n hn => hp.eq_of_not_above hn⟩
  obtain ⟨x, hx⟩ := hreq.exists_asked h.links hbelow hn.ne_zero
  rw [hp.asked n x hx]
  exact ⟨(Nat.min_le_left _ _).trans hx.le, Nat.min_le_right _ _, rfl⟩

theorem Asked.of_two (h : Asked env t b lo n x) (hup : t.up outer = 0) (hb : t.up b = outer)
    (ha : (t outer).allocatedBy = some a) :
    (n = b ∧ x = lo) ∨ (n = outer ∧ x = alignDown env a lo) := by
  rcases h.cases_parent with hc | ⟨-, a', ha', h⟩
  · exact .inl hc
  rw [hb] at ha' h
  obtain rfl := Option.mem_unique ha ha'
  rcases h.cases_parent with hc | ⟨hc, -⟩
  · exact .inr hc
  · exact absurd hup hc

theorem preExtendable_of_two (hup : t.up outer = 0) (hb : t.up b = outer) (h0 : outer ≠ 0)
    (ha : (t outer).allocatedBy = some a)
    (honly : ∀ n, t.InUse n → n = b ∨ n = outer) (hpos : alignDown env a lo ≠ 0)
    (hs : SanePages env (roundUp lo pageSize) (roundUp (t b).begin pageSize))
    (hs' : SanePages env (roundUp (alignDown env a lo) pageSize)
      (roundUp (t outer).begin pageSize)) : PreExtendable env t b lo := by
  refine ⟨fun n x hx hn => ?_, fun n x hx => ?_, fun n x hx m hm hupm hne => ?_, fun n x hx => ?_⟩
  all_goals rcases hx.of_two hup hb ha with ⟨rfl, rfl⟩ | ⟨rfl, rfl⟩
  · rw [hb, ha]
    rfl
  · exact absurd hup hn
  · have hle : alignDown env a x ≤ x := alignDown_le a x
    omega
  · exact hpos
  · rcases honly m hm with rfl | rfl
    · exact absurd rfl hne
    · rw [hup, hb] at hupm
      exact absurd hupm.symm h0
  · rcases honly m hm with rfl | rfl
    · rw [hup, hb] at hupm
      exact absurd hupm h0
    · exact absurd rfl hne
  · exact hs
  · exact hs'

/-- The sample's environment, with mappings on page boundaries. -/
def alignedEnv : Env :=
  { sampleEnv with minAlignment := fun a => if a = .mmap then 4096 else 0 }

theorem aligned_empty : ({} : Table).Empty alignedEnv := ⟨⟨rfl, rfl, rfl, .inl rfl⟩, rfl, rfl, rfl⟩

/-- The record `[5000, 14000)` of the sample, four pages further up. -/
def sampleHigh : Option (List Nat × Table) :=
  createAll alignedEnv [] {} [{ ptr := 20480, size := 16384, allocatedBy := some .mmap },
    { ptr := 21000, size := 9000, maybeParent := 1, allocatedBy := some .genericMalloc }]

/-- The inner record is extended down to 10000, the outer one to the page of that. -/
theorem preExtendBigallocRecursive_sample : ∃ used t t', sampleHigh = some (used, t)
    ∧ preExtendBigallocRecursive alignedEnv nbigallocs t 2 10000 = some t' ∧ t'.WellFormed
    ∧ (t'.bigAllocations 1).begin ≤ 10000 ∧ (t'.bigAllocations 2).begin ≤ 10000 := by
  obtain ⟨used, t, ht, hu, hin1, hin2, hup1, hup2, hb1, hb2, hal⟩ : ∃ used t,
      sampleHigh = some (used, t) ∧ used = [2, 1] ∧ t.InUse 1 ∧ t.InUse 2 ∧ t.up 1 = 0 ∧ t.up 2 = 1
      ∧ (t 1).begin = 20480 ∧ (t 2).begin = 21000
      ∧ (t 1).allocatedBy = some .mmap := by decide +kernel
  obtain ⟨hwf, -, hused, -⟩ := aligned_empty.createAll_wellFormed ht
  have hmem : ∀ n, t.InUse n → n = 2 ∨ n = 1 := by
    intro n hn
    have := hused n hn
    rwa [hu, List.mem_pair] at this
  have hreq : PreExtendable alignedEnv t 2 10000 :=
    preExtendable_of_two hup1 hup2 (by decide) hal hmem (by decide) (by rw [hb2]; decide)
      (by rw [hb1]; decide)
  obtain ⟨t', hrun, -, hiff, hcover, -⟩ :=
    preExtendBigallocRecursive_correct alignedEnv t 2 10000 hwf hin2 hreq
  refine ⟨used, t, t', ht, hrun, hiff.mpr fun n x hx hup _ => ?_, (hcover 1 hin1 ?_).1,
    (hcover 2 hin2 (Below.refl _ _)).1⟩
  · rcases hx.of_two hup1 hup2 hal with ⟨rfl, rfl⟩ | ⟨rfl, rfl⟩
    · exact absurd (hup2.symm.trans hup) (by decide)
    · decide
  · exact Below.step (hup2 ▸ Below.refl t.up _)

/-- A top-level record far up.  To pre-extend it to the second page takes too many pages for
`memset_bigalloc`; by a few bytes, it leaves it unaligned. -/
theorem preExtendBigallocRecursive_fails : ∃ used t,
    createAll alignedEnv [] {} [{ ptr := 2 ^ 33, size := 4096, allocatedBy := some .mmap }]
      = some (used, t)
    ∧ t.WellFormed ∧ (∀ n, t.InUse n → n = 1) ∧ (t.bigAllocations 1).begin = 2 ^ 33
    ∧ preExtendBigallocRecursive alignedEnv nbigallocs t 1 4096 = none
    ∧ ∃ t', preExtendBigallocRecursive alignedEnv nbigallocs t 1 (2 ^ 33 - 5) = some t'
      ∧ t'.InUse 1 ∧ t'.up 1 = 0 ∧ ¬ PageAligned (t'.bigAllocations 1).begin := by
  obtain ⟨used, t, ht, hu, hb, hnone, hrun⟩ : ∃ used t, createAll alignedEnv [] {}
      [{ ptr := 2 ^ 33, size := 4096, allocatedBy := some .mmap }] = some (used, t)
      ∧ used = [1] ∧ (t 1).begin = 2 ^ 33
      ∧ (preExtendBigallocRecursive alignedEnv nbigallocs t 1 4096).isNone
      ∧ ∃ t', preExtendBigallocRecursive alignedEnv nbigallocs t 1 (2 ^ 33 - 5) = some t'
        ∧ t'.InUse 1 ∧ t'.up 1 = 0 ∧ ¬ PageAligned (t' 1).begin := by decide +kernel
  obtain ⟨hwf, -, hused, -⟩ := aligned_empty.createAll_wellFormed ht
  refine ⟨used, t, ht, hwf, fun n hn => ?_, hb, Option.isNone_iff_eq_none.mp hnone, hrun⟩
  have hmem := hused n hn
  rw [hu] at hmem
  exact List.mem_singleton.mp hmem

end Liballocs.Table
