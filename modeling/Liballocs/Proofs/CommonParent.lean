/-
The bigalloc that two addresses have in common.

`get_common_parent_bigalloc_recursive` moves the deeper of two bigallocs up, with a counter for the
depth of each.  When that is the first, it also counts the second down, which has not moved.  From then
on the first keeps moving until the second counter is used up, and a common ancestor further up is not
found.
-/
import Liballocs.Proofs.Runs

namespace Liballocs.Table

open Forest

variable {env : Env} {t : Table} {a b1 b2 c1 c2 d1 d2 e n d r f : Nat}

/-- `a` is an ancestor of both records, or one of them above the other. -/
def Common (t : Table) (b1 b2 a : Nat) : Prop := Below t.up b1 a ∧ Below t.up b2 a

/-! ### The way the search goes -/

theorem Links.bigallocDepth_eq {fuel : Nat} (h : t.Links 0) (hd : HasDepth t.up 0 n d)
    (hf : d ≤ fuel) : t.bigallocDepth fuel n = some d := by
  induction fuel generalizing n d with
  | zero =>
    obtain rfl : d = 0 := Nat.le_zero.mp hf
    exact if_pos hd.1
  | succ fuel ih =>
    unfold bigallocDepth
    by_cases hn : n = 0
    · rw [if_pos hn, hd.unique ((hasDepth_null h.up_zero).mpr hn)]
    · obtain ⟨d, rfl⟩ := Nat.exists_eq_succ_of_ne_zero (hd.pos hn).ne'
      have hup : HasDepth t.up 0 (t n).parent d := (hasDepth_succ hn).mp hd
      rw [if_neg hn, ih hup (Nat.le_of_succ_le_succ hf)]
      rfl

/-- Once the first counter is the higher one, only the first record moves. -/
theorem commonParent_climb (t : Table) (b1 b2 : Nat) (hlt : c2 < c1) :
    (∃ k ≤ c2, t.up^[k] b1 = b2 ∧ t.getCommonParentBigallocRecursive b1 c1 b2 c2 = b2)
      ∨ ((∀ k ≤ c2, t.up^[k] b1 ≠ b2) ∧ t.getCommonParentBigallocRecursive b1 c1 b2 c2 = 0) := by
  induction c2 generalizing b1 c1 with
  | zero =>
    unfold getCommonParentBigallocRecursive
    by_cases heq : b1 = b2
    · rw [if_pos heq]
      exact .inl ⟨0, le_rfl, heq, heq⟩
    · rw [if_neg heq]
      refine .inr ⟨fun k hk => ?_, rfl⟩
      rw [Nat.le_zero.mp hk]
      exact heq
  | succ c2 ih =>
    unfold getCommonParentBigallocRecursive
    by_cases heq : b1 = b2
    · rw [if_pos heq]
      exact .inl ⟨0, Nat.zero_le _, heq, heq⟩
    · rw [if_neg heq, if_neg (by omega), if_pos hlt]
      rcases ih (t.up b1) (show c2 < c1 - 1 by omega) with ⟨k, hk, hup, hr⟩ | ⟨hno, hr⟩
      · exact .inl ⟨k + 1, Nat.succ_le_succ hk, hup, hr⟩
      · refine .inr ⟨fun k hk => ?_, hr⟩
        cases k with
        | zero => exact heq
        | succ k => exact hno k (Nat.le_of_succ_le_succ hk)

theorem Links.commonParent_of_below (h : t.Links 0) (h1 : b1 ≠ 0) (hd1 : HasDepth t.up 0 b1 c1)
    (hd2 : HasDepth t.up 0 b2 c2) (hb : Below t.up b2 b1) :
    t.getCommonParentBigallocRecursive b1 c1 b2 c2 = b1 := by
  induction c2 generalizing b2 with
  | zero =>
    obtain rfl : b2 = 0 := hd2.1
    exact absurd (eq_null_of_below h.up_zero hb) h1
  | succ c2 ih =>
    unfold getCommonParentBigallocRecursive
    by_cases heq : b1 = b2
    · rw [if_pos heq]
    · have h2 : b2 ≠ 0 := hd2.2 0 (Nat.succ_pos c2)
      have hup := (hasDepth_succ h2).mp hd2
      have hb' : Below t.up (t.up b2) b1 := (below_iff.mp hb).resolve_left (Ne.symm heq)
      obtain ⟨c, hle, hc, -⟩ := hup.of_below h.up_zero hb' h1
      obtain rfl := hc.unique hd1
      rw [if_neg heq, if_neg (hd1.pos h1).ne', if_neg (by omega)]
      exact ih hup hb'

/-- Otherwise it passes the first, and stops one level above it. -/
theorem commonParent_pass (hd2 : HasDepth t.up 0 b2 c2) (hle : c1 + 1 ≤ c2)
    (hb : ¬ Below t.up b2 b1) :
    ∃ b, HasDepth t.up 0 b c1 ∧ Below t.up b2 b
      ∧ t.getCommonParentBigallocRecursive b1 (c1 + 1) b2 c2
        = t.getCommonParentBigallocRecursive b1 (c1 + 1) b c1 := by
  induction c2 generalizing b2 with
  | zero => omega
  | succ c2 ih =>
    have h2 : b2 ≠ 0 := hd2.2 0 (Nat.succ_pos c2)
    have heq : b1 ≠ b2 := by
      rintro rfl
      exact hb (Below.refl t.up b1)
    have hup : HasDepth t.up 0 (t.up b2) c2 := (hasDepth_succ h2).mp hd2
    have hstep : t.getCommonParentBigallocRecursive b1 (c1 + 1) b2 (c2 + 1)
        = t.getCommonParentBigallocRecursive b1 (c1 + 1) (t.up b2) c2 := by
      rw [getCommonParentBigallocRecursive, if_neg heq, if_neg (Nat.succ_ne_zero c1),
        if_neg hle.not_gt]
      rfl
    rw [hstep]
    by_cases hc : c1 = c2
    · subst hc
      exact ⟨t.up b2, hup, (Below.refl t.up _).step, rfl⟩
    · obtain ⟨b, hdb, hbelow, hrun⟩ := ih hup (by omega) fun hc => hb hc.step
      exact ⟨b, hdb, hbelow.step, hrun⟩

/-! ### What it arrives at -/

/-- If the first record is not the deeper one, it and its parent are tried. -/
theorem Links.commonParent_level (h : t.Links 0) (h1 : b1 ≠ 0) (hd1 : HasDepth t.up 0 b1 d1)
    (hd2 : HasDepth t.up 0 b2 d2) (hle : d1 ≤ d2) :
    (t.Common b1 b2 b1 ∧ t.getCommonParentBigallocRecursive b1 d1 b2 d2 = b1)
      ∨ (¬ t.Common b1 b2 b1 ∧ t.up b1 ≠ 0 ∧ t.Common b1 b2 (t.up b1)
        ∧ t.getCommonParentBigallocRecursive b1 d1 b2 d2 = t.up b1)
      ∨ (¬ t.Common b1 b2 b1 ∧ (t.up b1 ≠ 0 → ¬ t.Common b1 b2 (t.up b1))
        ∧ t.getCommonParentBigallocRecursive b1 d1 b2 d2 = 0) := by
  by_cases hb : Below t.up b2 b1
  · exact .inl ⟨⟨Below.refl t.up b1, hb⟩, h.commonParent_of_below h1 hd1 hd2 hb⟩
  have hself : ¬ t.Common b1 b2 b1 := fun hc => hb hc.2
  obtain ⟨c, rfl⟩ := Nat.exists_eq_succ_of_ne_zero (hd1.pos h1).ne'
  obtain ⟨b, hdb, hbelow, hrun⟩ := commonParent_pass hd2 hle hb
  have hup : HasDepth t.up 0 (t.up b1) c := (hasDepth_succ h1).mp hd1
  rcases commonParent_climb t b1 b (Nat.lt_succ_self c) with
    ⟨k, hk, hkb, hr⟩ | ⟨hno, hr⟩
  · -- the depths say that it was one step
    have hk1 : k = 1 := by
      have hdk := hd1.iterate (Nat.le_succ_of_le hk)
      rw [hkb] at hdk
      have := hdk.unique hdb
      omega
    subst hk1
    have hb1 : t.up b1 = b := hkb
    subst hb1
    refine .inr (.inl ⟨hself, fun h0 => ?_, ⟨(Below.refl t.up _).step, hbelow⟩, hrun.trans hr⟩)
    rw [h0] at hdb
    have := hdb.unique ((hasDepth_null h.up_zero).mpr rfl)
    omega
  · refine .inr (.inr ⟨hself, fun h0 hc => ?_, hrun.trans hr⟩)
    have hb0 : b ≠ 0 := by
      rintro rfl
      have hc0 := hdb.unique ((hasDepth_null h.up_zero).mpr rfl)
      exact (hup.pos h0).ne' hc0
    have heq := hup.eq_of_below h.up_zero hdb hc.2 hbelow h0 hb0
    exact hno 1 (hup.pos h0) heq

/-- If the first record is the deeper one, the second is tried, so many levels up. -/
theorem Links.commonParent_deeper (h : t.Links 0) (h2 : b2 ≠ 0) (hd1 : HasDepth t.up 0 b1 d1)
    (hd2 : HasDepth t.up 0 b2 d2) (hlt : d2 < d1) :
    (t.Common b1 b2 b2 ∧ d1 ≤ 2 * d2 ∧ t.getCommonParentBigallocRecursive b1 d1 b2 d2 = b2)
      ∨ ((t.Common b1 b2 b2 → 2 * d2 < d1)
        ∧ t.getCommonParentBigallocRecursive b1 d1 b2 d2 = 0) := by
  rcases commonParent_climb t b1 b2 hlt with ⟨k, hk, hkb, hr⟩ | ⟨hno, hr⟩
  · have hdk := hd1.iterate (show k ≤ d1 by omega)
    rw [hkb] at hdk
    have hdepth := hdk.unique hd2
    exact .inl ⟨⟨⟨k, hkb⟩, Below.refl t.up b2⟩, by omega, hr⟩
  · refine .inr ⟨fun hc => ?_, hr⟩
    obtain ⟨k, hk⟩ := hc.1
    have hkd : k < d1 := by
      by_contra hge
      refine h2 ?_
      rw [← hk, ← Nat.sub_add_cancel (Nat.le_of_not_lt hge), Function.iterate_add_apply, hd1.1,
        iterate_null h.up_zero]
    have hdk := hd1.iterate hkd.le
    rw [hk] at hdk
    have hdepth := hdk.unique hd2
    have hfar : ¬ k ≤ d2 := fun hle => hno k hle hk
    omega

/-! ### The deepest one -/

/-- The deepest common ancestor, at depth `e`, of records at depths `d1` and `d2` is within the levels
that the search looks at.  Null has depth zero. -/
def WithinSearch (d1 d2 e : Nat) : Prop :=
  e = 0 ∨ (d1 ≤ d2 ∧ d1 ≤ e + 1) ∨ (d2 < d1 ∧ e = d2 ∧ d1 ≤ 2 * d2)

instance (d1 d2 e : Nat) : Decidable (WithinSearch d1 d2 e) := inferInstanceAs (Decidable (_ ∨ _))

theorem depth_common_eq (ha : t.DeepestSuchThat (t.Common b1 b2) a) (hda : HasDepth t.up 0 a e)
    (hr : t.InUse r) (hc : t.Common b1 b2 r) (hdr : HasDepth t.up 0 r f) (hle : e ≤ f) : e = f := by
  rcases ha with ⟨-, hnone⟩ | ⟨-, -, hmax⟩
  · exact absurd hc (hnone r hr)
  · exact Nat.le_antisymm hle (hmax r f e hr hc hdr hda)

theorem common_of_deepest (ha : t.DeepestSuchThat (t.Common b1 b2) a) (ha0 : a ≠ 0) :
    t.Common b1 b2 a :=
  (ha.resolve_left fun hc => ha0 hc.1).2.1

theorem Links.eq_of_depth_eq (h : t.Links 0) (hda : HasDepth t.up 0 a e) (hn0 : n ≠ 0)
    (hn : HasDepth t.up 0 n e) (hna : a ≠ 0 → Below t.up n a) : e = 0 ∨ n = a := by
  by_cases ha0 : a = 0
  · rw [ha0] at hda
    exact .inl (hda.unique ((hasDepth_null h.up_zero).mpr rfl))
  · exact .inr (hn.eq_of_below h.up_zero hda (Below.refl t.up n) (hna ha0) hn0 ha0)

section

variable (h : t.Links 0) (ha : t.DeepestSuchThat (t.Common b1 b2) a) (hda : HasDepth t.up 0 a e)
include h ha hda

theorem Links.deepest_common_iff (hr : t.InUse r) (hc : t.Common b1 b2 r)
    (hdr : HasDepth t.up 0 r f) :
    t.DeepestSuchThat (t.Common b1 b2) r ↔ e = f := by
  rcases ha with ⟨-, hnone⟩ | ⟨ha, hca, hmax⟩
  · exact absurd hc (hnone r hr)
  constructor
  · rintro (⟨rfl, -⟩ | ⟨-, -, hmax'⟩)
    · exact absurd rfl hr.ne_zero
    · exact Nat.le_antisymm (hmax' a e f ha hca hda hdr) (hmax r f e hr hc hdr hda)
  · rintro rfl
    rw [hdr.eq_of_below h.up_zero hda hc.1 hca.1 hr.ne_zero ha.ne_zero]
    exact .inr ⟨ha, hca, hmax⟩

theorem Links.deepest_common_null : t.DeepestSuchThat (t.Common b1 b2) 0 ↔ e = 0 := by
  constructor
  · rintro (⟨-, hnone⟩ | ⟨h0, -⟩)
    · rcases ha with ⟨rfl, -⟩ | ⟨ha, hca, -⟩
      · exact hda.unique ((hasDepth_null h.up_zero).mpr rfl)
      · exact absurd hca (hnone a ha)
    · exact absurd rfl h0.ne_zero
  · rintro rfl
    rw [(hasDepth_null h.up_zero).mp hda] at ha
    exact ha

theorem Links.depth_common_le (hd1 : HasDepth t.up 0 b1 d1) (hd2 : HasDepth t.up 0 b2 d2) :
    e ≤ d1 ∧ e ≤ d2 := by
  rcases ha with ⟨rfl, -⟩ | ⟨ha, hca, -⟩
  · rw [hda.unique ((hasDepth_null h.up_zero).mpr rfl)]
    exact ⟨Nat.zero_le d1, Nat.zero_le d2⟩
  · obtain ⟨f, hf, hdf, -⟩ := hd1.of_below h.up_zero hca.1 ha.ne_zero
    obtain ⟨g, hg, hdg, -⟩ := hd2.of_below h.up_zero hca.2 ha.ne_zero
    rw [hda.unique hdf]
    exact ⟨hf, by rw [hdf.unique hdg]; exact hg⟩

/-- If neither the first record nor its parent is common, nothing on that level is. -/
theorem Links.depth_eq_zero_of_not_common (hd1 : HasDepth t.up 0 (t.up b1) e)
    (hno : ¬ t.Common b1 b2 b1) (hno' : t.up b1 ≠ 0 → ¬ t.Common b1 b2 (t.up b1)) : e = 0 := by
  by_cases hup : t.up b1 = 0
  · rw [hup] at hd1
    exact hd1.unique ((hasDepth_null h.up_zero).mpr rfl)
  have hstep : a ≠ 0 → Below t.up (t.up b1) a := by
    intro ha0
    refine (below_iff.mp (common_of_deepest ha ha0).1).resolve_left ?_
    rintro rfl
    exact hno (common_of_deepest ha ha0)
  rcases h.eq_of_depth_eq hda hup hd1 hstep with h0 | heq
  · exact h0
  · rw [← heq] at ha
    exact absurd (common_of_deepest ha hup) (hno' hup)

variable (hd1 : HasDepth t.up 0 b1 d1)
include hd1

theorem Links.depth_ne_of_not_common (h1 : t.InUse b1) (hno : ¬ t.Common b1 b2 b1)
    (h0 : e ≠ 0) : e ≠ d1 := by
  rintro rfl
  rcases h.eq_of_depth_eq hda h1.ne_zero hd1 fun ha0 => (common_of_deepest ha ha0).1 with h0' | rfl
  · exact h0 h0'
  · exact hno (common_of_deepest ha h1.ne_zero)

variable (hd2 : HasDepth t.up 0 b2 d2)
include hd2

theorem Links.commonParent_deepest_iff_of_lt (h2 : t.InUse b2) (hlt : d2 < d1) :
    t.DeepestSuchThat (t.Common b1 b2) (t.getCommonParentBigallocRecursive b1 d1 b2 d2)
      ↔ WithinSearch d1 d2 e := by
  have he2 := (h.depth_common_le ha hda hd1 hd2).2
  rcases h.commonParent_deeper h2.ne_zero hd1 hd2 hlt with ⟨hc, hnear, hr⟩ | ⟨hfar, hr⟩
  · have hself := depth_common_eq ha hda h2 hc hd2 he2
    rw [hr, h.deepest_common_iff ha hda h2 hc hd2]
    exact ⟨fun _ => .inr (.inr ⟨hlt, hself, hnear⟩), fun _ => hself⟩
  · rw [hr, h.deepest_common_null ha hda]
    refine ⟨Or.inl, ?_⟩
    rintro (h0 | ⟨hle, -⟩ | ⟨-, heq, hnear⟩)
    · exact h0
    · omega
    · subst heq
      rcases h.eq_of_depth_eq hda h2.ne_zero hd2 fun ha0 => (common_of_deepest ha ha0).2 with
        h0 | rfl
      · exact h0
      · have := hfar (common_of_deepest ha h2.ne_zero)
        omega

theorem Links.commonParent_deepest_iff_of_le (h1 : t.InUse b1) (hle : d1 ≤ d2) :
    t.DeepestSuchThat (t.Common b1 b2) (t.getCommonParentBigallocRecursive b1 d1 b2 d2)
      ↔ WithinSearch d1 d2 e := by
  have he1 := (h.depth_common_le ha hda hd1 hd2).1
  have hpos := hd1.pos h1.ne_zero
  have hup1 : HasDepth t.up 0 (t.up b1) (d1 - 1) := hd1.iterate hpos
  rcases h.commonParent_level h1.ne_zero hd1 hd2 hle with
    ⟨hc, hr⟩ | ⟨hno, hup, hc, hr⟩ | ⟨hno, hno', hr⟩
  · have hself := depth_common_eq ha hda h1 hc hd1 he1
    rw [hr, h.deepest_common_iff ha hda h1 hc hd1]
    exact ⟨fun _ => .inr (.inl ⟨hle, by omega⟩), fun _ => hself⟩
  · have hin := h.up_inUse b1 h1 hup
    have hne := h.depth_ne_of_not_common ha hda hd1 h1 hno
    have hself := depth_common_eq ha hda hin hc hup1 (by omega)
    rw [hr, h.deepest_common_iff ha hda hin hc hup1]
    exact ⟨fun _ => .inr (.inl ⟨hle, by omega⟩), fun _ => hself⟩
  · rw [hr, h.deepest_common_null ha hda]
    refine ⟨Or.inl, ?_⟩
    rintro (h0 | ⟨-, hnear⟩ | ⟨hlt, -⟩)
    · exact h0
    · by_contra h0
      have hne := h.depth_ne_of_not_common ha hda hd1 h1 hno h0
      obtain rfl : e = d1 - 1 := by omega
      exact h0 (h.depth_eq_zero_of_not_common ha hda hup1 hno hno')
    · omega

/-- **The search is right when the answer is within the levels it looks at.** -/
theorem Links.commonParent_deepest_iff (h1 : t.InUse b1) (h2 : t.InUse b2) :
    t.DeepestSuchThat (t.Common b1 b2) (t.getCommonParentBigallocRecursive b1 d1 b2 d2)
      ↔ WithinSearch d1 d2 e := by
  rcases Nat.lt_or_ge d2 d1 with hlt | hle
  · exact h.commonParent_deepest_iff_of_lt ha hda hd1 hd2 h2 hlt
  · exact h.commonParent_deepest_iff_of_le ha hda hd1 hd2 h1 hle

end

/-! ### The whole call -/

/-- **`__liballocs_find_common_parent_bigalloc` finds the deepest common ancestor exactly when it is
within the levels searched.** -/
theorem findCommonParentBigalloc_deepest_iff (env : Env) (t : Table) (ptr end_ a b1 b2 d1 d2 e : Nat)
    (h : t.WellFormed) (h1 : t.InUse b1) (h2 : t.InUse b2)
    (hptr : t.DeepestSuchThat (ptr ∈ t.addrs ·) b1) (hend : t.DeepestSuchThat (end_ ∈ t.addrs ·) b2)
    (hd1 : HasDepth t.up 0 b1 d1) (hd2 : HasDepth t.up 0 b2 d2)
    (ha : t.DeepestSuchThat (t.Common b1 b2) a) (hda : HasDepth t.up 0 a e) :
    ∃ r, t.findCommonParentBigalloc env ptr end_ = some (r, t)
      ∧ (t.DeepestSuchThat (t.Common b1 b2) r ↔ WithinSearch d1 d2 e) := by
  -- the page index leads to both, so nobody is asked about an unindexed address
  have hfind : ∀ {x b}, t.InUse b → t.DeepestSuchThat (x ∈ t.addrs ·) b →
      t.findDeepestBigalloc env x = some (b, t) := by
    intro x b hb hx
    have hmem : x ∈ t.addrs b := (hx.resolve_left fun hc => hb.ne_zero hc.1).2.1
    obtain ⟨r, hr, hdeep⟩ : ∃ r, t.findDeepestBigalloc env x = some (r, t)
        ∧ t.DeepestSuchThat (x ∈ t.addrs ·) r :=
      h.findDeepestBigalloc_spec x fun h0 => absurd h0 (h.pageindex_ne_zero hb hmem)
    rw [hr, h.laminar_addrs.deepest_unique hdeep hx]
  have hdepth : ∀ {b d}, t.InUse b → HasDepth t.up 0 b d → t.bigallocDepth nbigallocs b = some d :=
    fun hb hd => h.links.bigallocDepth_eq hd (h.links.depth_lt hb hd).le
  refine ⟨t.getCommonParentBigallocRecursive b1 d1 b2 d2, ?_,
    h.links.commonParent_deepest_iff ha hda hd1 hd2 h1 h2⟩
  simp [findCommonParentBigalloc, hfind h1 hptr, hfind h2 hend, hdepth h1 hd1, hdepth h2 hd2,
    some_bind, Option.pure_def]

/-- Three bigallocs, each in the one before. -/
def sampleTall : Option (List Nat × Table) :=
  createAll sampleEnv [] {} [sampleOuter,
    { ptr := 5000, size := 9000, maybeParent := 1, allocatedBy := some .genericMalloc },
    { ptr := 6000, size := 1000, maybeParent := 2, allocatedBy := some .genericMalloc }]

/-- What `sampleTall` makes, with the deepest record at three addresses. -/
def IsDeep (t : Table) : Prop :=
  (t.InUse 1 ∧ t.InUse 2 ∧ t.InUse 3)
    ∧ ((t.bigAllocations 1).parent = 0 ∧ (t.bigAllocations 2).parent = 1
      ∧ (t.bigAllocations 3).parent = 2)
    ∧ (t.leafBigallocFor 4500 = some 1 ∧ t.leafBigallocFor 5500 = some 2
      ∧ t.leafBigallocFor 6500 = some 3)

instance (t : Table) : Decidable (IsDeep t) := inferInstanceAs (Decidable (_ ∧ _))

theorem sampleTall_isDeep : ∃ used t, sampleTall = some (used, t) ∧ t.WellFormed ∧ IsDeep t := by
  obtain ⟨used, t, ht, hn⟩ : ∃ used t, sampleTall = some (used, t) ∧ IsDeep t := by
    decide +kernel
  exact ⟨used, t, ht, (sample_empty.createAll_wellFormed ht).1, hn⟩

namespace IsDeep

theorem hasDepth (hn : IsDeep t) (h : t.WellFormed) :
    HasDepth t.up 0 1 1 ∧ HasDepth t.up 0 2 2 ∧ HasDepth t.up 0 3 3 := by
  obtain ⟨-, ⟨hup1, hup2, hup3⟩, -⟩ := hn
  have hd1 : HasDepth t.up 0 1 1 := (hasDepth_succ (by decide)).mpr
    ((hasDepth_null h.links.up_zero).mpr hup1)
  have hd2 : HasDepth t.up 0 2 2 := (hasDepth_succ (by decide)).mpr
    (by rw [show t.up 2 = 1 from hup2]; exact hd1)
  refine ⟨hd1, hd2, (hasDepth_succ (by decide)).mpr ?_⟩
  rw [show t.up 3 = 2 from hup3]
  exact hd2

theorem deepest {a : Nat} (h : t.WellFormed) (ha : t.leafBigallocFor a = some r) :
    t.DeepestSuchThat (a ∈ t.addrs ·) r := by
  obtain ⟨r', hr', hdeep⟩ := h.leafBigallocFor_spec a
  obtain rfl := Option.mem_unique hr' ha
  exact hdeep

theorem common {n : Nat} (h : t.WellFormed) (hin : t.InUse n) (hbelow : Below t.up 3 n)
    (hd : HasDepth t.up 0 n d) : t.DeepestSuchThat (t.Common 3 n) n := by
  refine .inr ⟨hin, ⟨hbelow, Below.refl t.up n⟩, fun m f g hm hc hf hg => ?_⟩
  obtain ⟨e, hle, he, -⟩ := hd.of_below h.links.up_zero hc.2 hm.ne_zero
  rw [hf.unique he, hg.unique hd]
  exact hle

end IsDeep

/-- Of the innermost record and the one around it, that one is found. -/
theorem findCommonParentBigalloc_deepest_sample : ∃ used t, sampleTall = some (used, t)
    ∧ ∃ r, t.findCommonParentBigalloc sampleEnv 6500 5500 = some (r, t)
      ∧ t.DeepestSuchThat (t.Common 3 2) r := by
  obtain ⟨used, t, ht, hwf, hn⟩ := sampleTall_isDeep
  obtain ⟨-, hd2, hd3⟩ := hn.hasDepth hwf
  obtain ⟨⟨-, h2, h3⟩, ⟨-, -, hup3⟩, -, ha2, ha3⟩ := hn
  have hcommon : t.DeepestSuchThat (t.Common 3 2) 2 := IsDeep.common hwf h2 ⟨1, hup3⟩ hd2
  obtain ⟨r, hr, hiff⟩ := findCommonParentBigalloc_deepest_iff sampleEnv t 6500 5500 2 3 2 3 2 2 hwf
    h3 h2 (IsDeep.deepest hwf ha3) (IsDeep.deepest hwf ha2) hd3 hd2 hcommon hd2
  exact ⟨used, t, ht, r, hr, hiff.mpr (by decide)⟩

/-- Of the innermost record and the outermost, the outermost is not found. -/
theorem findCommonParentBigalloc_null : ∃ used t, sampleTall = some (used, t) ∧ t.WellFormed
    ∧ t.DeepestSuchThat (6500 ∈ t.addrs ·) 3 ∧ t.DeepestSuchThat (4500 ∈ t.addrs ·) 1
    ∧ t.DeepestSuchThat (t.Common 3 1) 1
    ∧ ∃ t', t.findCommonParentBigalloc sampleEnv 6500 4500 = some (0, t') := by
  obtain ⟨used, t, ht, hwf, hn⟩ := sampleTall_isDeep
  obtain ⟨hd1, -, hd3⟩ := hn.hasDepth hwf
  obtain ⟨⟨h1, -, h3⟩, ⟨-, hup2, hup3⟩, ha1, -, ha3⟩ := hn
  have hbelow : Below t.up 3 1 := by
    refine ⟨2, ?_⟩
    rw [Function.iterate_succ_apply, show t.up 3 = 2 from hup3]
    exact hup2
  refine ⟨used, t, ht, hwf, IsDeep.deepest hwf ha3, IsDeep.deepest hwf ha1,
    IsDeep.common hwf h1 hbelow hd1, ?_⟩
  obtain ⟨x, hx, r, t', hrun, rfl⟩ : ∃ x, sampleTall = some x
      ∧ ∃ r t', x.2.findCommonParentBigalloc sampleEnv 6500 4500 = some (r, t') ∧ r = 0 := by
    decide +kernel
  obtain rfl := Option.mem_unique hx ht
  exact ⟨t', hrun⟩

end Liballocs.Table
