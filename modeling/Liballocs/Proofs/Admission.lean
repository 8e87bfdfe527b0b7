/-
Which requests `__liballocs_new_bigalloc` lets in when it has to find the parent itself.

It compares the deepest bigallocs at the first and at the last byte of the request; what lies between
is looked at by an assertion only.  So a request over other bigallocs is let in, and the ranges are no
longer nested.
-/
import Liballocs.Proofs.Truncate

namespace Liballocs.Table

open Forest

variable {env : Env} {t t' : Table} {b n p : Nat} {r : NewRequest}

/-! ### A creation that may have something in its way -/

theorem addToplevel_cases (h : t.addToplevel b = some t') : ∃ p q, t' = t.insertedTop b p q := by
  have h' := h
  obtain ⟨q, hq, h'⟩ := of_bind h'
  obtain ⟨p, hp, -⟩ := of_bind h'
  exact ⟨p, q, Option.some.inj (h.symm.trans (addToplevel_eq hq hp))⟩

theorem bigallocInitNomemset_made {r : BigAllocation} (hup : t.up b = 0) (hbp : b ≠ p)
    (h : t.bigallocInitNomemset b r p = some t') : t.Made b r p t' := by
  change (if p ≠ 0 then some ((t.place b r).addChild b p) else (t.place b r).addToplevel b)
    = some t' at h
  by_cases hp : p = 0
  · rw [if_neg (not_not.mpr hp)] at h
    obtain ⟨p', q', rfl⟩ := addToplevel_cases h
    refine ⟨fun n hn => ?_, ?_, rfl⟩
    · simp [insertedTop, relinked, BigAllocation.core, place_of_ne hn, up]
    · simp [insertedTop, relinked, BigAllocation.core, place_self, hup, hp]
  · rw [if_pos hp, addChild_eq hbp] at h
    obtain rfl := Option.some.inj h
    refine ⟨fun n hn => ?_, ?_, rfl⟩
    · simp [relinked, BigAllocation.core, place_of_ne hn, up, hn]
    · simp [relinked, BigAllocation.core, place_self]

theorem newBigalloc_made (h : t.Links 0) (hparent : t.newBigallocParent env r = some (p, t))
    (hp : p ≠ 0 → t.InUse p) (hnew : t.newBigalloc env r = some (b, t')) :
    (0 < b ∧ b < nbigallocs ∧ ¬ t.InUse b) ∧ ∃ t1, t.Made b (NewRequest.record r) p t1
        ∧ t' = t1.setPages (pagenum (roundUp r.ptr pageSize))
          (pagenum (roundDown (r.ptr + r.size) pageSize)) b := by
  unfold newBigalloc at hnew
  split at hnew
  · cases hnew
  rw [hparent] at hnew
  simp only [some_bind] at hnew
  obtain ⟨b', hfree, hnew⟩ := of_bind hnew
  obtain ⟨t2, hinit, hnew⟩ := of_bind hnew
  obtain ⟨rfl, rfl⟩ : b' = b ∧ t2 = t' := by simpa using hnew
  obtain ⟨t1, hinit, hmem⟩ := of_bind hinit
  obtain ⟨hlo, hhi, hb⟩ := findFreeBigalloc_eq_some hfree
  have hbp : b' ≠ p := by
    intro hc
    by_cases hp0 : p = 0
    · exact hlo.ne' (hc.trans hp0)
    · exact hb (hc ▸ hp hp0)
  have hmade := bigallocInitNomemset_made (h.free b' hb) hbp hinit
  refine ⟨⟨hlo, hhi, hb⟩, t1, hmade, ?_⟩
  rw [hmade.begin_eq, hmade.end_eq] at hmem
  exact ((memset_eq_some_iff env t1 t2 _ _ (hhi.trans (by decide))).mp hmem).2

/-! ### Who may be in the way -/

section

variable (h : t.WellFormed) (hparent : r.maybeParent = 0) (hq1 : QuietAt env t r.ptr)
  (hq2 : QuietAt env t (r.ptr + r.size - 1))
include h hparent hq1 hq2

/-- The parent settled on is the deepest record at both the first and the last byte. -/
theorem WellFormed.newBigallocParent_deepest {p : Nat} {t1 : Table}
    (hrun : t.newBigallocParent env r = some (p, t1)) :
    t1 = t ∧ t.DeepestSuchThat (r.ptr ∈ t.addrs ·) p
      ∧ t.DeepestSuchThat (r.ptr + r.size - 1 ∈ t.addrs ·) p := by
  obtain ⟨p1, hp1, hd1⟩ := h.findDeepestBigalloc_spec r.ptr hq1
  obtain ⟨p2, hp2, hd2⟩ := h.findDeepestBigalloc_spec (r.ptr + r.size - 1) hq2
  unfold newBigallocParent at hrun
  rw [if_neg (not_not.mpr hparent), hp1] at hrun
  simp only [some_bind, hp2] at hrun
  split at hrun
  · cases hrun
  rename_i heq
  split at hrun
  · cases hrun
  obtain ⟨rfl, rfl⟩ : p1 = p ∧ t = t1 := by simpa using hrun
  exact ⟨rfl, hd1, by rw [not_not.mp heq]; exact hd2⟩

theorem WellFormed.newBigalloc_parent {b : Nat} (hnew : t.newBigalloc env r = some (b, t')) :
    ∃ p, t.newBigallocParent env r = some (p, t) ∧ (p ≠ 0 → t.InUse p)
      ∧ t.DeepestSuchThat (r.ptr ∈ t.addrs ·) p
      ∧ t.DeepestSuchThat (r.ptr + r.size - 1 ∈ t.addrs ·) p := by
  unfold newBigalloc at hnew
  split at hnew
  · cases hnew
  obtain ⟨⟨p, t1⟩, hrun, -⟩ := of_bind hnew
  obtain ⟨rfl, hd1, hd2⟩ := h.newBigallocParent_deepest hparent hq1 hq2 hrun
  refine ⟨p, hrun, fun hp => ?_, hd1, hd2⟩
  exact ((h.laminar_addrs.deepest_iff.mp hd1).resolve_left fun hc => hp hc.1).1

end

namespace Made

variable {r : BigAllocation}

theorem addrs_of_ne (hm : t.Made b r p t') (hn : n ≠ b) : t'.addrs n = t.addrs n := by
  obtain ⟨h1, h2, -⟩ := hm.old hn
  rw [addrs, h1, h2]
  rfl

theorem addrs_self (hm : t.Made b r p t') : t'.addrs b = { a | r.begin ≤ a ∧ a < r.end_ } := by
  rw [addrs, hm.begin_eq, hm.end_eq]

theorem below_iff (hm : t.Made b r p t') (h : t.Links 0) (hb : ¬ t.InUse b) (hb0 : b ≠ 0)
    (hp : p ≠ b) (hn : n ≠ b) : Below t'.up b n ↔ Below t.up p n := by
  have hup : Below t'.up p n ↔ Below t.up p n :=
    below_congr (P := (· ≠ b)) (fun x hx => ⟨(hm.old hx).2.2, fun hc =>
      hb (h.up_eq_inUse hc hb0).2⟩) hp
  rw [Forest.below_iff, hm.up_eq]
  constructor
  · intro hc
    exact hup.mp (hc.resolve_left hn.symm)
  · intro hc
    exact .inr (hup.mpr hc)

end Made

/-- The record `b` of `t'` is inside its ancestors and apart from every other record of `t`. -/
def ProperlyNested (t : Table) (b : Nat) (t' : Table) : Prop :=
  ∀ n, t.InUse n → (Below t'.up b n ∧ t'.addrs b ⊆ t'.addrs n) ∨ Disjoint (t'.addrs b) (t'.addrs n)

/-- No bigalloc lies strictly between the first and the last byte. -/
def NoneBetween (t : Table) (ptr size : Nat) : Prop :=
  ∀ n, t.InUse n → ¬ (ptr < (t.bigAllocations n).begin ∧ (t.bigAllocations n).end_ < ptr + size)

/-- A record that meets the request without its first or last byte is between them. -/
theorem NoneBetween.disjoint {ptr size : Nat} (hnone : t.NoneBetween ptr size) (hn : t.InUse n)
    (h1 : ptr ∉ t.addrs n) (h2 : ptr + size - 1 ∉ t.addrs n) :
    Disjoint { a | ptr ≤ a ∧ a < ptr + size } (t.addrs n) := by
  rw [Set.disjoint_left]
  intro a ha hc
  simp only [addrs, Set.mem_ofPred_eq] at ha h1 h2 hc
  exact hnone n hn (by omega)

theorem subset_addrs {ptr size : Nat} (h1 : ptr ∈ t.addrs n) (h2 : ptr + size - 1 ∈ t.addrs n) :
    { a | ptr ≤ a ∧ a < ptr + size } ⊆ t.addrs n := by
  intro a ha
  simp only [addrs, Set.mem_ofPred_eq] at ha h1 h2 ⊢
  omega

/-- **A request without a parent is nested properly exactly when no bigalloc lies strictly inside
it.** -/
theorem newBigalloc_properlyNested_iff (env : Env) (t t' : Table) (r : NewRequest) (b : Nat)
    (h : t.WellFormed) (hparent : r.maybeParent = 0) (hq1 : QuietAt env t r.ptr)
    (hq2 : QuietAt env t (r.ptr + r.size - 1)) (hnew : t.newBigalloc env r = some (b, t')) :
    t.ProperlyNested b t' ↔ t.NoneBetween r.ptr r.size := by
  obtain ⟨p, hrun, hp, hd1, hd2⟩ := h.newBigalloc_parent hparent hq1 hq2 hnew
  have hlam := h.laminar_addrs
  have hd1' := hlam.deepest_iff.mp hd1
  have hd2' := hlam.deepest_iff.mp hd2
  obtain ⟨⟨hb0, -, hb⟩, t1, hmade, rfl⟩ := newBigalloc_made h.links hrun hp hnew
  have hpb : p ≠ b := by
    intro hc
    by_cases hp0 : p = 0
    · omega
    · exact hb (hc ▸ hp hp0)
  have hself : t1.addrs b = { a | r.ptr ≤ a ∧ a < r.ptr + r.size } := hmade.addrs_self
  have hold : ∀ n, t.InUse n → t1.addrs n = t.addrs n := fun n hn =>
    hmade.addrs_of_ne fun hc => hb (hc ▸ hn)
  have habove : ∀ n, t.InUse n → (Below t1.up b n ↔ Below t.up p n) := fun n hn =>
    hmade.below_iff h.links hb hb0.ne' hpb fun hc => hb (hc ▸ hn)
  have hholds : ∀ n, t.InUse n → Below t.up p n →
      r.ptr ∈ t.addrs n ∧ r.ptr + r.size - 1 ∈ t.addrs n := by
    intro n hn hbelow
    have hp0 : p ≠ 0 := by
      rintro rfl
      exact hn.ne_zero (eq_null_of_below h.links.up_zero hbelow)
    have hsub := hlam.subset_of_below (hp hp0) hbelow hn.ne_zero
    exact ⟨hsub (hd1'.resolve_left fun hc => hp0 hc.1).2.1,
      hsub (hd2'.resolve_left fun hc => hp0 hc.1).2.1⟩
  have hcatch : ∀ n, t.InUse n → r.ptr ∈ t.addrs n ∨ r.ptr + r.size - 1 ∈ t.addrs n →
      Below t.up p n := by
    intro n hn hor
    rcases hor with hin | hin
    · exact (hd1'.resolve_left fun hc => hc.2 n hn hin).2.2 n hn hin
    · exact (hd2'.resolve_left fun hc => hc.2 n hn hin).2.2 n hn hin
  constructor
  · intro hnest n hn hbetween
    have hbounds := h.bounds n hn
    rcases hnest n hn with ⟨hbelow, -⟩ | hdis
    · have hin := (hholds n hn ((habove n hn).mp hbelow)).1
      simp only [addrs, Set.mem_ofPred_eq] at hin
      omega
    · change Disjoint (t1.addrs b) (t1.addrs n) at hdis
      rw [hself, hold n hn, Set.disjoint_left] at hdis
      exact hdis (a := (t n).begin) ⟨hbetween.1.le, by omega⟩ ⟨le_rfl, hbounds⟩
  · intro hnone n hn
    change (Below t1.up b n ∧ t1.addrs b ⊆ t1.addrs n) ∨ Disjoint (t1.addrs b) (t1.addrs n)
    rw [hself, hold n hn, habove n hn]
    by_cases hbelow : Below t.up p n
    · obtain ⟨h1, h2⟩ := hholds n hn hbelow
      exact .inl ⟨hbelow, subset_addrs h1 h2⟩
    · exact .inr (hnone.disjoint hn (fun hc => hbelow (hcatch n hn (.inl hc)))
        fun hc => hbelow (hcatch n hn (.inr hc)))

/-- Beside the child `[5000, 14000)` there is room for another. -/
theorem newBigalloc_properlyNested_sample : ∃ used t b t', sampleNested 5000 9000 = some (used, t)
    ∧ t.newBigalloc sampleEnv { ptr := 15000, size := 1000, allocatedBy := none } = some (b, t')
    ∧ t.ProperlyNested b t' := by
  obtain ⟨used, t, ht, b, t', hrun, hn⟩ : ∃ used t, sampleNested 5000 9000 = some (used, t)
      ∧ ∃ b t', t.newBigalloc sampleEnv { ptr := 15000, size := 1000, allocatedBy := none }
        = some (b, t') ∧ IsNested used t 5000 14000 := by
    decide +kernel
  obtain ⟨hwf, hidle, hused, -⟩ := sample_empty.createAll_wellFormed ht
  have hquiet : ∀ a, QuietAt sampleEnv t a := fun a _ => ⟨false, hidle.notifyUnindexedAddress_eq a⟩
  refine ⟨used, t, b, t', ht, hrun, (newBigalloc_properlyNested_iff sampleEnv t t' _ b hwf rfl
    (hquiet _) (hquiet _) hrun).mpr fun n hin hc => ?_⟩
  rcases hn.eq_of_inUse hused hin with rfl | rfl
  · rw [hn.inner.2.2.1] at hc
    exact absurd hc.1 (by decide)
  · rw [hn.outer.2.2.1] at hc
    exact absurd hc.1 (by decide)

/-- A request around the child, inside the outer record, becomes its sibling. -/
theorem newBigalloc_over_sibling : ∃ used t b t', sampleNested 5000 9000 = some (used, t)
    ∧ t.WellFormed
    ∧ t.newBigalloc sampleEnv { ptr := 4500, size := 15000, allocatedBy := none } = some (b, t')
    ∧ t.InUse 2 ∧ t'.up b = 1 ∧ t'.up 2 = 1 ∧ b ≠ 2 ∧ 6000 ∈ t'.addrs b ∧ 6000 ∈ t'.addrs 2 := by
  obtain ⟨used, t, ht, b, t', hrun, h⟩ : ∃ used t, sampleNested 5000 9000 = some (used, t)
      ∧ ∃ b t', t.newBigalloc sampleEnv { ptr := 4500, size := 15000, allocatedBy := none }
        = some (b, t') ∧ t.InUse 2 ∧ t'.up b = 1 ∧ t'.up 2 = 1 ∧ b ≠ 2
          ∧ ((t' b).begin ≤ 6000 ∧ 6000 < (t' b).end_)
          ∧ ((t' 2).begin ≤ 6000 ∧ 6000 < (t' 2).end_) := by
    decide +kernel
  exact ⟨used, t, b, t', ht, (sample_empty.createAll_wellFormed ht).1, hrun, h⟩

end Liballocs.Table
