/-
Punching a hole into a top-level record.

`Punched` is the table with a hole from `a` up to `e` in `b`; a split has an empty hole.  Children
inside the hole, or across its bounds, stay.  The hole is made in two steps, a split at its end and a
truncation of the first half, and each step keeps `Punched` with other bounds.
-/
import Liballocs.Proofs.SplitRecord
import Liballocs.Proofs.Trim

namespace Liballocs.Table

open Forest

variable {t t₁ t' : Table} {a b e m n new p q : Nat}

/-! ### The hole -/

/-- `t'` is `t` but for records, page index and private heap, which may have one block less. -/
def SameStaticsButHeap (t t' : Table) : Prop :=
  t' = { t with
    bigAllocations := t'.bigAllocations, pageindex := t'.pageindex, sequences := t'.sequences,
    nextPrivate := t'.nextPrivate }

/-- `t'` is `t` with a hole from `a` up to `e` in the top-level record `b`.  Behind it is the record
`new`, with the sequence at `p`. -/
structure Punched (t : Table) (b a e new p : Nat) (t' : Table) : Prop where
  links : t'.Links 0
  free : ¬ t.InUse new
  inUse : t'.InUse new
  before : (t'.bigAllocations b).core = { (t.bigAllocations b).core with end_ := a }
  behind : (t'.bigAllocations new).core
    = { (t.bigAllocations b).core with begin := e, allocatorPrivate := p }
  others : ∀ n, n ≠ b → n ≠ new →
    (t'.bigAllocations n).core = { (t.bigAllocations n).core with
      parent := if t.up n = b ∧ e ≤ (t.bigAllocations n).begin then new else t.up n }
  pages : ∀ q, t'.pageindex q
    = if a ≤ q * pageSize ∧ q * pageSize < e then 0
      else if e ≤ q * pageSize ∧ q * pageSize < (t.bigAllocations b).end_ ∧ t.pageindex q = b then new
      else t.pageindex q
  statics : t.SameStaticsButHeap t'

theorem WellFormed.splitBigallocAtPageBoundary_eq (h : t.WellFormed) (hb : t.Top b)
    (h1 : (t b).begin < e) (h2 : e < (t b).end_)
    (hnew : t.findFreeBigalloc = some new) :
    ∃ t', t.splitBigallocAtPageBoundary b e = some (new, t')
      ∧ t.Punched b e e new (t b).allocatorPrivate t' ∧ t'.sequences = t.sequences
      ∧ t'.nextPrivate = t.nextPrivate := by
  obtain ⟨t', hrun, hs⟩ := h.splitBigallocAtPageBoundary_at hb.1 h1 h2 hnew
  refine ⟨t', hrun, ⟨hs.links, hs.free, hs.inUse, hs.before, hs.behind, hs.others, fun q => ?_, ?_⟩,
    by rw [hs.rest], by rw [hs.rest]⟩
  · have hcond : ¬ (e ≤ q * pageSize ∧ q * pageSize < e) := by omega
    rw [if_neg hcond]
    exact hs.pages q
  · rw [SameStaticsButHeap, hs.rest]

namespace Punched

variable (hp : t.Punched b a e new p t')
include hp

theorem ne (hb : t.InUse b) : b ≠ new := fun hc => hp.free (hc ▸ hb)

theorem begin_eq (hnn : n ≠ new) : (t' n).begin = (t n).begin := by
  by_cases hnb : n = b
  · have := congrArg (·.begin) hp.before
    exact hnb ▸ this
  · exact (congrArg (·.begin) (hp.others n hnb hnn) :)

theorem end_eq (hnn : n ≠ new) : (t' n).end_ = if n = b then a else (t n).end_ := by
  split
  · rename_i hnb
    have := congrArg (·.end_) hp.before
    exact hnb ▸ this
  · rename_i hnb
    exact (congrArg (·.end_) (hp.others n hnb hnn) :)

theorem begin_new : (t' new).begin = e := (congrArg (·.begin) hp.behind :)

theorem end_new : (t' new).end_ = (t b).end_ := (congrArg (·.end_) hp.behind :)

theorem up_eq (hb : t.Top b) (hnn : n ≠ new) :
    t'.up n = if t.up n = b ∧ e ≤ (t n).begin then new else t.up n := by
  by_cases hnb : n = b
  · have := congrArg (·.parent) hp.before
    subst hnb
    rw [if_neg fun hc => hb.1.ne_zero (hc.1.symm.trans hb.2)]
    exact this
  · exact (congrArg (·.parent) (hp.others n hnb hnn) :)

theorem up_new (hb : t.Top b) : t'.up new = 0 := by
  have := congrArg (·.parent) hp.behind
  exact this.trans hb.2

theorem inUse_iff (ha : a ≠ 0) (hb : t.InUse b) : t'.InUse n ↔ t.InUse n ∨ n = new := by
  by_cases hnn : n = new
  · simp [hnn, hp.inUse]
  · have h1 := hb.2.2.2
    simp only [InUse, hp.begin_eq hnn, hp.end_eq hnn, hnn, or_false]
    split
    · rename_i hnb
      rw [hnb]
      exact ⟨fun h => ⟨h.1, h.2.1, h.2.2.1, h1⟩, fun h => ⟨h.1, h.2.1, h.2.2.1, ha⟩⟩
    · exact Iff.rfl

theorem top_iff (ha : a ≠ 0) (hb : t.Top b) : t'.Top n ↔ t.Top n ∨ n = new := by
  by_cases hnn : n = new
  · simp [hnn, Top, hp.inUse, hp.up_new hb]
  · simp only [Top, hp.inUse_iff ha hb.1, hnn, or_false, hp.up_eq hb hnn]
    split
    · rename_i hc
      have h1 := hp.inUse.ne_zero
      have h2 := hb.1.ne_zero
      simp [h1, hc.1, h2]
    · exact Iff.rfl

theorem apart (h : t.WellFormed) (hb : t.Top b) (h1 : (t b).begin < a) (hae : a ≤ e)
    (he : e < (t b).end_) (hm : t'.Top m) (hn : t'.Top n) (hne : m ≠ n) : t'.Apart m n := by
  have key : ∀ m, t.Top m → t'.Apart m new := by
    intro m hm
    have hmn : m ≠ new := fun hc => hp.free (hc ▸ hm.1)
    simp only [Apart, hp.begin_new, hp.end_new, hp.begin_eq hmn, hp.end_eq hmn]
    split
    · exact .inl hae
    · rename_i hmb
      rcases h.apart_top hm hb hmb with h3 | h3
      · exact .inl (by omega)
      · exact .inr h3
  rcases (hp.top_iff (by omega) hb).mp hm with hm | rfl
  · rcases (hp.top_iff (by omega) hb).mp hn with hn | rfl
    · have hmn : m ≠ new := fun hc => hp.free (hc ▸ hm.1)
      have hnn : n ≠ new := fun hc => hp.free (hc ▸ hn.1)
      simp only [Apart, hp.begin_eq hmn, hp.end_eq hmn, hp.begin_eq hnn, hp.end_eq hnn]
      rcases h.apart_top hm hn hne with h3 | h3
      · refine .inl ?_
        split <;> [(rename_i hmb; subst hmb; omega); exact h3]
      · refine .inr ?_
        split <;> [(rename_i hmb; subst hmb; omega); exact h3]
    · exact key m hm
  · rcases (hp.top_iff (by omega) hb).mp hn with hn | rfl
    · exact (key n hn).symm
    · exact absurd rfl hne

omit hp in
theorem truncate (hp : t.Punched b e e new p t₁) (h : t.WellFormed) (hb : t.Top b)
    (h1 : (t b).begin < a) (hae : a < e) (he : e < (t b).end_)
    (haa : PageAligned a) (hea : PageAligned e) :
    t.Punched b a e new p ((t₁.setBounds b (t₁ b).begin a).setPages (pagenum a) (pagenum e) 0) := by
  have hbn := hp.ne hb.1
  have hb1 : t₁.Top b := (hp.top_iff (by omega) hb).mpr (.inl hb)
  have hbegin := hp.begin_eq hbn
  have hend : (t₁ b).end_ = e := by
    rw [hp.end_eq hbn, if_pos rfl]
  have hlinks : (t₁.setBounds b (t₁ b).begin a).Links 0 :=
    hp.links.shrink hb1.1 (by rw [hbegin]; exact hb.1.2.2.1) le_rfl (by omega) (by omega)
      fun n hn hup hne => hp.apart h hb (by omega) le_rfl he ⟨hn, hup⟩ hb1 hne
  refine ⟨hlinks.of_eq rfl rfl, hp.free, ?_, ?_, ?_, fun n hnb hnn => ?_, fun q => ?_, ?_⟩
  · exact (setBounds_inUse hb1.1 (by rw [hbegin]; exact hb.1.2.2.1) (by omega)).mpr hp.inUse
  · show ((t₁.setBounds b _ a) b).core = _
    rw [setBounds_self, hbegin]
    have := congrArg (fun r : BigAllocation =>
      { r with begin := (t b).begin, end_ := a }) hp.before
    exact this
  · show ((t₁.setBounds b _ a) new).core = _
    rw [setBounds_of_ne (Ne.symm hbn), hp.behind]
  · show ((t₁.setBounds b _ a) n).core = _
    rw [setBounds_of_ne hnb, hp.others n hnb hnn]
  · rw [setPages_pageindex_aligned _ 0 haa hea]
    show (if _ then 0 else t₁.pageindex q) = _
    have hcond : ¬ (e ≤ q * pageSize ∧ q * pageSize < e) := by omega
    rw [hp.pages q, if_neg hcond]
  · have hst := hp.statics
    rw [SameStaticsButHeap] at hst ⊢
    rw [setPages, setBounds, modify, hst]

omit hp in
/-- Sequences and private heap do not matter, and the second half may get another sequence. -/
theorem setAllocatorPrivate {p' : Nat} {t2 : Table} (hp : t.Punched b a e new p t₁) (hb : t.InUse b)
    (hrecs : t2.bigAllocations = (t₁.modify new fun r =>
      { r with allocatorPrivate := p' }).bigAllocations)
    (hpages : t2.pageindex = t₁.pageindex) (hst : t₁.SameStaticsButHeap t2) :
    t.Punched b a e new p' t2 := by
  have hbn := hp.ne hb
  have hnew : t2 new = { t₁ new with allocatorPrivate := p' } := by
    rw [hrecs]
    exact if_pos rfl
  have hold : ∀ n, n ≠ new → t2 n = t₁ n := by
    intro n hn
    rw [hrecs]
    exact if_neg hn
  have hstart : t2.start = t₁.start := by
    rw [hst]
  have hlinks : t2.Links 0 := by
    refine hp.links.of_shape (fun n => ?_) (hold 0 hp.inUse.ne_zero.symm) hstart
    by_cases hn : n = new
    · rw [hn, hnew]
      rfl
    · rw [hold n hn]
  refine ⟨hlinks, hp.free, ?_, ?_, ?_, fun n hnb hnn => ?_, fun q => ?_, ?_⟩
  · have := hp.inUse
    simpa only [InUse, hnew] using this
  · rw [hold b hbn, hp.before]
  · rw [hnew]
    have := congrArg (fun r : BigAllocation => { r with allocatorPrivate := p' }) hp.behind
    exact this
  · rw [hold n hnn, hp.others n hnb hnn]
  · rw [hpages, hp.pages q]
  · have h1 := hp.statics
    rw [SameStaticsButHeap] at h1 hst ⊢
    rw [hst, h1]

end Punched

end Liballocs.Table
