/-
Moving the bounds of a record.

Truncating and extending change the bounds and the page index between the old and the new one, not the
links and not the records below.  The top-level list stays in order while the range keeps its place.
-/
import Liballocs.Proofs.WellFormed

namespace Liballocs.Table

open Forest

variable {env : Env} {t t' : Table} {b d hi lo n q a : Nat}

/-- A record gets new bounds. -/
def setBounds (t : Table) (b lo hi : Nat) : Table :=
  t.modify b fun r => { r with begin := lo, end_ := hi }

theorem setBounds_self (t : Table) (b lo hi : Nat) :
    (t.setBounds b lo hi) b = { t b with begin := lo, end_ := hi } := if_pos rfl

theorem setBounds_of_ne (hn : n ≠ b) :
    (t.setBounds b lo hi) n = t n := if_neg hn

@[simp] theorem setBounds_up : (t.setBounds b lo hi).up = t.up := by
  funext n
  simp only [up, setBounds, modify_bigAllocations]
  split <;> rfl

@[simp] theorem setBounds_first : (t.setBounds b lo hi).first = t.first := by
  funext n
  simp only [first, setBounds, modify_bigAllocations]
  split <;> rfl

@[simp] theorem setBounds_next : (t.setBounds b lo hi).next = t.next := by
  funext n
  simp only [next, setBounds, modify_bigAllocations]
  split <;> rfl

@[simp] theorem setBounds_prev : (t.setBounds b lo hi).prev = t.prev := by
  funext n
  simp only [prev, setBounds, modify_bigAllocations]
  split <;> rfl

theorem setBounds_inUse (hb : t.InUse b) (hlo : lo ≠ 0) (hhi : hi ≠ 0) :
    (t.setBounds b lo hi).InUse n ↔ t.InUse n := by
  by_cases hn : n = b
  · subst hn
    simp only [InUse, setBounds_self]
    exact ⟨fun _ => hb, fun _ => ⟨hb.1, hb.2.1, hlo, hhi⟩⟩
  · simp [InUse, setBounds_of_ne hn]

theorem ChildList.setBounds {p : Nat} {l : List Nat} (hl : t.ChildList p l) (hb : t.InUse b)
    (hlo : lo ≠ 0) (hhi : hi ≠ 0) : (t.setBounds b lo hi).ChildList p l := by
  refine hl.transport (by simp) (fun x _ => by simp) fun c => ?_
  rw [setBounds_inUse hb hlo hhi, setBounds_up]

theorem Links.setBounds (h : t.Links 0) (hb : t.InUse b) (hlo : lo ≠ 0) (hhi : hi ≠ 0)
    (hfit : t.up b = 0 → ∀ n, t.InUse n → t.up n = 0 → n ≠ b → ((t n).begin < (t b).begin →
        (t n).end_ ≤ (t b).end_ →
        (t n).begin < lo ∧ (t n).end_ ≤ hi)
      ∧ ((t b).begin < (t n).begin → (t b).end_ ≤ (t n).end_ →
        lo < (t n).begin ∧ hi ≤ (t n).end_)) : (t.setBounds b lo hi).Links 0 := by
  have hin : ∀ n, (t.setBounds b lo hi).InUse n ↔ t.InUse n := fun n => setBounds_inUse hb hlo hhi
  refine ⟨?_, fun n hn => ?_, ?_, fun n hn hup => ?_, fun n hn => ?_, fun p hp => ?_, ?_⟩
  · rw [setBounds_of_ne hb.ne_zero.symm]
    exact h.null
  · rw [setBounds_up]
    exact h.free n fun hc => hn ((hin n).mpr hc)
  · rw [setBounds_up]
    exact h.up_zero
  · rw [setBounds_up] at hup ⊢
    exact (hin _).mpr (h.up_inUse n ((hin n).mp hn) hup)
  · rw [setBounds_up]
    exact h.rooted n ((hin n).mp hn)
  · obtain ⟨l, hl⟩ := h.kids p ((hin p).mp hp)
    exact ⟨l, hl.setBounds hb hlo hhi⟩
  · rcases h.tops with ⟨h0, hz⟩ | ⟨h0, l, hl⟩
    · refine .inl ⟨h0, fun n hn hup hne => ?_⟩
      rw [setBounds_up] at hup
      simpa using hz n ((hin n).mp hn) hup hne
    · obtain ⟨hd, hlinked⟩ := hl.linked
      refine .inr ⟨h0, l, ⟨hd, ?_⟩, hl.nodup, fun n => ?_, ?_⟩
      · simpa using hlinked
      · rw [hl.mem_iff, hin, setBounds_up]
      · refine hl.sorted.imp_of_mem fun {a c} ha hc hac => ?_
        obtain ⟨hau, hup, -⟩ := (hl.mem_iff a).mp ha
        obtain ⟨hcu, hcup, -⟩ := (hl.mem_iff c).mp hc
        by_cases hab : a = b
        · subst hab
          have hca : c ≠ a := by
            rintro rfl
            omega
          rw [setBounds_self, setBounds_of_ne hca]
          exact (hfit hup c hcu hcup hca).2 hac.1 hac.2
        · by_cases hcb : c = b
          · subst hcb
            rw [setBounds_self, setBounds_of_ne hab]
            exact (hfit hcup a hau hup hab).1 hac.1 hac.2
          · rw [setBounds_of_ne hab, setBounds_of_ne hcb]
            exact hac

theorem Links.shrink (h : t.Links 0) (hb : t.InUse b) (hpos : lo ≠ 0)
    (hlo : (t b).begin ≤ lo) (hlt : lo < hi) (hhi : hi ≤ (t b).end_)
    (hapart : ∀ n, t.InUse n → t.up n = 0 → n ≠ b → t.Apart n b) :
    (t.setBounds b lo hi).Links 0 := by
  refine h.setBounds hb hpos (by omega) fun _ n hn hup hne => ?_
  constructor <;> intro h2 h3 <;> rcases hapart n hn hup hne with h4 | h4 <;> omega

/-! ### The functions that move a bound -/

theorem modify_end (t : Table) (b hi : Nat) :
    (t.modify b fun r => { r with end_ := hi }) = t.setBounds b (t b).begin hi := by
  unfold setBounds modify
  congr 1
  funext n
  split
  · rename_i hn
    rw [hn]
  · rfl

theorem modify_begin (t : Table) (b lo : Nat) :
    (t.modify b fun r => { r with begin := lo }) = t.setBounds b lo (t b).end_ := by
  unfold setBounds modify
  congr 1
  funext n
  split
  · rename_i hn
    rw [hn]
  · rfl

theorem truncateBigallocAtEnd_eq_some_iff (env : Env) (t' : Table) (hi : Nat)
    (hlt : t.up b < 65536) :
    t.truncateBigallocAtEnd env b hi = some t' ↔
      pageDist (roundDown hi pageSize) (roundDown (t b).end_ pageSize)
          ≤ env.biggestSaneUserAlloc >>> logPageSize
        ∧ t' = (t.setBounds b (t b).begin hi).setPages (pagenum (roundDown hi pageSize))
            (pagenum (roundDown (t b).end_ pageSize)) (t.up b) := by
  have hup : ((t.setBounds b (t b).begin hi) b).parent = t.up b := by
    rw [setBounds_self]
    rfl
  unfold truncateBigallocAtEnd
  simp only [modify_end, hup]
  exact memset_eq_some_iff env _ _ _ _ hlt

theorem truncateBigallocAtBeginning_eq_some_iff (env : Env) (t' : Table) (lo : Nat)
    (h : t.Links d) (hb : t.InUse b) :
    t.truncateBigallocAtBeginning env b lo = some t' ↔
      pageDist (roundUp (t b).begin pageSize) (roundUp lo pageSize)
          ≤ env.biggestSaneUserAlloc >>> logPageSize
        ∧ t' = (t.setBounds b lo (t b).end_).setPages (pagenum (roundUp (t b).begin pageSize))
            (pagenum (roundUp lo pageSize)) (t.up b) := by
  have hup : ((t.setBounds b lo (t b).end_) b).parent = t.up b := by
    rw [setBounds_self]
    rfl
  unfold truncateBigallocAtBeginning
  simp only [modify_begin, hup]
  exact memset_eq_some_iff env _ _ _ _ (up_lt h hb)

theorem extendBigalloc_eq_some_iff (hb : t.InUse b) :
    t.extendBigalloc env b hi = some t' ↔
      pageDist (roundDown (t b).end_ pageSize) (roundDown hi pageSize)
          ≤ env.biggestSaneUserAlloc >>> logPageSize
        ∧ t' = (t.setBounds b (t b).begin hi).setPages (pagenum (roundDown (t b).end_ pageSize))
            (pagenum (roundDown hi pageSize)) b := by
  have hnum : b < 65536 := hb.2.1.trans (by decide)
  unfold extendBigalloc
  simp only [modify_end]
  exact memset_eq_some_iff env _ _ _ _ hnum

/-! ### Whole pages -/

theorem roundDown_eq_self {x : Nat} (hx : PageAligned x) : roundDown x pageSize = x := by
  obtain ⟨k, rfl⟩ := hx
  simp only [roundDown, pageSize]
  omega

theorem pagenum_roundDown (a : Nat) : pagenum (roundDown a pageSize) = pagenum a := by
  simp only [pagenum, roundDown, pageSize]
  omega

theorem pagenum_le_iff (ha : PageAligned a) : pagenum a ≤ q ↔ a ≤ q * pageSize := by
  obtain ⟨i, rfl⟩ := ha
  simp only [pagenum, pageSize]
  omega

theorem lt_pagenum_iff (ha : PageAligned a) : q < pagenum a ↔ q * pageSize < a := by
  obtain ⟨i, rfl⟩ := ha
  simp only [pagenum, pageSize]
  omega

theorem setPages_pageindex_aligned (t : Table) {e : Nat} (num : Nat) (ha : PageAligned a)
    (he : PageAligned e) :
    (t.setPages (pagenum a) (pagenum e) num).pageindex q
      = if a ≤ q * pageSize ∧ q * pageSize < e then num else t.pageindex q :=
  if_congr (and_congr (pagenum_le_iff ha) (lt_pagenum_iff he)) rfl rfl

end Liballocs.Table
