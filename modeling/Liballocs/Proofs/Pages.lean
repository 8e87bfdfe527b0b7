/-
Pages and the page index.

`memset_bigalloc` is a plain fill.  Its callers round a first and a last address; with both rounded
inwards, the fill hits exactly the pages the range spans.  A debug build is also given the number that
is to be overwritten, and aborts at any other one.
-/
import Mathlib.Tactic.Ring
import Liballocs.Lookup

namespace Liballocs

variable {a b e q : Nat}

/-! ### Rounding -/

/-- The range from `b` up to `e` spans the whole of page `q`. -/
def Spans (b e q : Nat) : Prop := b ≤ q * pageSize ∧ (q + 1) * pageSize ≤ e

instance (b e q : Nat) : Decidable (Spans b e q) := inferInstanceAs (Decidable (_ ∧ _))

/-- The address is the first of a page. -/
def PageAligned (a : Nat) : Prop := pageSize ∣ a

instance (a : Nat) : Decidable (PageAligned a) := inferInstanceAs (Decidable (_ ∣ _))

theorem pagenum_roundUp_le : pagenum (roundUp a pageSize) ≤ q ↔ a ≤ q * pageSize := by
  simp only [pagenum, roundUp, pageSize]
  omega

theorem lt_pagenum_roundUp : q < pagenum (roundUp a pageSize) ↔ q * pageSize < a := by
  simp only [pagenum, roundUp, pageSize]
  omega

theorem lt_pagenum_roundDown :
    q < pagenum (roundDown a pageSize) ↔ (q + 1) * pageSize ≤ a := by
  simp only [pagenum, roundDown, pageSize]
  omega

theorem roundUp_eq_self_iff : roundUp a pageSize = a ↔ PageAligned a := by
  simp only [roundUp, PageAligned, pageSize]
  omega

theorem le_roundUp (a : Nat) : a ≤ roundUp a pageSize := by
  simp only [roundUp, pageSize]
  omega

theorem roundUp_mono (k : Nat) (h : a ≤ b) : roundUp a k ≤ roundUp b k :=
  Nat.mul_le_mul_right _ (Nat.div_le_div_right (Nat.add_le_add_right h _))

theorem roundDown_le (a k : Nat) : roundDown a k ≤ a := Nat.div_mul_le_self a k

theorem roundDown_mono (k : Nat) (h : a ≤ b) : roundDown a k ≤ roundDown b k :=
  Nat.mul_le_mul_right _ (Nat.div_le_div_right h)

theorem pageAligned_roundUp (a : Nat) : PageAligned (roundUp a pageSize) := Dvd.intro_left _ rfl

theorem PageAligned.add_pageSize_le (ha : PageAligned a) (hb : PageAligned b) (h : a < b) :
    a + pageSize ≤ b := by
  obtain ⟨i, rfl⟩ := ha
  obtain ⟨j, rfl⟩ := hb
  simp only [pageSize] at *
  omega

theorem pagenum_eq_iff : pagenum a = q ↔ q * pageSize ≤ a ∧ a < (q + 1) * pageSize := by
  simp only [pagenum, pageSize]
  omega

theorem spans_pagenum (hb : PageAligned b) (he : PageAligned e) (h1 : b ≤ a)
    (h2 : a < e) : Spans b e (pagenum a) := by
  obtain ⟨i, rfl⟩ := hb
  obtain ⟨j, rfl⟩ := he
  simp only [Spans, pagenum, pageSize] at *
  omega

theorem Spans.contains_pagenum (h : Spans b e (pagenum a)) : b ≤ a ∧ a < e := by
  obtain ⟨h1, h2⟩ := h
  have := (pagenum_eq_iff (a := a)).mp rfl
  omega

/-! ### Filling -/

namespace Table

/-- The pages of a range are entered for a bigalloc. -/
def setPages (t : Table) (lo hi num : Nat) : Table :=
  { t with pageindex := fun q => if lo ≤ q ∧ q < hi then num else t.pageindex q }

private theorem wcharVal_halves {num : Nat} (h : num < 65536) :
    (num <<< 16 ||| num) % 65536 = num ∧ (num <<< 16 ||| num) / 65536 % 65536 = num := by
  have hor : num <<< 16 ||| num = num * 65536 + num := by
    rw [← Nat.shiftLeft_add_eq_or_of_lt (by simpa using h), Nat.shiftLeft_eq]
  have hdiv : (num * 65536 + num) / 65536 = num := by omega
  rw [hor, hdiv]
  omega

private theorem wmemset_eq {pageindex : Nat → Nat} {begin num n : Nat} (h : num < 65536) :
    wmemset pageindex begin (num <<< 16 ||| num) n
      = fun q => if begin ≤ q ∧ q < begin + 2 * n then num else pageindex q := by
  obtain ⟨h1, h2⟩ := wcharVal_halves h
  funext q
  simp [wmemset, h1, h2, ite_self]

theorem memsetBigalloc_eq (env : Env) (pageindex : Nat → Nat) (begin n : Nat) {num : Nat}
    (hnum : num < 65536) :
    memsetBigalloc env pageindex begin num n
      = if n > env.biggestSaneUserAlloc >>> logPageSize then none
        else some fun q => if begin ≤ q ∧ q < begin + n then num else pageindex q := by
  unfold memsetBigalloc
  split
  · rfl
  · simp only [wmemset_eq hnum, Option.some.injEq]
    funext q
    by_cases hodd : (decide (n > 0) && (begin % 2 != 0)) = true
    · have hn : 0 < n := by simp_all
      simp only [hodd, if_true, ite_apply, Function.update_apply]
      split_ifs <;> omega
    · simp only [hodd, Bool.false_eq_true, if_false, ite_apply, Function.update_apply]
      split_ifs <;> omega

theorem ite_none_or {c : Prop} [Decidable c] {x d : Option (Nat → Nat)} (h : x = d ∨ x = none) :
    (if c then none else x) = d ∨ (if c then none else x) = none := by
  split
  · exact .inr rfl
  · exact h

section

variable {env : Env} {pageindex : Nat → Nat} {begin num oldNum n pageindexEnd : Nat}
  (hn : n ≤ env.biggestSaneUserAlloc >>> logPageSize)
include hn

theorem memsetBigallocDebug_cases :
    memsetBigallocDebug env pageindexEnd pageindex begin num oldNum n
        = memsetBigalloc env pageindex begin num n
      ∨ memsetBigallocDebug env pageindexEnd pageindex begin num oldNum n = none := by
  unfold memsetBigallocDebug memsetBigalloc
  rw [if_neg hn.not_gt, if_neg hn.not_gt]
  exact ite_none_or (ite_none_or (ite_none_or (.inl rfl)))

/-- Only for zero are there entries that are not checked. -/
theorem memsetBigallocDebug_eq_none_iff (hend : begin + n ≤ pageindexEnd) (h0 : oldNum ≠ 0) :
    memsetBigallocDebug env pageindexEnd pageindex begin num oldNum n = none ↔
      ∃ q, begin ≤ q ∧ q < begin + n ∧ oldNum ≠ 65535 ∧ pageindex q ≠ 0 ∧ pageindex q ≠ oldNum := by
  unfold memsetBigallocDebug
  dsimp only
  rw [if_neg hn.not_gt]
  by_cases hodd : (decide (n > 0) && begin % 2 != 0) = true
  · have hpos : 0 < n := by simp_all
    simp only [hodd, if_true, true_and]
    constructor
    · intro h
      by_contra hno
      grind [wmemset, Function.update_apply]
    · rintro ⟨q, h1, h2, hmax, h3, h4⟩
      split
      · rfl
      · rename_i hfirst
        have hne : q ≠ begin := by
          rintro rfl
          exact hfirst (by tauto)
        obtain ⟨i, rfl⟩ := Nat.exists_eq_add_of_le (Nat.lt_of_le_of_ne h1 hne.symm)
        refine if_pos ⟨⟨hmax, h0⟩, i, by omega, .inr ?_⟩
        rw [Function.update_of_ne hne]
        tauto
  · simp only [hodd, if_false, false_and, Bool.false_eq_true]
    constructor
    · intro h
      by_contra hno
      grind [wmemset]
    · rintro ⟨q, h1, h2, hmax, h3, h4⟩
      obtain ⟨i, rfl⟩ := Nat.exists_eq_add_of_le h1
      exact if_pos ⟨⟨hmax, h0⟩, i, by omega, .inr (by tauto)⟩

end

/-- **A fill is exact.**  It stores in `n` entries and nowhere else; where it is to replace a number, a
debug build aborts at every other one. -/
theorem memsetBigalloc_exact (env : Env) (pageindex : Nat → Nat) {begin num n pageindexEnd : Nat}
    (hnum : num < 65536) (hn : n ≤ env.biggestSaneUserAlloc >>> logPageSize)
    (hend : begin + n ≤ pageindexEnd) :
    let filled := fun q => if begin ≤ q ∧ q < begin + n then num else pageindex q
    let debug := fun oldNum => memsetBigallocDebug env pageindexEnd pageindex begin num oldNum n
    memsetBigalloc env pageindex begin num n = some filled ∧ debug 65535 = some filled ∧
      ∀ oldNum, (debug oldNum = some filled ∨ debug oldNum = none) ∧
        (oldNum ≠ 0 → oldNum ≠ 65535 → (debug oldNum = none ↔
          ∃ q, begin ≤ q ∧ q < begin + n ∧ pageindex q ≠ 0 ∧ pageindex q ≠ oldNum)) := by
  intro filled debug
  have hfill : memsetBigalloc env pageindex begin num n = some filled := by
    rw [memsetBigalloc_eq env pageindex begin n hnum, if_neg hn.not_gt]
  have hcases : ∀ oldNum, debug oldNum = some filled ∨ debug oldNum = none :=
    fun oldNum => hfill ▸ memsetBigallocDebug_cases hn
  refine ⟨hfill, (hcases 65535).resolve_right fun h => ?_, fun oldNum => ⟨hcases oldNum, ?_⟩⟩
  · obtain ⟨q, -, -, hmax, -⟩ := (memsetBigallocDebug_eq_none_iff hn hend (by decide)).mp h
    exact hmax rfl
  · intro h0 hmax
    simpa only [ne_eq, hmax, not_false_eq_true, true_and]
      using memsetBigallocDebug_eq_none_iff hn hend h0

theorem memsetBigalloc_exact_aborts :
    memsetBigallocDebug { biggestSaneUserAlloc := 1048576 } 9 id 1 3 2 4 = none :=
  (((memsetBigalloc_exact _ id (by decide) (by decide) (by decide)).2.2 2).2 (by decide)
    (by decide)).mpr ⟨1, by decide⟩

theorem memset_eq_some_iff (env : Env) (t t' : Table) (first second : Nat) {num : Nat}
    (hnum : num < 65536) :
    t.memset env first second num = some t'
      ↔ pageDist first second ≤ env.biggestSaneUserAlloc >>> logPageSize
        ∧ t' = t.setPages (pagenum first) (pagenum second) num := by
  have hfill : (fun q => if pagenum first ≤ q ∧ q < pagenum first + pageDist first second then num
      else t.pageindex q)
      = fun q => if pagenum first ≤ q ∧ q < pagenum second then num else t.pageindex q := by
    funext q
    refine if_congr ?_ rfl rfl
    unfold pageDist
    split <;> omega
  simp only [memset, memsetBigalloc_eq env _ _ _ hnum, Option.bind_eq_bind, setPages, ← hfill]
  split
  · rename_i h
    simp only [Option.bind_none, reduceCtorEq, false_iff, not_and]
    omega
  · rename_i h
    simp [Option.bind_some, Option.pure_def, Option.some.injEq, Nat.le_of_not_lt h, true_and,
      eq_comm]

/-- A fill from a rounded-up begin to a rounded-down end hits the pages the range spans. -/
theorem setPages_pageindex_spans (t : Table) (b e num q : Nat) :
    (t.setPages (pagenum (roundUp b pageSize)) (pagenum (roundDown e pageSize)) num).pageindex q
      = if Spans b e q then num else t.pageindex q := by
  exact if_congr (and_congr pagenum_roundUp_le lt_pagenum_roundDown) rfl rfl

end Table

end Liballocs
