/-
The program break.

The brk bigalloc ends at the break, and the top-level mapping around it at the break rounded up to a
page.  A notification moves both ends, the mapping's first when the break seems to grow and last when
it seems to shrink, compared with the break cached in `__curbrk`.

`BrkMapped` is what a notification keeps, and `EndMoved` what it does to the records.
-/
import Liballocs.Proofs.Mapped

namespace Liballocs

open Forest Segments Function

/-! ### The sequence grows -/

namespace MappingSequence

variable {s : MappingSequence} {e : Nat}

/-- What a notification makes of a sequence that is to end at `e`: an anonymous last entry is
stretched, behind another one an anonymous entry is added. -/
def grownTo (s : MappingSequence) (e : Nat) : MappingSequence :=
  let last := s.mappings (s.nused - 1)
  if !last.isAnon then
    { s with
      end_ := e
      nused := s.nused + 1
      mappings := Function.update s.mappings s.nused
        { begin := last.end_, end_ := e, prot := 3, isAnon := true } }
  else { s with end_ := e }.setMappingEnd (s.nused - 1) e

/-- The sequence can grow without an entry too many. -/
def CanGrow (s : MappingSequence) : Prop :=
  (s.mappings (s.nused - 1)).isAnon = true ∨ s.nused < mappingSequenceMaxLen

theorem Sane.entries_eq (h : s.Sane) :
    ∃ p, s.entries = p ++ [s.mappings (s.nused - 1)] ∧ s.nused - 1 = p.length := by
  obtain ⟨k, hk⟩ := Nat.exists_eq_succ_of_ne_zero h.pos.ne'
  refine ⟨(List.range k).map s.mappings, ?_, by simp [hk]⟩
  rw [entries, hk, List.range_succ, List.map_append]
  rfl

/-- The anonymous entry that is added behind the last one. -/
def breakMapping (s : MappingSequence) (e : Nat) : Mapping where
  begin := (s.mappings (s.nused - 1)).end_
  end_ := e
  prot := 3
  flags := 0
  offset := 0
  filename := none
  caller := 0

theorem grownTo_of_anon (h : (s.mappings (s.nused - 1)).isAnon = true) :
    s.grownTo e = { s with end_ := e }.setMappingEnd (s.nused - 1) e := by
  unfold grownTo
  simp [h, Bool.not_true, Bool.false_eq_true]

theorem Sane.grownTo_of_not_anon (hs : s.Sane) (h : (s.mappings (s.nused - 1)).isAnon = false) :
    s.grownTo e = s.extend (s.breakMapping e) := by
  have hname : (if s.filename.isNone then none else s.filename) = s.filename := by
    cases s.filename <;> rfl
  unfold grownTo MappingSequence.extend
  simp only [h, Bool.not_false, if_true, if_neg hs.begin_pos.ne']
  rw [show (s.breakMapping e).filename = none from rfl, hname]
  rfl

theorem Sane.grownTo (h : s.Sane) (ht : s.Tidy) (he : s.end_ < e) (hg : s.CanGrow) :
    (s.grownTo e).Sane ∧ (s.grownTo e).Tidy ∧ (s.grownTo e).begin = s.begin
      ∧ (s.grownTo e).end_ = e := by
  obtain ⟨p, hp, hlen⟩ := h.entries_eq
  have hcontig := h.contig
  rw [hp] at hcontig
  obtain ⟨m, hpre, hlo, hlt, hend⟩ := contig_append.mp hcontig
  by_cases hanon : (s.mappings (s.nused - 1)).isAnon = true
  · rw [grownTo_of_anon hanon]
    refine ⟨⟨h.pos, h.le, h.begin_pos, ?_⟩, fun i h1 h2 => ?_, rfl, rfl⟩
    · rw [entries_setMappingEnd (s := { s with end_ := e }) hp hlen]
      exact contig_append.mpr ⟨m, hpre, hlo, Nat.lt_trans (Nat.lt_of_lt_of_le hlt hend.le) he, rfl⟩
    · have hne : i ≠ s.nused - 1 := by
        have := h.pos
        change s.nused ≤ i at h1
        omega
      change Within s.begin e (update s.mappings (s.nused - 1) _ i)
      rw [update_of_ne hne]
      exact (ht i h1 h2).mono he.le
  · have hroom : s.nused < mappingSequenceMaxLen := hg.resolve_left hanon
    have hbegin : s.end_ = (s.breakMapping e).begin := Eq.symm hend
    rw [h.grownTo_of_not_anon (Bool.eq_false_iff.mpr hanon)]
    obtain ⟨hsane, hb⟩ := h.extend (r := s.breakMapping e) hroom hbegin (hbegin ▸ he)
    exact ⟨hsane, h.extend_tidy ht hbegin (hbegin ▸ he), hb, rfl⟩

end MappingSequence

namespace Table

open MappingSequence

variable {env : Env} {t t' t₁ t₂ : Table} {e r v b m lo hi lo' hi' c : Nat} {s : MappingSequence}

/-! ### The two records -/

/-- The sequence of `r` is sane, has the record's bounds, and nothing in its unused slots. -/
def BackedTidily (t : Table) (r : Nat) : Prop :=
  ∃ s, t.sequences (t.seqOf r) = some s ∧ s.Sane ∧ s.Tidy ∧ s.begin = (t.bigAllocations r).begin
    ∧ s.end_ = (t.bigAllocations r).end_

/-- The brk bigalloc is the last child of a top-level mapping. -/
structure BrkMapped (t : Table) : Prop where
  initialized : t.brkInitialized = true
  wellFormed : t.WellFormed
  mapping : t.Top t.brkMappingBigalloc
  brk : t.InUse t.brkBigalloc
  under : t.up t.brkBigalloc = t.brkMappingBigalloc
  last : ∀ n, t.InUse n → t.up n = t.brkMappingBigalloc → n ≠ t.brkBigalloc →
    (t.bigAllocations n).end_ ≤ (t.bigAllocations t.brkBigalloc).begin
  backed : t.BackedTidily t.brkMappingBigalloc

section

variable (h : t.BrkMapped)

include h

theorem BrkMapped.mapping_ne_zero : t.brkMappingBigalloc ≠ 0 := h.mapping.1.ne_zero

theorem BrkMapped.mapping_ne_brk : t.brkMappingBigalloc ≠ t.brkBigalloc := by
  intro heq
  have hup := h.under
  rw [← heq, h.mapping.2] at hup
  exact h.mapping_ne_zero hup.symm

theorem BrkMapped.brk_inside :
    (t t.brkMappingBigalloc).begin ≤ (t t.brkBigalloc).begin
      ∧ (t t.brkBigalloc).end_ ≤ (t t.brkMappingBigalloc).end_ :=
  h.wellFormed.toFitted.tiled.inside_of_up h.brk h.mapping_ne_zero h.under

/-- Moving the end of one of the records keeps the arrangement, if the table stays well-formed and the
sequence keeps up. -/
theorem BrkMapped.endMoved (hm : t.EndMoved r e t')
    (hr : r = t.brkMappingBigalloc ∨ r = t.brkBigalloc) (he : e ≠ 0) (hwf : t'.WellFormed)
    (hback : t'.BackedTidily t.brkMappingBigalloc) : t'.BrkMapped := by
  have hrin : t.InUse r := by
    rcases hr with rfl | rfl
    · exact h.mapping.1
    · exact h.brk
  have hin : ∀ n, t'.InUse n ↔ t.InUse n := fun n => hm.inUse_iff hrin he
  refine ⟨hm.initialized ▸ h.initialized, hwf, ?_, ?_, ?_, fun n h1 h2 h3 => ?_, ?_⟩
  · rw [hm.mapping]
    exact ⟨(hin _).mpr h.mapping.1, by rw [hm.up_eq]; exact h.mapping.2⟩
  · rw [hm.brk]
    exact (hin _).mpr h.brk
  · rw [hm.up_eq, hm.brk, hm.mapping]
    exact h.under
  · rw [hm.up_eq, hm.mapping] at h2
    rw [hm.brk] at h3
    have hne : n ≠ r := by
      rintro rfl
      rcases hr with rfl | rfl
      · exact h.mapping_ne_zero (h2.symm.trans h.mapping.2)
      · exact h3 rfl
    rw [hm.brk, hm.begin_eq, hm.of_ne hne]
    exact h.last n ((hin n).mp h1) h2 h3
  · rw [hm.mapping]
    exact hback

theorem BrkMapped.spansPage_mapping {q : Nat}
    (h1 : (t t.brkMappingBigalloc).begin ≤ e) (h2 : pagenum e ≤ q)
    (h3 : q < pagenum (t t.brkMappingBigalloc).end_) : t.SpansPage t.brkMappingBigalloc q := by
  obtain ⟨hlo, -⟩ := h.wellFormed.aligned _ h.mapping.1 h.mapping.2
  refine spans_iff_lt_pagenum.mpr ⟨?_, h3⟩
  exact (pagenum_le_iff hlo).mp ((Nat.div_le_div_right h1).trans h2)

end

/-! ### The mapping -/

theorem mmapAllocatorNotifyBrk_of_eq (h : roundUp v pageSize = (t t.brkMappingBigalloc).end_) :
    t.mmapAllocatorNotifyBrk env v = some t := by
  unfold mmapAllocatorNotifyBrk
  simp [h, gt_iff_lt, ite_self]

theorem mmapAllocatorNotifyBrk_of_gt (h0 : t.brkMappingBigalloc ≠ 0)
    (hlt : (t t.brkMappingBigalloc).end_ < roundUp v pageSize)
    (hrun : t.extendBigalloc env t.brkMappingBigalloc (roundUp v pageSize) = some t₁)
    (hs : t₁.sequences (t₁.seqOf t.brkMappingBigalloc) = some s) :
    t.mmapAllocatorNotifyBrk env v = some (t₁.setSequence (t₁.seqOf t.brkMappingBigalloc)
          (s.grownTo (roundUp v pageSize))) := by
  have hadjust : t.adjustBigallocEnd env t.brkMappingBigalloc (roundUp v pageSize) = some t₁ := by
    unfold adjustBigallocEnd
    simp [if_neg (Nat.le_of_lt hlt).not_gt, gt_iff_lt, if_pos hlt, hrun]
  unfold seqOf at hs ⊢
  unfold mmapAllocatorNotifyBrk
  simp only [if_neg h0, gt_iff_lt, if_pos hlt, hadjust, hs, some_bind, Option.pure_def]
  rfl

theorem mmapAllocatorNotifyBrk_of_lt {s' : MappingSequence} (h0 : t.brkMappingBigalloc ≠ 0)
    (hlt : roundUp v pageSize < (t t.brkMappingBigalloc).end_)
    (hs : t.sequences (t.seqOf t.brkMappingBigalloc) = some s)
    (hdel : s.deleteMappingSequenceSpan (roundUp v pageSize)
      ((t t.brkMappingBigalloc).end_ - roundUp v pageSize) = some s') :
    t.mmapAllocatorNotifyBrk env v
      = (t.setSequence (t.seqOf t.brkMappingBigalloc) s').truncateBigallocAtEnd env
          t.brkMappingBigalloc (roundUp v pageSize) := by
  have hadjust : ∀ p, (t.setSequence p s').adjustBigallocEnd env t.brkMappingBigalloc
        (roundUp v pageSize)
      = (t.setSequence p s').truncateBigallocAtEnd env t.brkMappingBigalloc
        (roundUp v pageSize) := by
    intro p
    exact if_pos hlt
  unfold seqOf at hs ⊢
  unfold mmapAllocatorNotifyBrk
  simp [if_neg h0, gt_iff_lt, if_neg (Nat.le_of_lt hlt).not_gt, if_pos hlt, hs,
    some_bind, hdel, hadjust]

section

variable (h : t.BrkMapped)

include h

theorem BrkMapped.mmap_grow (hlt : (t t.brkMappingBigalloc).end_ < roundUp v pageSize)
    (hroom : t.RoomAbove t.brkMappingBigalloc (roundUp v pageSize))
    (hgrow : ∀ s, t.sequences (t.seqOf t.brkMappingBigalloc) = some s → s.CanGrow)
    (hsane : SanePages env (roundDown (t t.brkMappingBigalloc).end_ pageSize)
      (roundDown (roundUp v pageSize) pageSize)) :
    ∃ t', t.mmapAllocatorNotifyBrk env v = some t' ∧ t'.BrkMapped
      ∧ t.EndMoved t.brkMappingBigalloc (roundUp v pageSize) t' := by
  obtain ⟨s, hs, hsseq, htidy, hsb, hse⟩ := h.backed
  obtain ⟨hlo, hhi⟩ := h.wellFormed.aligned _ h.mapping.1 h.mapping.2
  have hbounds := h.wellFormed.bounds _ h.mapping.1
  obtain ⟨hrun, hwf⟩ := hroom.extendBigalloc h.wellFormed h.mapping.1 hlt hsane
    (.inl (by rw [roundDown_eq_self hhi]; exact hbounds.le))
  obtain ⟨hsane', htidy', hb', he'⟩ := hsseq.grownTo htidy (hse ▸ hlt) (hgrow s hs)
  have hm := (resize_endMoved (t := t) (r := t.brkMappingBigalloc) (e := roundUp v pageSize)
    (f := t.extendedIndex t.brkMappingBigalloc (roundUp v pageSize)))
  have hm' := hm.setSequence (t.seqOf t.brkMappingBigalloc) (s.grownTo (roundUp v pageSize))
  refine ⟨_, mmapAllocatorNotifyBrk_of_gt h.mapping_ne_zero hlt hrun (by rw [hm.seqOf_eq]; exact hs),
    ?_, by rw [hm.seqOf_eq]; exact hm'⟩
  rw [hm.seqOf_eq]
  refine h.endMoved hm' (.inl rfl) (by omega) (setSequence_wellFormed hwf _ _) ?_
  refine ⟨_, ?_, hsane', htidy', ?_, ?_⟩
  · rw [hm'.seqOf_eq]
    exact update_self ..
  · rw [hb', hsb, hm'.begin_eq]
  · rw [he', hm'.self]

/-- The deletion that `__mmap_allocator_notify_brk` makes when the mapping shrinks. -/
theorem BrkMapped.deleteSpan (hlo : (t t.brkMappingBigalloc).begin < e)
    (hlt : e < (t t.brkMappingBigalloc).end_) :
    ∃ s s', t.sequences (t.seqOf t.brkMappingBigalloc) = some s
      ∧ s.deleteMappingSequenceSpan e ((t t.brkMappingBigalloc).end_ - e) = some s'
      ∧ Restricted s (t t.brkMappingBigalloc).begin e s' := by
  obtain ⟨s, hs, hsane, htidy, hsb, hse⟩ := h.backed
  obtain ⟨s', hdel, hres⟩ := hsane.deleteSuffix htidy e (by omega) (by omega)
  exact ⟨s, s', hs, hse ▸ hdel, hsb ▸ hres⟩

theorem BrkMapped.mmap_shrink (hlt : roundUp v pageSize < (t t.brkMappingBigalloc).end_)
    (hle : (t t.brkBigalloc).end_ ≤ roundUp v pageSize)
    (hsane : SanePages env (roundDown (roundUp v pageSize) pageSize)
      (roundDown (t t.brkMappingBigalloc).end_ pageSize)) :
    ∃ t', t.mmapAllocatorNotifyBrk env v = some t' ∧ t'.BrkMapped
      ∧ t.EndMoved t.brkMappingBigalloc (roundUp v pageSize) t' := by
  have hbrk := h.wellFormed.bounds _ h.brk
  have hinside := h.brk_inside
  obtain ⟨s, s', hs, hdel, hres⟩ := h.deleteSpan (by omega) hlt
  have hkids : t.KidsWithin t.brkMappingBigalloc
      (t t.brkMappingBigalloc).begin (roundUp v pageSize) := by
    intro n hn hup
    have hin := h.wellFormed.toFitted.tiled.inside_of_up hn h.mapping_ne_zero hup
    by_cases hne : n = t.brkBigalloc
    · subst hne
      exact ⟨hin.1, hle⟩
    · have := h.last n hn hup hne
      exact ⟨hin.1, by omega⟩
  have hbehind : ∀ q, t.PagesBehind t.brkMappingBigalloc (roundUp v pageSize) q →
      t.SpansPage t.brkMappingBigalloc q := fun q hq =>
    h.spansPage_mapping (by omega) hq.1 hq.2
  obtain ⟨f, hrun, htr⟩ := KidsWithin.truncateBigallocAtEnd
    (t := t.setSequence (t.seqOf t.brkMappingBigalloc) s') hkids (setSequence_wellFormed h.wellFormed _ _)
    h.mapping.1 (show _ < _ by change (t _).begin < _; omega) hlt hsane
    (fun q hq => .inl (hbehind q hq)) (fun _ => pageAligned_roundUp v)
  have hm : t.EndMoved t.brkMappingBigalloc (roundUp v pageSize) _ := ⟨(resize_endMoved
    (t := t.setSequence (t.seqOf t.brkMappingBigalloc) s') (r := t.brkMappingBigalloc)
    (e := roundUp v pageSize) (f := f)).records, rfl, rfl, rfl⟩
  refine ⟨_, (mmapAllocatorNotifyBrk_of_lt h.mapping_ne_zero hlt hs hdel).trans hrun, ?_, hm⟩
  refine h.endMoved hm (.inl rfl) (by omega) htr.wellFormed ?_
  refine ⟨s', ?_, hres.sane, hres.tidy, ?_, ?_⟩
  · rw [hm.seqOf_eq]
    exact update_self ..
  · rw [hres.begin_eq, hm.begin_eq]
  · rw [hres.end_eq, hm.self]

/-! ### The brk bigalloc -/

theorem BrkMapped.backed_of_brk {f : Nat → Nat} :
    (t.resize t.brkBigalloc (t t.brkBigalloc).begin e f).BackedTidily t.brkMappingBigalloc := by
  obtain ⟨s, hs, hsane, htidy, hsb, hse⟩ := h.backed
  have hm := resize_endMoved (t := t) (r := t.brkBigalloc) (e := e) (f := f)
  refine ⟨s, ?_, hsane, htidy, ?_, ?_⟩
  · rw [hm.seqOf_eq]
    exact hs
  · rw [hsb, hm.begin_eq]
  · rw [hse, hm.of_ne h.mapping_ne_brk]

theorem BrkMapped.brk_grow (hlt : (t t.brkBigalloc).end_ < v)
    (hle : v ≤ (t t.brkMappingBigalloc).end_)
    (hpage : (t t.brkBigalloc).begin ≤ roundDown (t t.brkBigalloc).end_ pageSize
      ∨ pagenum v = pagenum (t t.brkBigalloc).end_)
    (hsane : SanePages env (roundDown (t t.brkBigalloc).end_ pageSize) (roundDown v pageSize)) :
    ∃ t', t.extendBigalloc env t.brkBigalloc v = some t' ∧ t'.BrkMapped
      ∧ t.EndMoved t.brkBigalloc v t' := by
  have hbrk := h.wellFormed.bounds _ h.brk
  have hroom : t.RoomAbove t.brkBigalloc v := by
    refine ⟨fun _ => by rw [h.under]; exact hle, fun n hn hup hne => ?_, fun hup => ?_⟩
    · have := h.last n hn (hup.trans h.under) hne
      exact .inl (by omega)
    · exact absurd (h.under.symm.trans hup) h.mapping_ne_zero
  obtain ⟨hrun, hwf⟩ := hroom.extendBigalloc h.wellFormed h.brk hlt hsane hpage
  exact ⟨_, hrun, h.endMoved resize_endMoved (.inr rfl) (by omega) hwf h.backed_of_brk,
    resize_endMoved⟩

theorem BrkMapped.brk_shrink (hlo : (t t.brkBigalloc).begin < v) (hlt : v < (t t.brkBigalloc).end_)
    (hkids : ∀ n, t.InUse n → t.up n = t.brkBigalloc → (t n).end_ ≤ v)
    (hsane : SanePages env (roundDown v pageSize) (roundDown (t t.brkBigalloc).end_ pageSize)) :
    ∃ t', t.truncateBigallocAtEnd env t.brkBigalloc v = some t' ∧ t'.BrkMapped
      ∧ t.EndMoved t.brkBigalloc v t' := by
  have hup : t.up t.brkBigalloc ≠ 0 := by
    rw [h.under]
    exact h.mapping_ne_zero
  have hinside := h.brk_inside
  have hwithin : t.KidsWithin t.brkBigalloc (t t.brkBigalloc).begin v := by
    intro n hn hn'
    have hin := h.wellFormed.toFitted.tiled.inside_of_up hn h.brk.ne_zero hn'
    exact ⟨hin.1, hkids n hn hn'⟩
  obtain ⟨f, hrun, htr⟩ := hwithin.truncateBigallocAtEnd h.wellFormed h.brk hlo hlt hsane
    (fun q hq => .inr (by
      rw [h.under]
      exact h.spansPage_mapping (by omega) hq.1
        (hq.2.trans_le (Nat.div_le_div_right hinside.2))))
    (fun h0 => absurd h0 hup)
  exact ⟨_, hrun, h.endMoved resize_endMoved (.inr rfl) (by omega) htr.wellFormed
    h.backed_of_brk, resize_endMoved⟩

end

/-! ### Which of the two is truncated first -/

theorem truncateBigallocAtEnd_setSequence (b p : Nat) (s : MappingSequence) :
    (t.setSequence p s).truncateBigallocAtEnd env b e
      = (t.truncateBigallocAtEnd env b e).map (·.setSequence p s) := by
  unfold truncateBigallocAtEnd memset
  simp only [Option.bind_eq_bind, Option.pure_def, Option.map_bind]
  rfl

theorem setBounds_comm (hne : b ≠ m) :
    (t.setBounds b lo hi).setBounds m lo' hi' = (t.setBounds m lo' hi').setBounds b lo hi := by
  unfold setBounds modify
  refine congrArg (fun f => { t with bigAllocations := f }) (funext fun n => ?_)
  by_cases hb : n = b
  · subst hb
    simp [hne]
  · simp [hb]

theorem setPages_comm {num num' : Nat} (h : hi ≤ lo') :
    (t.setPages lo hi num).setPages lo' hi' num' = (t.setPages lo' hi' num').setPages lo hi num := by
  unfold setPages
  refine congrArg (fun f => { t with pageindex := f }) (funext fun q => ?_)
  by_cases h1 : lo ≤ q ∧ q < hi
  · have h2 : ¬ (lo' ≤ q ∧ q < hi') := by omega
    simp [h1, h2]
  · simp [h1]

/-- Two truncations commute if the pages of the first all lie before those of the second. -/
theorem truncateBigallocAtEnd_comm (hne : b ≠ m) (hb : t.up b < 65536) (hm : t.up m < 65536)
    (hpages : pagenum (t b).end_ ≤ pagenum e)
    (h1 : t.truncateBigallocAtEnd env b v = some t₁)
    (h2 : t₁.truncateBigallocAtEnd env m e = some t₂) :
    ∃ t3, t.truncateBigallocAtEnd env m e = some t3
      ∧ t3.truncateBigallocAtEnd env b v = some t₂ := by
  have hup : ∀ x lo hi first second num,
      ((t.setBounds x lo hi).setPages first second num).up = t.up := fun _ _ _ _ _ _ => setBounds_up
  have hrec : ∀ {x y : Nat} (lo hi first second num : Nat), x ≠ y →
      ((t.setBounds x lo hi).setPages first second num) y = t y :=
    fun _ _ _ _ _ hxy => setBounds_of_ne (Ne.symm hxy)
  obtain ⟨hsane, rfl⟩ := (truncateBigallocAtEnd_eq_some_iff env _ v hb).mp h1
  rw [truncateBigallocAtEnd_eq_some_iff env _ e (by rw [hup]; exact hm), hup,
    hrec _ _ _ _ _ hne] at h2
  obtain ⟨hsane', rfl⟩ := h2
  refine ⟨_, (truncateBigallocAtEnd_eq_some_iff env _ e hm).mpr ⟨hsane', rfl⟩, ?_⟩
  rw [truncateBigallocAtEnd_eq_some_iff env _ v (by rw [hup]; exact hb), hup,
    hrec _ _ _ _ _ (Ne.symm hne)]
  refine ⟨hsane, ?_⟩
  rw [pagenum_roundDown, pagenum_roundDown, pagenum_roundDown, pagenum_roundDown]
  -- the record changes commute with the page writes, and so do both pairs among themselves
  change ((((t.setBounds b _ _).setBounds m _ _).setPages _ _ _).setPages _ _ _) = _
  rw [setBounds_comm hne, setPages_comm hpages]
  rfl

theorem truncateBigallocAtEnd_endMoved (hb : t.up b < 65536)
    (h : t.truncateBigallocAtEnd env b e = some t') : t.EndMoved b e t' := by
  obtain ⟨-, rfl⟩ := (truncateBigallocAtEnd_eq_some_iff env _ e hb).mp h
  exact ⟨(resize_endMoved (f := id)).records, rfl, rfl, rfl⟩

theorem BrkMapped.cut_first (h : t.BrkMapped)
    (hlo : (t t.brkMappingBigalloc).begin < roundUp v pageSize)
    (hlt : roundUp v pageSize < (t t.brkMappingBigalloc).end_)
    (hpages : pagenum (t t.brkBigalloc).end_ ≤ pagenum (roundUp v pageSize))
    (h1 : t.truncateBigallocAtEnd env t.brkBigalloc v = some t₁)
    (h2 : t₁.mmapAllocatorNotifyBrk env v = some t₂) :
    ∃ t3, t.mmapAllocatorNotifyBrk env v = some t3
      ∧ t.EndMoved t.brkMappingBigalloc (roundUp v pageSize) t3
      ∧ t3.truncateBigallocAtEnd env t.brkBigalloc v = some t₂ := by
  obtain ⟨s, s', hs, hdel, -⟩ := h.deleteSpan hlo hlt
  have hub := up_lt h.wellFormed.links h.brk
  have hum := up_lt h.wellFormed.links h.mapping.1
  have hmoved := truncateBigallocAtEnd_endMoved hub h1
  have hs1 : t₁.sequences = t.sequences := by
    obtain ⟨-, rfl⟩ := (truncateBigallocAtEnd_eq_some_iff env _ v hub).mp h1
    rfl
  have hrec := hmoved.of_ne h.mapping_ne_brk
  have hnotify1 : t₁.mmapAllocatorNotifyBrk env v = (t₁.setSequence
      (t₁.seqOf t₁.brkMappingBigalloc) s').truncateBigallocAtEnd env t₁.brkMappingBigalloc
        (roundUp v pageSize) := by
    apply mmapAllocatorNotifyBrk_of_lt
    · rw [hmoved.mapping]
      exact h.mapping_ne_zero
    · rw [hmoved.mapping, hrec]
      exact hlt
    · rw [hs1, hmoved.mapping, hmoved.seqOf_eq]
      exact hs
    · rw [hmoved.mapping, hrec]
      exact hdel
  rw [hnotify1, hmoved.mapping, hmoved.seqOf_eq] at h2
  rw [mmapAllocatorNotifyBrk_of_lt h.mapping_ne_zero hlt hs hdel]
  obtain ⟨t3, hrun3, hcut3⟩ := truncateBigallocAtEnd_comm
    (t := t.setSequence (t.seqOf t.brkMappingBigalloc) s') (Ne.symm h.mapping_ne_brk) hub hum hpages
    (by rw [truncateBigallocAtEnd_setSequence, h1]; rfl) h2
  have hmoved3 := truncateBigallocAtEnd_endMoved
    (t := t.setSequence (t.seqOf t.brkMappingBigalloc) s') hum hrun3
  exact ⟨t3, hrun3, ⟨hmoved3.records, hmoved3.brk, hmoved3.mapping, hmoved3.initialized⟩, hcut3⟩

/-! ### One notification -/

/-- The brk bigalloc ends at the break, and the mapping at the end of the page. -/
structure BrkAt (t : Table) (v : Nat) : Prop extends BrkMapped t where
  end_eq : (t.bigAllocations t.brkBigalloc).end_ = v
  mapping_end : (t.bigAllocations t.brkMappingBigalloc).end_ = roundUp v pageSize

/-- The break may go down to `v`.  With `__curbrk` below `v` the mapping is cut first, and the brk
bigalloc must have no page behind the cut. -/
structure MayShrink (env : Env) (t : Table) (v : Nat) : Prop where
  kids : ∀ n, t.InUse n → t.up n = t.brkBigalloc → (t.bigAllocations n).end_ ≤ v
  order : t.curbrk < v →
    pagenum (t.bigAllocations t.brkBigalloc).end_ ≤ pagenum (roundUp v pageSize)
  sane : SanePages env (roundDown v pageSize)
    (roundDown (t.bigAllocations t.brkBigalloc).end_ pageSize)
  sane_mapping : SanePages env (roundDown (roundUp v pageSize) pageSize)
    (roundDown (t.bigAllocations t.brkMappingBigalloc).end_ pageSize)

/-- The break may go up to `v`: the brk bigalloc begins before its last page or stays on it, and if
its mapping has to grow, there is room for that. -/
structure MayGrow (env : Env) (t : Table) (v : Nat) : Prop where
  page : (t.bigAllocations t.brkBigalloc).begin
      ≤ roundDown (t.bigAllocations t.brkBigalloc).end_ pageSize
    ∨ pagenum v = pagenum (t.bigAllocations t.brkBigalloc).end_
  sane : SanePages env (roundDown (t.bigAllocations t.brkBigalloc).end_ pageSize)
    (roundDown v pageSize)
  mapping : (t.bigAllocations t.brkMappingBigalloc).end_ < roundUp v pageSize →
    t.RoomAbove t.brkMappingBigalloc (roundUp v pageSize)
      ∧ (∀ s, t.sequences (t.seqOf t.brkMappingBigalloc) = some s → s.CanGrow)
      ∧ SanePages env (roundDown (t.bigAllocations t.brkMappingBigalloc).end_ pageSize)
          (roundDown (roundUp v pageSize) pageSize)

/-- The break may go to `v`, up or down, and stays above the begin of the brk bigalloc. -/
structure MayMove (env : Env) (t : Table) (v : Nat) : Prop where
  above : (t.bigAllocations t.brkBigalloc).begin < v
  shrink : v < (t.bigAllocations t.brkBigalloc).end_ → t.MayShrink env v
  grow : (t.bigAllocations t.brkBigalloc).end_ < v → t.MayGrow env v

theorem updateBrk_of_lt (h0 : t.brkMappingBigalloc ≠ 0) (hlt : v < (t t.brkBigalloc).end_) :
    t.updateBrk env v = (t.truncateBigallocAtEnd env t.brkBigalloc v).bind
      (·.mmapAllocatorNotifyBrk env v) := by
  unfold updateBrk
  simp [if_neg h0, if_pos hlt, Option.bind_eq_bind]

theorem updateBrk_of_gt (h0 : t.brkMappingBigalloc ≠ 0) (hlt : (t t.brkBigalloc).end_ < v) :
    t.updateBrk env v = (t.mmapAllocatorNotifyBrk env v).bind
      (fun u => u.extendBigalloc env u.brkBigalloc v) := by
  unfold updateBrk
  simp [if_neg h0, if_neg (Nat.le_of_lt hlt).not_gt, gt_iff_lt, if_pos hlt, Option.bind_eq_bind]

theorem updateBrk_of_eq (h : (t t.brkBigalloc).end_ = v) : t.updateBrk env v = some t := by
  unfold updateBrk
  simp [h, gt_iff_lt, ite_self]

theorem BrkAt.shrink (h : t.BrkAt c) (hlo : (t t.brkBigalloc).begin < v)
    (hlt : v < c) (hok : t.MayShrink env v) :
    ∃ t', t.updateBrk env v = some t' ∧ t'.BrkAt v
      ∧ (t.curbrk < v → ∃ t₁, t.mmapAllocatorNotifyBrk env v = some t₁
        ∧ t₁.updateBrk env v = some t') := by
  have hlt' : v < (t t.brkBigalloc).end_ := by
    rw [h.end_eq]
    exact hlt
  have hle : roundUp v pageSize ≤ (t t.brkMappingBigalloc).end_ := by
    rw [h.mapping_end]
    exact roundUp_mono pageSize hlt.le
  obtain ⟨t₁, hrun, hm1, hmoved1⟩ := h.brk_shrink hlo hlt' hok.kids hok.sane
  have hend1 : (t₁ t₁.brkBigalloc).end_ = v := by
    rw [hmoved1.brk, hmoved1.self]
  have hmap1 : t₁ t₁.brkMappingBigalloc = t t.brkMappingBigalloc := by
    rw [hmoved1.mapping, hmoved1.of_ne h.mapping_ne_brk]
  rcases Nat.eq_or_lt_of_le hle with heq | hcut
  · -- the mapping keeps its end
    refine ⟨t₁, ?_, ⟨hm1, hend1, by rw [hmap1, heq]⟩, fun _ => ⟨t, ?_, ?_⟩⟩
    · rw [updateBrk_of_lt h.mapping_ne_zero hlt', hrun]
      exact mmapAllocatorNotifyBrk_of_eq (by rw [hmap1, heq])
    · exact mmapAllocatorNotifyBrk_of_eq heq
    · rw [updateBrk_of_lt h.mapping_ne_zero hlt', hrun]
      exact mmapAllocatorNotifyBrk_of_eq (by rw [hmap1, heq])
  · obtain ⟨t₂, hrun2, hm2, hmoved2⟩ := hm1.mmap_shrink (v := v) (by rw [hmap1]; exact hcut)
      (by rw [hend1]; exact le_roundUp v) (by rw [hmap1]; exact hok.sane_mapping)
    have hend2 : (t₂ t₂.brkBigalloc).end_ = v := by
      rw [hmoved2.brk, hmoved2.of_ne (Ne.symm hm1.mapping_ne_brk), hend1]
    have hmap2 : (t₂ t₂.brkMappingBigalloc).end_ = roundUp v pageSize := by
      rw [hmoved2.mapping, hmoved2.self]
    refine ⟨t₂, ?_, ⟨hm2, hend2, hmap2⟩, fun hcur => ?_⟩
    · rw [updateBrk_of_lt h.mapping_ne_zero hlt', hrun]
      exact hrun2
    · have hinside := h.brk_inside
      have hup := le_roundUp v
      obtain ⟨t3, hrun3, hmoved3, hcut3⟩ := h.cut_first (by omega) hcut (hok.order hcur) hrun hrun2
      refine ⟨t3, hrun3, ?_⟩
      rw [updateBrk_of_lt (by rw [hmoved3.mapping]; exact h.mapping_ne_zero)
        (by rw [hmoved3.brk, hmoved3.of_ne (Ne.symm h.mapping_ne_brk)]; exact hlt'),
        hmoved3.brk, hcut3]
      exact mmapAllocatorNotifyBrk_of_eq hmap2.symm

/-- The records have their begins and owners, and those of the break are the same two. -/
structure SameOwners (t t' : Table) : Prop where
  brk : t'.brkBigalloc = t.brkBigalloc
  mapping : t'.brkMappingBigalloc = t.brkMappingBigalloc
  begin_eq : ∀ n, (t'.bigAllocations n).begin = (t.bigAllocations n).begin
  allocatedBy : ∀ n, (t'.bigAllocations n).allocatedBy = (t.bigAllocations n).allocatedBy

theorem EndMoved.sameOwners (h : t.EndMoved r e t') : t.SameOwners t' := by
  refine ⟨h.brk, h.mapping, h.begin_eq, fun n => ?_⟩
  rw [h.records, Function.update_apply]
  split <;> simp [*]

theorem SameOwners.trans {t₂ : Table} (h : t.SameOwners t') (h' : t'.SameOwners t₂) :
    t.SameOwners t₂ :=
  ⟨h'.brk.trans h.brk, h'.mapping.trans h.mapping, fun n => (h'.begin_eq n).trans (h.begin_eq n),
    fun n => (h'.allocatedBy n).trans (h.allocatedBy n)⟩

theorem BrkAt.grow (h : t.BrkAt c) (hlt : c < v) (hok : t.MayGrow env v) :
    ∃ t', t.updateBrk env v = some t' ∧ t'.BrkAt v ∧ t.SameOwners t'
      ∧ ∃ t₁, t.mmapAllocatorNotifyBrk env v = some t₁ ∧ t₁.updateBrk env v = some t' := by
  have hlt' : (t t.brkBigalloc).end_ < v := by
    rw [h.end_eq]
    exact hlt
  obtain ⟨t₁, hrun1, hm1, hmoved1⟩ : ∃ t₁, t.mmapAllocatorNotifyBrk env v = some t₁ ∧ t₁.BrkMapped
      ∧ t.EndMoved t.brkMappingBigalloc (roundUp v pageSize) t₁ := by
    have hle : (t t.brkMappingBigalloc).end_ ≤ roundUp v pageSize := by
      rw [h.mapping_end]
      exact roundUp_mono pageSize hlt.le
    rcases Nat.eq_or_lt_of_le hle with heq | hgrow
    · exact ⟨t, mmapAllocatorNotifyBrk_of_eq heq.symm, h.toBrkMapped, EndMoved.refl heq⟩
    · obtain ⟨hroom, hcan, hsane⟩ := hok.mapping hgrow
      exact h.mmap_grow hgrow hroom hcan hsane
  have hbrk1 : t₁ t₁.brkBigalloc = t t.brkBigalloc := by
    rw [hmoved1.brk, hmoved1.of_ne (Ne.symm h.mapping_ne_brk)]
  have hmap1 : (t₁ t₁.brkMappingBigalloc).end_ = roundUp v pageSize := by
    rw [hmoved1.mapping, hmoved1.self]
  obtain ⟨t', hrun', hm', hmoved'⟩ := hm1.brk_grow (v := v) (by rw [hbrk1]; exact hlt')
    (by rw [hmap1]; exact le_roundUp v) (by rw [hbrk1]; exact hok.page)
    (by rw [hbrk1]; exact hok.sane)
  refine ⟨t', ?_, ⟨hm', ?_, ?_⟩, hmoved1.sameOwners.trans hmoved'.sameOwners, t₁, hrun1, ?_⟩
  · rw [updateBrk_of_gt h.mapping_ne_zero hlt', hrun1]
    exact hrun'
  · rw [hmoved'.brk, hmoved'.self]
  · rw [hmoved'.mapping, hmoved'.of_ne hm1.mapping_ne_brk, hmap1]
  · rw [updateBrk_of_gt hm1.mapping_ne_zero (by rw [hbrk1]; exact hlt'),
      mmapAllocatorNotifyBrk_of_eq hmap1.symm]
    exact hrun'

/-- A notification brings both records to the new break, in either order. -/
theorem BrkAt.notify (h : t.BrkAt c) (hok : t.MayMove env v) :
    ∃ t', t.brkAllocatorNotifyBrk env v = some t' ∧ t'.BrkAt v ∧ (c < v → t.SameOwners t') := by
  obtain ⟨t', hrun, hat, hsame, hfirst⟩ : ∃ t', t.updateBrk env v = some t' ∧ t'.BrkAt v
      ∧ (c < v → t.SameOwners t') ∧ (t.curbrk < v → ∃ t₁, t.mmapAllocatorNotifyBrk env v = some t₁
        ∧ t₁.updateBrk env v = some t') := by
    rcases Nat.lt_trichotomy v c with hlt | rfl | hgt
    · obtain ⟨t', hrun, hat, hfirst⟩ :=
        h.shrink hok.above hlt (hok.shrink (by rw [h.end_eq]; exact hlt))
      exact ⟨t', hrun, hat, fun hgt => absurd hgt hlt.not_gt, hfirst⟩
    · exact ⟨t, updateBrk_of_eq h.end_eq, h, fun hgt => absurd hgt (Nat.lt_irrefl v), fun _ =>
        ⟨t, mmapAllocatorNotifyBrk_of_eq h.mapping_end.symm, updateBrk_of_eq h.end_eq⟩⟩
    · obtain ⟨t', hrun, hat, hsame, hfirst⟩ := h.grow hgt (hok.grow (by rw [h.end_eq]; exact hgt))
      exact ⟨t', hrun, hat, fun _ => hsame, fun _ => hfirst⟩
  refine ⟨t', ?_, hat, hsame⟩
  unfold brkAllocatorNotifyBrk
  simp only [h.initialized, Bool.not_true, Bool.false_eq_true, if_false, Option.bind_eq_bind]
  by_cases hcur : t.curbrk < v
  · obtain ⟨t₁, hrun1, hrun'⟩ := hfirst hcur
    rw [if_pos hcur, hrun1]
    exact hrun'
  · rw [if_neg hcur, hrun]
    exact mmapAllocatorNotifyBrk_of_eq hat.mapping_end.symm

/-! ### Runs -/

/-- The state after initialization: the brk bigalloc has been created at the end of a mapping. -/
structure BrkStarted (t : Table) : Prop where
  initialized : t.brkInitialized = true
  wellFormed : t.WellFormed
  mapping : t.Top t.brkMappingBigalloc
  brk : t.InUse t.brkBigalloc
  under : t.up t.brkBigalloc = t.brkMappingBigalloc
  whole : (t.bigAllocations t.brkBigalloc).end_ = (t.bigAllocations t.brkMappingBigalloc).end_
  backed : t.BackedTidily t.brkMappingBigalloc

/-- The table agrees with a break at `v`: both records end there, the sequence of the mapping keeps up
with it, and the page index is canonical. -/
structure FollowsBrk (t : Table) (v : Nat) : Prop where
  brk : (t.bigAllocations t.brkBigalloc).end_ = v
  nonempty : (t.bigAllocations t.brkBigalloc).begin < (t.bigAllocations t.brkBigalloc).end_
    ∨ ¬ t.InUse t.brkBigalloc
  mapping : (t.bigAllocations t.brkMappingBigalloc).end_ = roundUp v pageSize
  backed : t.Backed t.brkMappingBigalloc
  canonical : t.Canonical

/-- The table with another value in `__curbrk`. -/
def withCurbrk (t : Table) (curbrk : Nat) : Table := { t with curbrk := curbrk }

/-- The tables that notifications lead to, when each may be made. -/
inductive Notified (env : Env) (t₀ : Table) : Table → Prop
  | start : Notified env t₀ t₀
  | notify {t t' : Table} (curbrk v : Nat) (h : Notified env t₀ t)
      (hok : (t.withCurbrk curbrk).MayMove env v)
      (hrun : (t.withCurbrk curbrk).brkAllocatorNotifyBrk env v = some t') : Notified env t₀ t'

theorem BrkStarted.brkAt (h : t.BrkStarted) : ∃ c, t.BrkAt c := by
  have hne := h.mapping.1.ne_zero
  refine ⟨_, ⟨⟨h.initialized, h.wellFormed, h.mapping, h.brk, h.under, fun n hn hup hne' => ?_,
    h.backed⟩, rfl, ?_⟩⟩
  · -- what lies in the mapping beside the brk bigalloc lies before it
    have hb := h.wellFormed.bounds n hn
    have hin := h.wellFormed.toFitted.tiled.inside_of_up hn hne hup
    have hap := h.wellFormed.apart n _ hn h.brk (hup.trans h.under.symm) hne'
    unfold Apart at hap
    have := h.whole
    omega
  · rw [h.whole]
    exact (roundUp_eq_self_iff.mpr (h.wellFormed.aligned _ h.mapping.1 h.mapping.2).2).symm

theorem BrkAt.withCurbrk (h : t.BrkAt c) (curbrk : Nat) : (t.withCurbrk curbrk).BrkAt c :=
  ⟨⟨h.initialized, h.wellFormed.of_shape (fun _ => rfl) rfl rfl rfl, h.mapping, h.brk, h.under,
    h.last, h.backed⟩, h.end_eq, h.mapping_end⟩

theorem Notified.brkAt {t0 : Table} (hrun : Notified env t0 t) (h0 : t0.BrkStarted) :
    ∃ c, t.BrkAt c := by
  induction hrun with
  | start => exact h0.brkAt
  | notify curbrk v h hok hrun ih =>
    obtain ⟨c, hc⟩ := ih
    obtain ⟨t', hrun', hat, -⟩ := (hc.withCurbrk curbrk).notify hok
    obtain rfl := Option.mem_unique hrun hrun'
    exact ⟨v, hat⟩

theorem BrkAt.followsBrk (h : t.BrkAt v) : t.FollowsBrk v := by
  obtain ⟨s, hs, hsane, -, hsb, hse⟩ := h.backed
  exact ⟨h.end_eq, .inl (h.wellFormed.bounds _ h.brk), h.mapping_end, ⟨s, hs, hsane, hsb, hse⟩,
    h.wellFormed.canonical⟩

/-! ### A break area of four pages -/

/-- A mapping of four pages, and the brk bigalloc from its first page on. -/
def sampleBrkRecords : Option (List Nat × Table) :=
  createAll sampleEnv [] {} [
    { ptr := 4096, size := 16384, allocatorPrivate := 1, allocatedBy := some .mmap },
    { ptr := 5000, size := 15480, maybeParent := 1, allocatedBy := some .brk }]

/-- The one anonymous entry of the mapping. -/
def sampleBrkSequence : MappingSequence where
  begin := 4096
  end_ := 20480
  nused := 1
  mappings := Function.update (fun _ => {}) 0
    { begin := 4096, end_ := 20480, prot := 3, isAnon := true }

/-- The brk allocator is initialized with the two records. -/
def startBrk (t : Table) : Table :=
  { t with
    sequences := Function.update t.sequences 1 (some sampleBrkSequence)
    brkBigalloc := 2
    brkMappingBigalloc := 1
    brkInitialized := true }

/-- What the two records of the samples are. -/
structure IsBrkArea (used : List Nat) (t : Table) : Prop where
  used : used = [2, 1]
  mapping : t.InUse 1 ∧ (t.bigAllocations 1).parent = 0 ∧ (t.bigAllocations 1).begin = 4096
    ∧ (t.bigAllocations 1).end_ = 20480 ∧ (t.bigAllocations 1).allocatorPrivate = 1
  brk : t.InUse 2 ∧ (t.bigAllocations 2).parent = 1 ∧ (t.bigAllocations 2).begin = 5000
    ∧ (t.bigAllocations 2).end_ = 20480

instance (used : List Nat) (t : Table) : Decidable (IsBrkArea used t) :=
  decidable_of_iff (_ ∧ _ ∧ _) ⟨fun h => ⟨h.1, h.2.1, h.2.2⟩, fun h => ⟨h.1, h.2, h.3⟩⟩

theorem sampleBrkSequence_sane : sampleBrkSequence.Sane :=
  ⟨by decide, by decide, by decide, by decide⟩

theorem sampleBrkSequence_tidy : sampleBrkSequence.Tidy := by
  intro i h1 _
  have hne : i ≠ 0 := by
    rintro rfl
    exact absurd h1 (by decide)
  exact .inl ⟨by simp [sampleBrkSequence, hne], by simp [sampleBrkSequence, hne]⟩

theorem sampleBrkRecords_started : ∃ used t, sampleBrkRecords = some (used, t) ∧ IsBrkArea used t
    ∧ (startBrk t).BrkStarted ∧ ∀ n, t.InUse n → n = 2 ∨ n = 1 := by
  obtain ⟨used, t, ht, hn⟩ : ∃ used t, sampleBrkRecords = some (used, t) ∧ IsBrkArea used t := by
    decide +kernel
  obtain ⟨hwf, -, hused, -⟩ := sample_empty.createAll_wellFormed ht
  obtain ⟨hin1, hup1, hb1, he1, hp1⟩ := hn.mapping
  obtain ⟨hin2, hup2, hb2, he2⟩ := hn.brk
  refine ⟨used, t, ht, hn, ⟨rfl, hwf.of_shape (fun _ => rfl) rfl rfl rfl, ⟨hin1, hup1⟩, hin2, hup2,
    he2.trans he1.symm, sampleBrkSequence, ?_, sampleBrkSequence_sane, sampleBrkSequence_tidy, hb1.symm,
    he1.symm⟩, fun n hin => ?_⟩
  · change update t.sequences 1 _ (t 1).allocatorPrivate = _
    rw [hp1, update_self]
  · have := hused n hin
    rw [hn.used] at this
    simpa using this

/-- **Notifications of the break are followed**, whatever `__curbrk` holds: from any table they led
to, the next one that may be made returns, with both records, the sequence and the page index as they
should be. -/
theorem brkNotifications_followed (env : Env) (t₀ t : Table) (curbrk v : Nat)
    (h₀ : t₀.BrkStarted) (hrun : Notified env t₀ t) (hok : (t.withCurbrk curbrk).MayMove env v) :
    ∃ t', (t.withCurbrk curbrk).brkAllocatorNotifyBrk env v = some t' ∧ t'.FollowsBrk v := by
  obtain ⟨c, hc⟩ := hrun.brkAt h₀
  obtain ⟨t', hrun', hat, -⟩ := (hc.withCurbrk curbrk).notify hok
  exact ⟨t', hrun', hat.followsBrk⟩

/-- From the area above the break may go up to 30000. -/
theorem sampleBrk_mayMove : ∃ used t, sampleBrkRecords = some (used, t) ∧ IsBrkArea used t
    ∧ (startBrk t).BrkStarted ∧ ∀ (env : Env) (curbrk : Nat),
      env.biggestSaneUserAlloc = sampleEnv.biggestSaneUserAlloc →
      ((startBrk t).withCurbrk curbrk).MayMove env 30000 := by
  obtain ⟨used, t, ht, hn, hstart, hused⟩ := sampleBrkRecords_started
  obtain ⟨-, hup1, -, he1, hp1⟩ := hn.mapping
  obtain ⟨-, hup2, hb2, he2⟩ := hn.brk
  refine ⟨used, t, ht, hn, hstart, fun env curbrk henv => ⟨?_, fun hlt => ?_, fun _ => ⟨?_, ?_,
    fun _ => ⟨⟨fun h => ?_, fun n hn hup hne => ?_, fun _ => by decide⟩, fun s hs => ?_, ?_⟩⟩⟩⟩
  · change (t 2).begin < 30000
    omega
  · change 30000 < (t 2).end_ at hlt
    omega
  · refine .inl ?_
    change (t 2).begin ≤ roundDown (t 2).end_ pageSize
    rw [hb2, he2]
    decide
  · change SanePages _ (roundDown (t 2).end_ pageSize) _
    rw [he2, SanePages, henv]
    decide
  · exact absurd hup1 h
  · -- the other record is not a top-level one
    obtain rfl : n = 2 := (hused n hn).resolve_right hne
    exact absurd (hup2.symm.trans (hup.trans hup1)) (by decide)
  · change Function.update t.sequences 1 _ (t 1).allocatorPrivate = _ at hs
    rw [hp1, Function.update_self, Option.some.injEq] at hs
    subst hs
    exact .inl rfl
  · change SanePages _ (roundDown (t 1).end_ pageSize) _
    rw [he1, SanePages, henv]
    decide

theorem brkNotifications_followed_sample : ∃ used t t', sampleBrkRecords = some (used, t)
    ∧ ((startBrk t).withCurbrk 20480).brkAllocatorNotifyBrk sampleEnv 30000 = some t'
    ∧ t'.FollowsBrk 30000 := by
  obtain ⟨used, t, ht, -, hstart, hok⟩ := sampleBrk_mayMove
  obtain ⟨t', hrun, hfollows⟩ := brkNotifications_followed sampleEnv (startBrk t) (startBrk t) 20480
    30000 hstart .start (hok sampleEnv 20480 rfl)
  exact ⟨used, t, t', ht, hrun, hfollows⟩

/-- **A break back at the begin of the brk bigalloc** leaves an empty record; and with `__curbrk`
below the new break, the mapping's number stays on pages behind the mapping. -/
theorem brkNotifications_not_followed : ∃ used t, sampleBrkRecords = some (used, t)
    ∧ (startBrk t).BrkStarted ∧ (t.bigAllocations 2).begin = 5000
    ∧ (∃ t', ((startBrk t).withCurbrk 20480).brkAllocatorNotifyBrk sampleEnv 5000 = some t'
      ∧ ¬ t'.FollowsBrk 5000)
    ∧ ∃ t', ((startBrk t).withCurbrk 5000).brkAllocatorNotifyBrk sampleEnv 6000 = some t'
      ∧ ¬ t'.FollowsBrk 6000 := by
  obtain ⟨used, t, ht, hn, hstart, -⟩ := sampleBrkRecords_started
  obtain ⟨x, hx, ⟨y, hy, hy2, hyb, hye, hyin⟩, z, hz, hzp, hze⟩ : ∃ x, sampleBrkRecords = some x
      ∧ (∃ y, ((startBrk x.2).withCurbrk 20480).brkAllocatorNotifyBrk sampleEnv 5000 = some y
        ∧ y.brkBigalloc = 2 ∧ (y 2).begin = 5000 ∧ (y 2).end_ = 5000
        ∧ y.InUse 2)
      ∧ ∃ z, ((startBrk x.2).withCurbrk 5000).brkAllocatorNotifyBrk sampleEnv 6000 = some z
        ∧ z.pageindex 3 = 1 ∧ (z 1).end_ = 8192 := by
    decide +kernel
  obtain rfl := Option.mem_unique hx ht
  refine ⟨used, t, ht, hstart, hn.brk.2.2.1, ⟨y, hy, fun hf => ?_⟩, z, hz, fun hf => ?_⟩
  · have := hf.nonempty
    rw [hy2, hyb, hye] at this
    exact this.elim (by decide) fun h => h hyin
  · -- the page index sends page 3 to a record that ends before it
    have hdeep := hf.canonical 3
    rw [hzp] at hdeep
    rcases hdeep with ⟨h0, -⟩ | ⟨-, hspans, -⟩
    · exact absurd h0 (by decide)
    · have := hspans.2
      rw [hze] at this
      exact absurd this (by decide)

/-! ### The search for the break -/

/-- The nearest indexed page below `page` that is at most `MAX_BRK_PAGES_TO_SEARCH` pages away. -/
structure NearestIndexed (t : Table) (page q : Nat) : Prop where
  lt : q < page
  le : page ≤ q + 128
  indexed : t.pageindex q ≠ 0
  gap : ∀ r, q < r → r < page → t.pageindex r = 0

/-- The difference of the page numbers wraps around at once. -/
theorem searchBackwards_eq {t : Table} {page : Nat} (hpage : page < 2 ^ 64)
    (h0 : t.pageindex page = 0) : t.searchBackwards page (page + 1) page = page - 1 := by
  rcases page with _ | _ | p
  · rfl
  · exact if_pos ⟨Nat.one_pos, h0⟩
  · refine (if_pos ⟨Nat.succ_pos _, h0⟩).trans ((if_neg (by omega)).trans ?_)
    -- one page on, the difference is 2^64 - 1
    exact ite_eq_right_iff.mpr fun _ => if_pos (by omega)

/-- The brk bigalloc ends at `c`, and it is the one record of its mapping that brk has made. -/
structure BrkArea (t : Table) (c : Nat) : Prop extends BrkAt t c where
  by_mmap : (t.bigAllocations t.brkMappingBigalloc).allocatedBy = some .mmap
  by_brk : (t.bigAllocations t.brkBigalloc).allocatedBy = some .brk

section

variable {t : Table} {c x : Nat} (h : t.BrkArea c)

include h

theorem BrkArea.mem_mapping (hx : x ∈ t.addrs t.brkBigalloc) : x ∈ t.addrs t.brkMappingBigalloc :=
  have hin := h.brk_inside
  ⟨hin.1.trans hx.1, hx.2.trans_le hin.2⟩

/-- A lookup for brk finds the brk bigalloc where it is, and nothing in the rest of its mapping. -/
theorem BrkArea.find_brk (env : Env) (hx : x ∈ t.addrs t.brkMappingBigalloc)
    (hb : (t t.brkBigalloc).begin ≤ x) :
    t.findBigallocFromEntry (t.pageindex (pagenum x)) x .brk false
      = some (if x < c then t.brkBigalloc else 0) := by
  have hwf := h.wellFormed
  have hmapping : ¬ t.Matches .brk false t.brkMappingBigalloc := by
    unfold Matches
    rw [if_neg Bool.false_ne_true, h.by_mmap]
    decide
  have habove : ∀ n, Below t.up t.brkMappingBigalloc n → n ≠ 0 → ¬ t.Matches .brk false n := by
    intro n hn hn0
    rcases below_iff.mp hn with rfl | hn
    · exact hmapping
    · rw [h.mapping.2] at hn
      exact absurd (eq_null_of_below hwf.links.up_zero hn) hn0
  split
  · rename_i hlt
    have hxb : x ∈ t.addrs t.brkBigalloc := ⟨hb, by rw [h.end_eq]; exact hlt⟩
    have hfind : t.findBigallocFromTop env x .brk false = some (t.brkBigalloc, t) :=
      hwf.findBigallocFromTop_first h.brk hxb (fun n hn hnb hn0 =>
        habove n (h.under ▸ (below_iff.mp hn).resolve_left (Ne.symm hnb)) hn0) h.by_brk
    unfold findBigallocFromTop at hfind
    rw [if_neg fun hc => hwf.pageindex_ne_zero h.mapping.1 hx hc.1] at hfind
    obtain ⟨n, hn, heq⟩ := of_bind hfind
    obtain ⟨rfl, -⟩ := Prod.mk.inj (Option.some.inj heq)
    exact hn
  · rename_i hge
    obtain ⟨n, hn, hcases⟩ := hwf.findBigallocFromEntry_spec .brk false x
    rw [hn, hcases.resolve_right]
    rintro ⟨hu, hxn, hm⟩
    -- no child of the mapping has the address, so only the mapping and what is above it do
    refine habove n (hwf.laminar_addrs.below_of_no_child hu h.mapping.1 hxn hx ?_) hu.ne_zero hm
    intro k hk hup hxk
    by_cases hkb : k = t.brkBigalloc
    · rw [hkb] at hxk
      exact hge (h.end_eq ▸ hxk.2)
    · exact absurd hxk.2 (Nat.not_lt.mpr ((h.last k hk hup hkb).trans hb))

/-- The nearest indexed page below an unindexed one is the last of the mapping, if it has an address of
the brk bigalloc. -/
theorem BrkArea.nearest_last {page q : Nat} (h0 : t.pageindex page = 0)
    (hq : t.NearestIndexed page q) (hx : x ∈ t.addrs t.brkBigalloc) (hxq : pagenum x = q) :
    roundUp c pageSize = (q + 1) * pageSize := by
  have hxm := h.mem_mapping hx
  have hend := hxm.2
  have hbegin := hxm.1
  rw [h.mapping_end] at hend
  have hlt := hq.lt
  have hle : (q + 1) * pageSize ≤ roundUp c pageSize := by
    simp only [pagenum, roundUp, pageSize] at hxq hend ⊢
    omega
  by_contra hne
  have hnext : (q + 1) * pageSize ∈ t.addrs t.brkMappingBigalloc := by
    refine ⟨?_, by rw [h.mapping_end]; omega⟩
    simp only [pagenum, pageSize] at hxq ⊢
    omega
  have hpage : pagenum ((q + 1) * pageSize) = q + 1 := by
    simp [pagenum, pageSize]
  have hindexed := h.wellFormed.pageindex_ne_zero h.mapping.1 hnext
  rw [hpage] at hindexed
  rcases Nat.eq_or_lt_of_le (show q + 1 ≤ page by omega) with heq | hgap
  · exact hindexed (heq ▸ h0)
  · exact hindexed (hq.gap (q + 1) (by omega) hgap)

end

/-- **An address behind the break is found exactly if** the nearest indexed page, which is one of the
brk bigalloc, is the next one below, and the brk bigalloc reaches to the end of that page.  The current
break covers the address, and the break may move there. -/
theorem findBigallocFromTop_behind_brk_iff (env : Env) (t : Table) (c addr q x : Nat)
    (h : t.BrkArea c) (hsys : env.systrapIsInitialized = false)
    (h2 : (t.bigAllocations 2).begin ≠ 0) (hsbrk : env.sbrk < 2 ^ 64) (hcovers : addr < env.sbrk)
    (hok : t.MayMove env env.sbrk) (h0 : t.pageindex (pagenum addr) = 0)
    (hq : t.NearestIndexed (pagenum addr) q) (hx : x ∈ t.addrs t.brkBigalloc) (hxq : pagenum x = q) :
    (∃ t', t.findBigallocFromTop env addr .brk false = some (t.brkBigalloc, t')
        ∧ t'.FollowsBrk env.sbrk)
      ↔ q + 1 = pagenum addr ∧ pageSize ∣ c := by
  have hlast := h.nearest_last h0 hq hx hxq
  have hlt := hq.lt
  have hb0 := h.brk.ne_zero
  have hpage : pagenum addr < 2 ^ 64 := (Nat.div_le_self ..).trans_lt (hcovers.trans hsbrk)
  have hsearch := searchBackwards_eq hpage h0
  -- the highest address of the page is in the mapping, and in the brk bigalloc if that ends there
  have hhigh : pagenum (q * pageSize + (pageSize - 1)) = q := by
    simp only [pagenum, pageSize]
    omega
  have hxle : x ≤ q * pageSize + (pageSize - 1) := by
    simp only [pagenum, pageSize] at hxq ⊢
    omega
  have hhighm : q * pageSize + (pageSize - 1) ∈ t.addrs t.brkMappingBigalloc := by
    refine ⟨(h.mem_mapping hx).1.trans hxle, ?_⟩
    rw [h.mapping_end, hlast]
    simp only [pageSize]
    omega
  have htest := h.find_brk env hhighm (hx.1.trans hxle)
  rw [hhigh] at htest
  have hends : q * pageSize + (pageSize - 1) < c ↔ pageSize ∣ c := by
    simp only [roundUp, pageSize] at hlast ⊢
    omega
  unfold findBigallocFromTop
  rw [if_pos ⟨h0, by simp [hsys]⟩]
  simp only [probeEarly, if_pos h2, hsearch]
  constructor
  · rintro ⟨t', hrun, -⟩
    by_cases hnext : q + 1 = pagenum addr
    · refine ⟨hnext, hends.mp ?_⟩
      by_contra hno
      rw [← hnext, Nat.add_sub_cancel, htest, if_neg hno] at hrun
      simp [hq.indexed, hnext, h0] at hrun
      exact hb0 hrun.1.symm
    · -- the search has ended on a page that is not indexed
      rw [hq.gap (pagenum addr - 1) (by omega) (by omega)] at hrun
      simp [h0] at hrun
      exact absurd hrun.1.symm hb0
  · rintro ⟨hnext, hdvd⟩
    have haddr : c ≤ addr := by
      have hle := le_roundUp c
      simp only [pagenum, pageSize] at hnext hlast hle
      omega
    obtain ⟨t', hnotify, hat, hsame⟩ := h.toBrkAt.notify hok
    have hsame := hsame (haddr.trans_lt hcovers)
    have harea : t'.BrkArea env.sbrk :=
      ⟨hat, by rw [hsame.mapping, hsame.allocatedBy]; exact h.by_mmap,
        by rw [hsame.brk, hsame.allocatedBy]; exact h.by_brk⟩
    have hbegin : (t' t'.brkBigalloc).begin ≤ addr := by
      have hbounds := h.wellFormed.bounds _ h.brk
      rw [h.end_eq] at hbounds
      rw [hsame.brk, hsame.begin_eq]
      omega
    have hmem := harea.mem_mapping ⟨hbegin, by rw [hat.end_eq]; exact hcovers⟩
    have hfound := harea.find_brk env hmem hbegin
    have hindexed := hat.wellFormed.pageindex_ne_zero hat.mapping.1 hmem
    rw [if_pos hcovers, hsame.brk] at hfound
    refine ⟨t', ?_, hat.followsBrk⟩
    rw [← hnext, Nat.add_sub_cancel, htest, if_pos (hends.mpr hdvd)]
    simp [hq.indexed, hb0, hnotify, hnext, hindexed, hfound]

/-- Before the traps are there, with the break at 30000. -/
def earlyEnv : Env := { sampleEnv with systrapIsInitialized := false, sbrk := 30000 }

/-- From the next page behind the area above. -/
theorem findBigallocFromTop_next_page : ∃ used t t', sampleBrkRecords = some (used, t)
    ∧ (startBrk t).findBigallocFromTop earlyEnv 21000 .brk false = some (2, t')
    ∧ t'.FollowsBrk 30000 := by
  obtain ⟨used, t, ht, hn, hstart, hok⟩ := sampleBrk_mayMove
  obtain ⟨-, hup1, -, he1, hp1⟩ := hn.mapping
  obtain ⟨-, hup2, hb2, he2⟩ := hn.brk
  obtain ⟨x, hx, hby1, hby2, h2, h0, h4⟩ : ∃ x, sampleBrkRecords = some x
      ∧ (x.2 1).allocatedBy = some .mmap ∧ (x.2 2).allocatedBy = some .brk ∧ (x.2 2).begin ≠ 0
      ∧ x.2.pageindex 5 = 0 ∧ x.2.pageindex 4 ≠ 0 := by
    decide +kernel
  obtain rfl := Option.mem_unique hx ht
  obtain ⟨c, hat⟩ := hstart.brkAt
  obtain rfl : c = 20480 := hat.end_eq.symm.trans he2
  have hrun := (findBigallocFromTop_behind_brk_iff earlyEnv (startBrk t) 20480 21000 4 20000
    ⟨hat, hby1, hby2⟩ rfl h2 (by decide) (by decide) (hok earlyEnv _ rfl) h0
    ⟨by decide, by decide, h4, fun r h1 h5 => ?_⟩ ⟨?_, ?_⟩ (by decide)).mpr ⟨by decide, by decide⟩
  · obtain ⟨t', hrun, hfollows⟩ := hrun
    exact ⟨used, t, t', ht, hrun, hfollows⟩
  · exact absurd h1 (Nat.le_of_lt_succ h5).not_gt
  · change (t 2).begin ≤ 20000
    omega
  · change 20000 < (t 2).end_
    omega

/-- From two pages behind it the address is not found, though the break covers it; nor is it from the
next page, when the brk bigalloc ends inside its last page. -/
theorem findBigallocFromTop_two_pages : ∃ t, sampleBrkRecords.map (startBrk ·.2) = some t
    ∧ t.pageindex 4 ≠ 0 ∧ t.pageindex 5 = 0 ∧ t.pageindex (pagenum 28000) = 0
    ∧ (∃ r, t.findBigallocFromTop earlyEnv 28000 .brk false = some r ∧ r.1 = 0)
    ∧ (∃ t', t.brkAllocatorNotifyBrk earlyEnv 30000 = some t'
      ∧ t'.findBigallocFromEntry (t'.pageindex (pagenum 28000)) 28000 .brk false = some 2)
    ∧ ∃ t₁, t.brkAllocatorNotifyBrk earlyEnv 20000 = some t₁
      ∧ (t₁.bigAllocations 2).begin = 5000 ∧ (t₁.bigAllocations 2).end_ = 20000
      ∧ t₁.pageindex 4 ≠ 0 ∧ t₁.pageindex (pagenum 21000) = 0
      ∧ (∃ r, t₁.findBigallocFromTop earlyEnv 21000 .brk false = some r ∧ r.1 = 0)
      ∧ ∃ t', t₁.brkAllocatorNotifyBrk earlyEnv 30000 = some t'
        ∧ t'.findBigallocFromEntry (t'.pageindex (pagenum 21000)) 21000 .brk false = some 2 := by
  decide +kernel

end Table

end Liballocs
