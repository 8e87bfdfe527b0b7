/-
Closing the hole between two mappings of one file.

The upper bigalloc goes, and the lower one takes its addresses and those of the hole, which always
leaves a good table.  The hole and the upper entries are added to the lower sequence, under its
filename, and are anonymous exactly when it has none.  When there are eight entries the rest is lost.
-/
import Liballocs.StaticFile
import Liballocs.Proofs.FilePositions
import Liballocs.Proofs.MmapFree

namespace Liballocs

open Forest Segments

namespace MappingSequence

variable {s s' : MappingSequence} {r : Mapping} {objectBelow : Nat → Nat} {e : Nat}
  {x : MappingEntry} {l : List MappingEntry}

/-! ### Requests with the filename of the sequence -/

theorem extensionFilenameIsConsistent_same (h : r.filename = s.filename) :
    s.extensionFilenameIsConsistent objectBelow r = true := by
  unfold extensionFilenameIsConsistent
  rw [h]
  cases s.filename with
  | none => simp
  | some f => simp

theorem filename_extend_same (h : r.filename = s.filename) : (s.extend r).filename = s.filename := by
  show (if s.filename.isNone then r.filename else s.filename) = s.filename
  rw [h, ite_self]

/-- Such a request at the end of the sequence is refused only for want of room. -/
theorem Sane.augmentSequence_same (hs : s.Sane) (hend : s.end_ = r.begin)
    (h : r.filename = s.filename) : s.augmentSequence objectBelow r =
      if s.nused = mappingSequenceMaxLen then some (false, s) else some (true, s.extend r) := by
  have hlt := hs.begin_lt_end
  have hclean : (s.end_ == 0 || s.end_ == r.begin) = true := by simp [hend]
  have hbegin : r.begin ≥ s.begin := by omega
  unfold augmentSequence
  simp only [hclean, Bool.true_or, true_and, hbegin, if_true]
  rw [extensionFilenameIsConsistent_same h, if_pos rfl]
  by_cases hfull : s.nused = mappingSequenceMaxLen
  · rw [if_neg (not_not.mpr hfull), if_pos hfull]
  · rw [if_pos hfull, if_neg hfull]

/-! ### The entries of the upper sequence -/

theorem upperMapping_entry (x : MappingEntry) (filename : Option String) :
    (upperMapping x filename).entry = { x with isAnon := filename.isNone } := rfl

theorem addUpper_full (h : s.nused = mappingSequenceMaxLen) :
    l.foldlM (addUpper objectBelow) s = some s := by
  induction l with
  | nil => rfl
  | cons x l ih =>
    have hstep : addUpper objectBelow s x = some s := by
      unfold addUpper augmentSequence
      simp [h]
    rw [List.foldlM_cons, hstep]
    exact ih

theorem Sane.addUpper_room (objectBelow : Nat → Nat) (hs : s.Sane) (hc : Contig s.end_ e l)
    (hroom : s.nused + l.length ≤ mappingSequenceMaxLen) :
    ∃ s', l.foldlM (addUpper objectBelow) s = some s' ∧ s'.Sane ∧ s'.begin = s.begin ∧ s'.end_ = e
      ∧ s'.entries = s.entries ++ l.map fun x => { x with isAnon := s.filename.isNone } := by
  induction l generalizing s with
  | nil => exact ⟨s, rfl, hs, rfl, hc, (List.append_nil _).symm⟩
  | cons x l ih =>
    obtain ⟨hbegin, hlt, hrest⟩ := hc
    rw [List.length_cons] at hroom
    have hlt' : s.nused < mappingSequenceMaxLen := by omega
    have hend : s.end_ = (upperMapping x s.filename).begin := hbegin.symm
    have hstep : addUpper objectBelow s x = some (s.extend (upperMapping x s.filename)) := by
      unfold addUpper
      rw [hs.augmentSequence_same hend rfl, if_neg hlt'.ne]
      rfl
    obtain ⟨hsane, hb⟩ := hs.extend hlt' hend (lt_of_eq_of_lt hbegin hlt)
    have hname : (s.extend (upperMapping x s.filename)).filename = s.filename :=
      filename_extend_same rfl
    have hnused : (s.extend (upperMapping x s.filename)).nused = s.nused + 1 := rfl
    obtain ⟨s', hrun, hsane', hb', he', hentries⟩ := ih hsane hrest (by omega)
    refine ⟨s', ?_, hsane', hb'.trans hb, he', ?_⟩
    · rw [List.foldlM_cons, hstep]
      exact hrun
    · rw [hentries, hname, entries_extend, upperMapping_entry, List.map_cons, List.append_assoc]
      rfl

theorem Sane.addUpper_lost (objectBelow : Nat → Nat) (hs : s.Sane) (hc : Contig s.end_ e l)
    (hmany : mappingSequenceMaxLen < s.nused + l.length) :
    ∃ s', l.foldlM (addUpper objectBelow) s = some s' ∧ s'.end_ < e := by
  have hle := hs.le
  obtain ⟨l1, l2, rfl, hlen⟩ : ∃ l1 l2, l = l1 ++ l2 ∧ s.nused + l1.length = mappingSequenceMaxLen :=
    ⟨_, _, (List.take_append_drop (mappingSequenceMaxLen - s.nused) l).symm, by
      rw [List.length_take]
      omega⟩
  obtain ⟨m, hc1, hc2⟩ := contig_append.mp hc
  obtain ⟨s1, hrun, -, -, hend, hentries⟩ := hs.addUpper_room objectBelow hc1 hlen.le
  have hfull : s1.nused = mappingSequenceMaxLen := by
    rw [← length_entries, hentries, List.length_append, List.length_map, length_entries, hlen]
  refine ⟨s1, ?_, ?_⟩
  · rw [List.foldlM_append, hrun]
    exact addUpper_full hfull
  · rw [hend]
    cases l2 with
    | nil => simp only [List.append_nil, hlen] at hmany; omega
    | cons x l2 => exact hc2.2.1.trans_le hc2.2.2.le

end MappingSequence

namespace Table

open MappingSequence

variable {env : Env} {t t₁ t' : Table} {b hi lo plugHole r x p : Nat} {s sl su : MappingSequence}
  {mmapFails : Bool} {al : Allocator}

/-! ### The two bigallocs -/

/-- `s` is the sequence of the record, sane and of the same bounds. -/
structure HasSequence (t : Table) (r : Nat) (s : MappingSequence) : Prop where
  seq : t.sequences (t.seqOf r) = some s
  sane : s.Sane
  begin_eq : s.begin = (t.bigAllocations r).begin
  end_eq : s.end_ = (t.bigAllocations r).end_

theorem HasSequence.backed (h : t.HasSequence r s) : t.Backed r :=
  ⟨s, h.seq, h.sane, h.begin_eq, h.end_eq⟩

/-- Two mappings with a hole between them. -/
structure Holed (t : Table) (lo hi : Nat) (sl su : MappingSequence) : Prop where
  lower : t.Top lo
  upper : t.Top hi
  lowerSeq : t.HasSequence lo sl
  upperSeq : t.HasSequence hi su
  /-- No other record would free the sequence of the lower one. -/
  own : ∀ n, t.InUse n → n ≠ lo → ¬ (t.bigAllocations n).Frees (t.seqOf lo)
  allocatedBy : (t.bigAllocations hi).allocatedBy = some .mmap
  /-- The private malloc heap is not a mapping of a file. -/
  upper_ne : hi ≠ t.start
  hole : (t.bigAllocations lo).end_ < (t.bigAllocations hi).begin

/-- What the sequence of the record says about the address. -/
def entryAt (t : Table) (r x : Nat) : Option MappingEntry :=
  (t.sequences (t.seqOf r)).bind fun s => s.findEntry x

/-- `b` covers both mappings and what is between them, and its sequence says about their addresses
what was said before. -/
structure Merged (t : Table) (lo hi b : Nat) (t' : Table) : Prop where
  wellFormed : t'.WellFormed
  top : t'.Top b
  begin_eq : (t'.bigAllocations b).begin = (t.bigAllocations lo).begin
  end_eq : (t'.bigAllocations b).end_ = (t.bigAllocations hi).end_
  backed : t'.Backed b
  keeps : ∀ r x e, r = lo ∨ r = hi → t.entryAt r x = some e →
    ∃ e', t'.entryAt b x = some e' ∧ e'.attributes = e.attributes ∧ e'.filePos x = e.filePos x

/-- What the call does to the table, whatever becomes of the sequence. -/
structure Plugged (env : Env) (t : Table) (lo hi plugHole : Nat) (sl su : MappingSequence)
    (t' : Table) : Prop where
  wellFormed : t'.WellFormed
  top : t'.Top lo
  begin_eq : (t'.bigAllocations lo).begin = (t.bigAllocations lo).begin
  end_eq : (t'.bigAllocations lo).end_ = (t.bigAllocations hi).end_
  room : sl.nused < mappingSequenceMaxLen
  seq : ∃ s', t'.sequences (t'.seqOf lo) = some s'
    ∧ (sl.extend (plugMapping sl.end_ su.begin sl.filename plugHole)).reaugment env.objectBelow su
      = some s'

theorem WellFormed.find_top (h : t.WellFormed) (hr : t.Top r)
    (hal : (t r).allocatedBy = some al) (hx : x ∈ t.addrs r) :
    t.findBigallocFromTop env x al false = some (r, t) := by
  refine h.findBigallocFromTop_first hr.1 hx ?_ hal
  intro p hp hne h0
  have hbelow := (below_iff.mp hp).resolve_left (Ne.symm hne)
  rw [hr.2] at hbelow
  exact absurd (eq_null_of_below h.links.up_zero hbelow) h0

theorem WellFormed.deleteBigallocAt_top {res : Bool × Table} (h : t.WellFormed) (hr : t.Top r)
    (hs : r ≠ t.start) (hal : (t r).allocatedBy = some al)
    (hcall : t.deleteBigallocAt env (t r).begin al = some res) :
    res.2.WellFormed ∧ t.Removed { n | Below t.up n r } res.2 := by
  obtain ⟨d, hd⟩ := h.links.exists_depth hr.1
  unfold deleteBigallocAt at hcall
  rw [h.find_top hr hal ⟨le_rfl, h.bounds r hr.1⟩] at hcall
  simp only [some_bind, if_neg hr.1.ne_zero] at hcall
  rcases bigallocDel_cases env nbigallocs h.links hr.1 hd (by omega) (h.nested hr.1) with
    ⟨hnone, -⟩ | ⟨t₁, hsome, -, hrem, hpages⟩
  · rw [hnone] at hcall
    cases hcall
  · rw [hsome] at hcall
    obtain rfl := Option.some.inj hcall
    exact ⟨h.removed hr.1 hs hrem hpages, hrem⟩

theorem plugHoleOrAbort_eq_some (hsl : t.sequences (t.seqOf lo) = some sl)
    (hcall : t.plugHoleOrAbort env lo hi plugHole mmapFails = some (b, t')) :
    t.holeFree (pagenum (t lo).end_) (pagenum (t hi).begin) = true ∧ ∃ s1 su' res t2 s2 s',
        sl.augmentSequence env.objectBelow (plugMapping (t lo).end_
            (t hi).begin sl.filename plugHole) = some (true, s1)
          ∧ (t.setSequence (t.seqOf lo) s1).sequences (t.seqOf hi) = some su'
          ∧ (t.setSequence (t.seqOf lo) s1).deleteBigallocAt env (t hi).begin .mmap = some res
          ∧ res.2.adjustBigallocEnd env lo (t hi).end_ = some t2
          ∧ t2.sequences (t.seqOf lo) = some s2 ∧ s2.reaugment env.objectBelow su' = some s'
          ∧ b = lo ∧ t' = t2.setSequence (t.seqOf lo) s' := by
  unfold plugHoleOrAbort at hcall
  dsimp only at hcall
  split at hcall
  · cases hcall
  split at hcall
  · cases hcall
  rename_i hfree
  split at hcall
  · cases hcall
  simp only [Option.bind_eq_bind, Option.bind_eq_some_iff] at hcall
  obtain ⟨sl', hsl', ⟨did, s1⟩, haug, hcall⟩ := hcall
  obtain rfl := Option.mem_unique hsl' hsl
  cases did with
  | false => simp at hcall
  | true =>
    simp only [Bool.not_true, Bool.false_eq_true, if_false, Option.bind_eq_some_iff] at hcall
    obtain ⟨su', hsu', res, hdel, t2, hadj, s2, hs2, s', hre, hres⟩ := hcall
    obtain ⟨rfl, rfl⟩ := Prod.mk.inj (Option.some.inj hres)
    exact ⟨by simpa using hfree, s1, su', res, t2, s2, s', haug, hsu', hdel, hadj, hs2, hre, rfl,
      rfl⟩

namespace Holed

section

variable (hh : t.Holed lo hi sl su) (h : t.WellFormed)
include hh h

theorem ne : lo ≠ hi := by
  intro heq
  have hbounds := h.bounds lo hh.lower.1
  have hhole := hh.hole
  rw [← heq] at hhole
  omega

theorem not_below : ¬ Below t.up lo hi := fun hb =>
  hh.ne h (Top.unique h.links hh.lower hh.upper (Below.refl t.up lo) hb)

theorem seqOf_ne : t.seqOf hi ≠ t.seqOf lo :=
  (h.apart_top hh.upper hh.lower (hh.ne h).symm).seqOf_ne hh.upperSeq.backed hh.lowerSeq.backed

section

variable (hfree : t.holeFree (pagenum (t lo).end_) (pagenum (t hi).begin) = true)

include hfree

theorem room (hr : t.Top r) (hlo : r ≠ lo) (hhi : r ≠ hi) :
    (t r).end_ ≤ (t lo).end_ ∨ (t hi).end_ ≤ (t r).begin := by
  have hbr := h.bounds r hr.1
  rcases h.apart_top hr hh.lower hlo with hl | hl
  · exact .inl (hl.trans (h.bounds lo hh.lower.1).le)
  · refine .inr ?_
    rcases h.apart_top hr hh.upper hhi with hu | hu
    · -- the record would lie in the hole, and its first page be indexed
      exfalso
      obtain ⟨i, hi'⟩ := (h.aligned lo hh.lower.1 hh.lower.2).2
      obtain ⟨j, hj⟩ := (h.aligned hi hh.upper.1 hh.upper.2).1
      obtain ⟨k, hk⟩ := (h.aligned r hr.1 hr.2).1
      have hzero : t.pageindex (pagenum (t r).begin) = 0 := by
        have hall := List.all_eq_true.mp hfree (k - i) (by
          rw [List.mem_range]
          simp only [pagenum, pageSize] at *
          omega)
        have hpage : pagenum (t lo).end_ + (k - i) = pagenum (t r).begin := by
          simp only [pagenum, pageSize] at *
          omega
        rw [hpage] at hall
        exact beq_iff_eq.mp hall
      exact h.pageindex_ne_zero hr.1 ⟨le_rfl, hbr⟩ hzero
    · exact hu

theorem grown {t2 : Table} (hwf : t₁.WellFormed)
    (hrem : (t.setSequence p s).Removed { n | Below t.up n hi } t₁)
    (hadj : t₁.adjustBigallocEnd env lo (t hi).end_ = some t2) :
    t2.WellFormed ∧ t2.Top lo ∧ t₁.EndMoved lo (t hi).end_ t2 ∧ t2.sequences = t₁.sequences := by
  have hbh := h.bounds hi hh.upper.1
  have hhole := hh.hole
  have hns : lo ∉ { n | Below t.up n hi } := hh.not_below h
  have hin : t₁.InUse lo := hrem.inUse_iff.mpr ⟨hh.lower.1, hns⟩
  have hup : t₁.up lo = 0 := (hrem.up_eq hns).trans hh.lower.2
  have hend : (t₁ lo).end_ = (t lo).end_ := hrem.end_eq hns
  have hlt : (t₁ lo).end_ < (t hi).end_ := by omega
  have habove : t₁.RoomAbove lo (t hi).end_ := by
    refine ⟨fun hne => absurd hup hne, ?_, fun _ => (h.aligned hi hh.upper.1 hh.upper.2).2⟩
    intro n hn hupn hnl
    obtain ⟨hn, hnn⟩ := hrem.inUse_iff.mp hn
    have hne : n ≠ hi := fun heq => hnn (heq ▸ Below.refl t.up n)
    have htop : t.Top n := ⟨hn, (hrem.up_eq hnn).symm.trans (hupn.trans hup)⟩
    have hbn : (t₁ n).begin = (t n).begin := hrem.begin_eq hnn
    have hen : (t₁ n).end_ = (t n).end_ := hrem.end_eq hnn
    rw [hbn, hen, hend]
    exact hh.room h hfree htop hnl hne
  have hpage : (t₁ lo).begin ≤ roundDown (t₁ lo).end_ pageSize := by
    rw [roundDown_eq_self (hwf.aligned lo hin hup).2]
    exact (hwf.bounds lo hin).le
  have hext : t₁.extendBigalloc env lo (t hi).end_ = some t2 := by
    unfold adjustBigallocEnd at hadj
    rwa [if_neg (Nat.not_lt_of_gt hlt), if_pos hlt] at hadj
  obtain ⟨hsane, rfl⟩ := (extendBigalloc_iff_resize hin).mp hext
  have hmoved := resize_endMoved (t := t₁) (r := lo) (e := (t hi).end_)
    (f := t₁.extendedIndex lo (t hi).end_)
  exact ⟨(habove.extendBigalloc hwf hin hlt hsane (.inl hpage)).2,
    (hmoved.top_iff hin (by omega)).mpr ⟨hin, hup⟩, hmoved, rfl⟩

end

/-- **The table.**  A call that returns leaves a good table, the lower record over all. -/
theorem plugged (hcall : t.plugHoleOrAbort env lo hi plugHole mmapFails = some (b, t')) :
    b = lo ∧ Plugged env t lo hi plugHole sl su t' := by
  obtain ⟨hfree, s1, su', res, t2, s2, s', haug, hsu', hdel, hadj, hs2, hre, hb, rfl⟩ :=
    plugHoleOrAbort_eq_some hh.lowerSeq.seq hcall
  rw [← hh.lowerSeq.end_eq, ← hh.upperSeq.begin_eq,
    hh.lowerSeq.sane.augmentSequence_same rfl rfl] at haug
  split at haug
  · cases haug
  rename_i hfull
  obtain rfl := (Prod.mk.inj (Option.some.inj haug)).2
  have hsu : su = su' := by
    have hother : t.sequences (t.seqOf hi) = some su' :=
      (Function.update_of_ne (hh.seqOf_ne h) _ _).symm.trans hsu'
    exact Option.mem_unique hh.upperSeq.seq hother
  obtain ⟨hwf, hrem⟩ := (setSequence_wellFormed h _ _).deleteBigallocAt_top hh.upper hh.upper_ne
    hh.allocatedBy hdel
  obtain ⟨hwf2, htop, hmoved, hseqs⟩ := hh.grown h hfree hwf hrem hadj
  have hns : lo ∉ { n | Below t.up n hi } := hh.not_below h
  have hptr : t2.seqOf lo = t.seqOf lo := by
    have hkeep := congrArg (·.allocatorPrivate) (hrem.keep lo hns)
    exact (hmoved.seqOf_eq lo).trans hkeep
  -- nothing that went has freed the lower sequence
  have hkept : res.2.sequences (t.seqOf lo) = some (sl.extend _) :=
    (hrem.kept (t.seqOf lo) fun n hn => hh.own n (h.links.inUse_of_below_inUse hn hh.upper.1)
      fun heq => hns (heq ▸ hn)).trans (Function.update_self _ _ _)
  obtain rfl := Option.some.inj ((hseqs ▸ hkept).symm.trans hs2)
  have hend : (t2 lo).end_ = (t hi).end_ := by rw [hmoved.self]
  refine ⟨hb, setSequence_wellFormed hwf2 _ _, htop, (hmoved.begin_eq lo).trans (hrem.begin_eq hns),
    hend, hh.lowerSeq.sane.le.lt_of_ne hfull, s', ?_, hsu ▸ hre⟩
  show Function.update t2.sequences (t.seqOf lo) (some s') (t2.seqOf lo) = some s'
  rw [hptr, Function.update_self]

end

end Holed

/-! ### The sequence -/

theorem HasSequence.entryAt_eq (h : t.HasSequence r s) : t.entryAt r x = s.findEntry x := by
  rw [entryAt, h.seq, Option.bind_some]

theorem HasSequence.mem_of_entryAt {e : MappingEntry} (h : t.HasSequence r s)
    (he : t.entryAt r x = some e) : e ∈ s.entries ∧ e.begin ≤ x ∧ x < e.end_ := by
  rw [h.entryAt_eq, findEntry_eq_at?] at he
  exact mem_of_at? he

section

variable (hp : Plugged env t lo hi plugHole sl su t') (hh : t.Holed lo hi sl su)
include hp hh

theorem Plugged.extend_sane :
    (sl.extend (plugMapping sl.end_ su.begin sl.filename plugHole)).Sane
      ∧ (sl.extend (plugMapping sl.end_ su.begin sl.filename plugHole)).begin = sl.begin := by
  have hlt : sl.end_ < su.begin := by
    rw [hh.lowerSeq.end_eq, hh.upperSeq.begin_eq]
    exact hh.hole
  exact hh.lowerSeq.sane.extend hp.room rfl hlt

/-- If all entries have room, the new sequence is a good one for the range. -/
theorem Plugged.hasSequence (hroom : sl.nused + 1 + su.nused ≤ mappingSequenceMaxLen) :
    ∃ s', t'.HasSequence lo s' ∧ s'.entries
      = sl.entries ++ (plugMapping sl.end_ su.begin sl.filename plugHole).entry
        :: su.entries.map fun x => { x with isAnon := sl.filename.isNone } := by
  obtain ⟨s', hs', hrun⟩ := hp.seq
  obtain ⟨hsane, hbegin⟩ := hp.extend_sane hh
  obtain ⟨s'', hrun', hsane', hb, he, hentries⟩ := hsane.addUpper_room env.objectBelow
    hh.upperSeq.sane.contig (by rwa [length_entries])
  obtain rfl := Option.mem_unique hrun' hrun
  refine ⟨s'', ⟨hs', hsane', ?_, ?_⟩, ?_⟩
  · rw [hb, hbegin, hh.lowerSeq.begin_eq, hp.begin_eq]
  · rw [he, hh.upperSeq.end_eq, hp.end_eq]
  · rw [hentries, entries_extend, filename_extend_same rfl, List.append_assoc]
    rfl

/-- If they have not, it ends before the record does. -/
theorem Plugged.not_backed (hmany : mappingSequenceMaxLen < sl.nused + 1 + su.nused) :
    ¬ t'.Backed lo := by
  intro ⟨s, hs, _, _, hend⟩
  obtain ⟨s', hs', hrun⟩ := hp.seq
  obtain ⟨hsane, -⟩ := hp.extend_sane hh
  obtain ⟨s'', hrun', hlost⟩ := hsane.addUpper_lost env.objectBelow
    hh.upperSeq.sane.contig (by rwa [length_entries])
  obtain rfl := Option.mem_unique hrun' hrun
  obtain rfl := Option.mem_unique hs hs'
  rw [hend, hp.end_eq, hh.upperSeq.end_eq] at hlost
  exact hlost.false

end

/-- **Plugging a hole.**  A call that returns has merged the two mappings exactly when both fit in one
sequence with the hole, and the upper one's entries are anonymous or not as the lower sequence has no
filename or one. -/
theorem plugHoleOrAbort_merged_iff (env : Env) (t t' : Table) (lo hi b plugHole : Nat)
    (mmapFails : Bool) (sl su : MappingSequence) (h : t.WellFormed) (hh : t.Holed lo hi sl su)
    (hcall : t.plugHoleOrAbort env lo hi plugHole mmapFails = some (b, t')) :
    t.Merged lo hi b t' ↔ sl.nused + 1 + su.nused ≤ mappingSequenceMaxLen
      ∧ ∀ e ∈ su.entries, e.isAnon = sl.filename.isNone := by
  obtain ⟨rfl, hp⟩ := hh.plugged h hcall
  constructor
  · intro hm
    have hroom : sl.nused + 1 + su.nused ≤ mappingSequenceMaxLen := by
      by_contra hmany
      exact hp.not_backed hh (Nat.lt_of_not_le hmany) hm.backed
    obtain ⟨s', hs', hentries⟩ := hp.hasSequence hh hroom
    refine ⟨hroom, ?_⟩
    intro e he
    obtain ⟨-, hlt, -⟩ := hh.upperSeq.sane.contig.mem_bounds he
    have hfind := hh.upperSeq.entryAt_eq.trans (hh.upperSeq.sane.findEntry_eq he le_rfl hlt)
    obtain ⟨e', he', hatt, -⟩ := hm.keeps hi e.begin e (.inr rfl) hfind
    have hmem : { e with isAnon := sl.filename.isNone } ∈ s'.entries := by
      rw [hentries]
      exact List.mem_append_right _ (List.mem_cons_of_mem _ (List.mem_map_of_mem he))
    have hnew := hs'.entryAt_eq.trans (hs'.sane.findEntry_eq hmem le_rfl hlt)
    obtain rfl := Option.mem_unique hnew he'
    simp only [MappingEntry.attributes, Prod.mk.injEq] at hatt
    exact hatt.2.2.1.symm
  · intro ⟨hroom, hanon⟩
    obtain ⟨s', hs', hentries⟩ := hp.hasSequence hh hroom
    refine ⟨hp.wellFormed, hp.top, hp.begin_eq, hp.end_eq, hs'.backed, ?_⟩
    intro r x e hr he
    have hmem : e ∈ s'.entries ∧ e.begin ≤ x ∧ x < e.end_ := by
      rcases hr with rfl | rfl
      · obtain ⟨hmem, hx⟩ := hh.lowerSeq.mem_of_entryAt he
        rw [hentries]
        exact ⟨List.mem_append_left _ hmem, hx⟩
      · obtain ⟨hmem, hx⟩ := hh.upperSeq.mem_of_entryAt he
        have hsame : { e with isAnon := sl.filename.isNone } = e := by rw [← hanon e hmem]
        rw [hentries]
        exact ⟨List.mem_append_right _ (List.mem_cons_of_mem _
          (List.mem_map.mpr ⟨e, hmem, hsame⟩)), hx⟩
    obtain ⟨hmem, h1, h2⟩ := hmem
    exact ⟨e, hs'.entryAt_eq.trans (hs'.sane.findEntry_eq hmem h1 h2), rfl, rfl⟩

/-! ### The segments of a dynamic linker -/

/-- A table without records, and two sequences on the private heap. -/
def segmentHeap (sl su : MappingSequence) : Table where
  sequences := fun p => if p = 1 then some sl else if p = 2 then some su else none
  nextPrivate := 3

/-- The bigalloc of one of them. -/
def segmentOf (s : MappingSequence) (p : Nat) : NewRequest :=
  { bigallocOf s with allocatorPrivate := p }

theorem segmentOf_valid (hs : s.Sane) (h1 : PageAligned s.begin) (h2 : PageAligned s.end_)
    (hfree : t.FreeRange s.begin s.end_) : t.ValidRequest (segmentOf s p) 0 := by
  have hlt := hs.begin_lt_end
  have hend : (NewRequest.record (segmentOf s p)).end_ = s.end_ := by
    show s.begin + (s.end_ - s.begin) = _
    omega
  refine ⟨hs.begin_pos, .inl rfl, ?_, fun h => absurd rfl h, ?_, fun _ => ⟨h1, ?_⟩⟩
  · rw [hend]
    exact hlt
  · intro n hn hup
    have hap := hfree n ⟨hn, hup⟩
    rwa [← hend] at hap
  · rw [hend]
    exact h2

theorem segmentOf_record (hs : s.Sane) (hseq : t.sequences p = some s)
    (hcore : (t r).core = NewRequest.record (segmentOf s p)) :
    t.up r = 0 ∧ t.seqOf r = p ∧ t.HasSequence r s ∧ (t r).allocatedBy = some .mmap
      ∧ ∀ q, (t r).Frees q → q = p := by
  have hup := congrArg (·.parent) hcore
  have hptr := congrArg (·.allocatorPrivate) hcore
  have hbegin := congrArg (·.begin) hcore
  have hend := congrArg (·.end_) hcore
  have hal := congrArg (·.allocatedBy) hcore
  have hlt := hs.begin_lt_end
  have hsize : s.begin + (s.end_ - s.begin) = s.end_ := by omega
  refine ⟨hup, hptr, ⟨?_, hs, hbegin.symm, (hend.trans hsize).symm⟩, hal, ?_⟩
  · rw [show t.seqOf r = p from hptr, hseq]
  · intro q hq
    rcases (BigAllocation.frees_core (r := NewRequest.record (segmentOf s p)) hcore).mp hq with
      ⟨-, hq, -⟩ | ⟨hno, -⟩
    · exact hq.symm
    · cases hno

theorem segments_holed {t₁ : Table} (hsl : sl.Sane) (hsu : su.Sane)
    (hl : PageAligned sl.begin ∧ PageAligned sl.end_)
    (hu : PageAligned su.begin ∧ PageAligned su.end_) (hlt : sl.end_ < su.begin)
    (hx : (segmentHeap sl su).newBigalloc sampleEnv (segmentOf sl 1) = some (1, t₁))
    (hy : t₁.newBigalloc sampleEnv (segmentOf su 2) = some (2, t)) :
    t.WellFormed ∧ t.Holed 1 2 sl su := by
  have hempty : (segmentHeap sl su).Empty sampleEnv := ⟨⟨rfl, rfl, rfl, .inl rfl⟩, rfl, rfl, rfl⟩
  have hv1 := segmentOf_valid (t := segmentHeap sl su) (p := 1) hsl hl.1 hl.2
    fun n hn => absurd hn.1 (hempty.not_inUse n)
  obtain ⟨hwf1, hidle1, hstart1, hin1, -⟩ := hv1.newBigalloc_wellFormed hempty.wellFormed
    hempty.toIdle hx
  obtain ⟨-, -, u1, hadd1, rfl⟩ := hv1.newBigalloc_added hempty.wellFormed
    (hv1.newBigallocParent_eq hempty.wellFormed hempty.toIdle) hx
  have hseq1 : u1.sequences = (segmentHeap sl su).sequences := by rw [hadd1.rest]
  obtain ⟨-, -, hlower, -⟩ := segmentOf_record (t := u1) hsl (hseq1 ▸ rfl) hadd1.new
  have hv2 := segmentOf_valid (t := u1.setPages _ _ 1) (p := 2) hsu hu.1 hu.2 fun n hn => by
    obtain rfl := ((hin1 n).mp hn.1).resolve_left (hempty.not_inUse n)
    exact .inl ((Nat.le_of_eq hlower.end_eq.symm).trans hlt.le)
  obtain ⟨hwf, -, hstart, hin, -⟩ := hv2.newBigalloc_wellFormed hwf1 hidle1 hy
  obtain ⟨-, -, u2, hadd2, rfl⟩ := hv2.newBigalloc_added hwf1
    (hv2.newBigallocParent_eq hwf1 hidle1) hy
  have hseq2 : u2.sequences = (segmentHeap sl su).sequences := by
    rw [hadd2.rest]
    exact hseq1
  obtain ⟨hup, hptr, hlower, -⟩ := segmentOf_record (t := u2) hsl (hseq2 ▸ rfl)
    ((hadd2.keep 1 (by decide)).trans hadd1.new)
  obtain ⟨hup', -, hupper, hal, hfrees⟩ := segmentOf_record (t := u2) hsu (hseq2 ▸ rfl) hadd2.new
  refine ⟨hwf, ⟨(hin 1).mpr (.inl ((hin1 1).mpr (.inr rfl))), hup⟩,
    ⟨(hin 2).mpr (.inr rfl), hup'⟩, ⟨hlower.seq, hsl, hlower.begin_eq, hlower.end_eq⟩,
    ⟨hupper.seq, hsu, hupper.begin_eq, hupper.end_eq⟩, ?_, hal, ?_, ?_⟩
  · intro n hn hne hf
    have htwo : n = 2 := by
      rcases (hin n).mp hn with hold | hnew
      · exact absurd (((hin1 n).mp hold).resolve_left (hempty.not_inUse n)) hne
      · exact hnew
    subst htwo
    have hone := hfrees _ hf
    exact absurd (hptr.symm.trans hone) (by decide)
  · rw [hstart, hstart1]
    show 2 ≠ 0
    decide
  · exact lt_of_eq_of_lt hlower.end_eq.symm (lt_of_lt_of_eq hlt hupper.begin_eq)

/-- A page of a file. -/
def sampleSegment (begin : Nat) : MappingSequence :=
  MappingSequence.extend {} ⟨begin, begin + 4096, 3, 2, 0, some "/lib/ld.so", 0⟩

/-- A page of a file with an anonymous one behind it. -/
def sampleData : MappingSequence :=
  (sampleSegment 16384).extend ⟨20480, 24576, 3, 34, 0, none, 0⟩

/-- Two pages of the file, two pages apart. -/
theorem plugHoleOrAbort_merged_sample : ∃ t t' : Table,
    t.Holed 1 2 (sampleSegment 4096) (sampleSegment 16384)
      ∧ t.plugHoleOrAbort sampleEnv 1 2 4660 false = some (1, t') ∧ t.Merged 1 2 1 t' := by
  obtain ⟨lo, t₁, hx, rfl, hi, t, hy, rfl, b, t', hcall, rfl⟩ : ∃ lo t₁,
      (segmentHeap (sampleSegment 4096) (sampleSegment 16384)).newBigalloc sampleEnv
        (segmentOf (sampleSegment 4096) 1) = some (lo, t₁) ∧ lo = 1
      ∧ ∃ hi t, t₁.newBigalloc sampleEnv (segmentOf (sampleSegment 16384) 2) = some (hi, t) ∧ hi = 2
      ∧ ∃ b t', t.plugHoleOrAbort sampleEnv 1 2 4660 false = some (b, t') ∧ b = 1 := by
    decide +kernel
  obtain ⟨hwf, hh⟩ := segments_holed ⟨by decide, by decide, by decide, by decide⟩
    ⟨by decide, by decide, by decide, by decide⟩ (by decide) (by decide) (by decide) hx hy
  exact ⟨t, t', hh, hcall, (plugHoleOrAbort_merged_iff sampleEnv t t' 1 2 1 4660 false _ _ hwf hh
    hcall).mpr (by decide)⟩

/-- The upper page of the file is followed by an anonymous one, which afterwards is not anonymous. -/
theorem plugHoleOrAbort_not_merged : ∃ t t' : Table, t.WellFormed
    ∧ t.Holed 1 2 (sampleSegment 4096) sampleData
    ∧ t.plugHoleOrAbort sampleEnv 1 2 4660 false = some (1, t')
    ∧ (t.entryAt 2 20480).map MappingEntry.isAnon = some true
    ∧ (t'.entryAt 1 20480).map MappingEntry.isAnon = some false ∧ ¬ t.Merged 1 2 1 t' := by
  obtain ⟨⟨lo, t₁⟩, hx, rfl, ⟨hi, t⟩, hy, rfl, ⟨b, t'⟩, hcall, rfl, hnew⟩ : ∃ x,
      (segmentHeap (sampleSegment 4096) sampleData).newBigalloc sampleEnv
        (segmentOf (sampleSegment 4096) 1) = some x ∧ x.1 = 1
      ∧ ∃ y, x.2.newBigalloc sampleEnv (segmentOf sampleData 2) = some y ∧ y.1 = 2
      ∧ ∃ z, y.2.plugHoleOrAbort sampleEnv 1 2 4660 false = some z ∧ z.1 = 1
        ∧ (z.2.entryAt 1 20480).map MappingEntry.isAnon = some false := by
    decide +kernel
  obtain ⟨hwf, hh⟩ := segments_holed ⟨by decide, by decide, by decide, by decide⟩
    ⟨by decide, by decide, by decide, by decide⟩ (by decide) (by decide) (by decide) hx hy
  have hold : (t.entryAt 2 20480).map MappingEntry.isAnon = some true := by
    rw [hh.upperSeq.entryAt_eq]
    decide
  refine ⟨t, t', hwf, hh, hcall, hold, hnew, ?_⟩
  intro hm
  obtain ⟨e, he, hanon⟩ := Option.map_eq_some_iff.mp hold
  obtain ⟨e', he', hatt, -⟩ := hm.keeps 2 20480 e (.inr rfl) he
  obtain ⟨e'', he'', hanon'⟩ := Option.map_eq_some_iff.mp hnew
  obtain rfl := Option.mem_unique he'' he'
  simp only [MappingEntry.attributes, Prod.mk.injEq, hanon, hanon'] at hatt
  exact Bool.false_ne_true hatt.2.2.1

end Table

end Liballocs
