/-
Making room among small objects.

`unindex_all_overlapping` unindexes the object at the start of the range; any other that overlaps it
starts in it, so the loop over the buckets comes to its entry.  `Swept` says what any number of such
steps does.
-/
import Liballocs.Proofs.SmallAccess
import Liballocs.Proofs.SmallSizes

namespace Liballocs

open SmallObject Columns

namespace SmallObject

/-- The object has a byte in the range. -/
def Overlaps (start end_ : Nat) (o : SmallObject) : Prop := o.start < end_ ∧ start < o.end_

instance (start end_ : Nat) : DecidablePred (Overlaps start end_) := fun _ =>
  inferInstanceAs (Decidable (_ ∧ _))

end SmallObject

namespace ChunkRec

variable {env : Env} {begin us ue k j : Nat} {c c' c'' : ChunkRec} {o : SmallObject}
  {objs objs' objs'' : List SmallObject}

/-- Some objects have been unindexed, and each of them overlapped the range. -/
structure Swept (env : Env) (begin us ue : Nat) (c : ChunkRec) (objs : List SmallObject)
    (c' : ChunkRec) (objs' : List SmallObject) : Prop where
  indexes : Indexes env begin c' objs'
  size : c'.powerOfTwoSize = c.powerOfTwoSize
  pitch : c'.logPitch = c.logPitch
  subset : objs' ⊆ objs
  gone : ∀ o ∈ objs, o ∉ objs' → o.Overlaps us ue
  noneFull : c.NoneFull → c'.NoneFull

theorem Swept.refl (h : Indexes env begin c objs) : Swept env begin us ue c objs c objs :=
  ⟨h, rfl, rfl, List.Subset.refl _, fun _ ho hc => absurd ho hc, id⟩

theorem Swept.trans (h : Swept env begin us ue c objs c' objs')
    (h' : Swept env begin us ue c' objs' c'' objs'') : Swept env begin us ue c objs c'' objs'' := by
  refine ⟨h'.indexes, h'.size.trans h.size, h'.pitch.trans h.pitch,
    List.Subset.trans h'.subset h.subset, fun o ho hgone => ?_, fun hn => h'.noneFull (h.noneFull hn)⟩
  by_cases ho' : o ∈ objs'
  · exact h'.gone o ho' hgone
  · exact h.gone o ho ho'

theorem Swept.width (h : Swept env begin us ue c objs c' objs') : c'.rect.width = c.rect.width := by
  simp [rect, h.size, h.pitch]

theorem Swept.shown (h : Swept env begin us ue c objs c' objs')
    (hshown : ∀ o ∈ objs, o.Shown begin c.logPitch) : ∀ o ∈ objs', o.Shown begin c'.logPitch :=
  fun o ho => h.pitch.symm ▸ hshown o (h.subset ho)

theorem Indexes.nodup (h : Indexes env begin c objs) : objs.Nodup := by
  refine h.apart.imp_of_mem fun {o o'} ho _ ha heq => ?_
  have hpos := (h.valid o ho).size_pos
  rw [← heq] at ha
  simp only [Apart, end_] at ha
  omega

section

variable (h : Indexes env begin c objs) (ho : o ∈ objs)

include h ho

theorem Indexes.swept_erase (hover : o.Overlaps us ue) (hj : IsEntryOf c begin o j) :
    ∃ c', c.unindexSmallAllocInternalWithEnt env j = some c'
      ∧ (c.NoneFull → c.unindexSmallAllocInternalWithEnt? env j = some c')
      ∧ Swept env begin us ue c objs c' (objs.erase o)
      ∧ ∀ l p, IsColumn Entry.isNull c.rect (o.bucket begin c.logPitch) l → p < l.length →
        j = o.bucket begin c.logPitch + p * c.rect.width →
        IsColumn Entry.isNull c'.rect (o.bucket begin c.logPitch) (l.eraseIdx p) := by
  have hperm := h.perm (List.perm_cons_erase ho)
  obtain ⟨c', hc', hsize, hpitch, hind, hcol⟩ := hperm.unindexSmallAllocInternalWithEnt_eq hj
  refine ⟨c', hc', fun hn => ?_, ⟨hind, hsize, hpitch, List.erase_subset, fun o' ho' hgone => ?_, ?_⟩,
    hcol⟩
  · rw [hperm.unindexSmallAllocInternalWithEnt?_eq hn hj, hc']
  · by_cases heq : o' = o
    · rw [heq]
      exact hover
    · exact absurd ((List.mem_erase_of_ne heq).mpr ho') hgone
  · intro hn
    refine hind.noneFull_iff.mpr fun k hk => ?_
    have hlt := hperm.noneFull_iff.mp hn k (by simpa only [rect, hsize, hpitch] using hk)
    rw [entriesOf_cons, List.length_append] at hlt
    rw [hpitch]
    omega

/-! ### One bucket -/

theorem Indexes.eq_of_startEntry
    (ho' : o' ∈ objs) (hk : o.bucket begin c.logPitch = o'.bucket begin c.logPitch)
    (he : o.startEntry begin c.logPitch = o'.startEntry begin c.logPitch) : o = o' := by
  refine (h.eq_or_apart ho ho').resolve_right fun ha => ?_
  refine ha.offset_ne (h.valid o ho) (h.valid o' ho') hk ?_
  rw [← startEntry_offset h.chunk.logPitch_le (h.valid o ho), he,
    startEntry_offset h.chunk.logPitch_le (h.valid o' ho')]

theorem Indexes.overlaps_iff (hstart : o.Overlaps us ue → us ≤ o.start) :
    o.start < ue ∧ o.start + o.firstSize begin c.logPitch > us ↔ o.Overlaps us ue := by
  have hfirst := start_add_firstSize h.chunk.logPitch_le (h.valid o ho)
  have hmem := (start_mem_bucket c.logPitch (h.valid o ho).begin_le).2
  have hpos := (h.valid o ho).size_pos
  constructor
  · intro hover
    exact ⟨hover.1, by omega⟩
  · intro hover
    have hle := hstart hover
    refine ⟨hover.1, ?_⟩
    simp only [end_] at hfirst
    omega

end

section

variable {i fuel : Nat} {e : Entry} {pre rest : List Entry}

/-- Is it the start entry of an object that the inner loop unindexes? -/
def IsHit (env : Env) (c : ChunkRec) (begin us ue k : Nat) (e : Entry) : Prop :=
  e.isContinuation env = false ∧ c.bucketRangeBase begin k + e.bucketOffset < ue
    ∧ c.bucketRangeBase begin k + e.bucketOffset + e.thisbucketSize > us

/-- The loop along the bucket `k` from the entry `i` on leaves no object of the range that starts
there, unless its entry is one of `pre`. -/
def SweepsBucket (env : Env) (begin us ue k fuel : Nat) (c : ChunkRec) (i : Nat)
    (objs : List SmallObject) (pre : List Entry) : Prop :=
  ∃ c' objs', unindexOverlappingBucket env begin us ue k fuel c i = some c'
    ∧ (c.NoneFull → unindexOverlappingBucket? env begin us ue k fuel c i = some c')
    ∧ Swept env begin us ue c objs c' objs'
    ∧ ∀ o ∈ objs', o.bucket begin c.logPitch = k → o.Overlaps us ue →
      o.startEntry begin c.logPitch ∈ pre

section

variable (hread : c.rect.read i = e) (hnull : e.isNull = false) (hi : i < c.rect.size)

include hread hnull hi

theorem SweepsBucket.skip (hskip : ¬ IsHit env c begin us ue k e)
    (h : SweepsBucket env begin us ue k fuel c (i + c.rect.width) objs (pre ++ [e]))
    (hne : ∀ o ∈ objs, o.bucket begin c.logPitch = k → o.Overlaps us ue →
      o.startEntry begin c.logPitch ≠ e) :
    SweepsBucket env begin us ue k (fuel + 1) c i objs pre := by
  obtain ⟨c', objs', hc', hc'?, hswept, hleft⟩ := h
  refine ⟨c', objs', ?_, fun hn => ?_, hswept, fun o ho hok hover => ?_⟩
  · cases hcont : e.isContinuation env with
    | true => simpa [unindexOverlappingBucket, hread, hnull, hcont] using hc'
    | false =>
      simp only [unindexOverlappingBucket, hread, hnull, hcont, Bool.false_eq_true, if_false]
      rw [if_neg fun hc => hskip ⟨hcont, hc⟩]
      exact hc'
  · cases hcont : e.isContinuation env with
    | true => simpa [unindexOverlappingBucket?, read?_of_lt hi, hread, hnull, hcont] using hc'? hn
    | false =>
      simp only [unindexOverlappingBucket?, read?_of_lt hi, hread, hnull, hcont, Bool.false_eq_true,
        if_false, some_bind]
      rw [if_neg fun hc => hskip ⟨hcont, hc⟩]
      exact hc'? hn
  · refine (List.mem_append.mp (hleft o ho hok hover)).resolve_right fun hc => ?_
    exact hne o (hswept.subset ho) hok hover (List.mem_singleton.mp hc)

/-- The loop unindexes an object and looks at the entry that has taken its place. -/
theorem SweepsBucket.take {c1 : ChunkRec} {objs1 : List SmallObject} (hhit : IsHit env c begin us ue k e)
    (hc1 : c.unindexSmallAllocInternalWithEnt env i = some c1)
    (hc1? : c.NoneFull → c.unindexSmallAllocInternalWithEnt? env i = some c1)
    (hswept1 : Swept env begin us ue c objs c1 objs1)
    (h : SweepsBucket env begin us ue k fuel c1 i objs1 pre) :
    SweepsBucket env begin us ue k (fuel + 1) c i objs pre := by
  obtain ⟨c', objs', hc', hc'?, hswept, hleft⟩ := h
  obtain ⟨hcont, htest⟩ := hhit
  rw [hswept1.pitch] at hleft
  refine ⟨c', objs', ?_, fun hn => ?_, hswept1.trans hswept, hleft⟩
  · simp only [unindexOverlappingBucket, hread, hnull, hcont, Bool.false_eq_true, if_false]
    rw [if_pos htest, hc1]
    exact hc'
  · simp only [unindexOverlappingBucket?, read?_of_lt hi, hread, hnull, hcont, Bool.false_eq_true,
      if_false, some_bind]
    rw [if_pos htest, hc1? hn]
    exact hc'? (hswept1.noneFull hn)

end

theorem Indexes.isHit_startEntry (h : Indexes env begin c objs) (ho : o ∈ objs)
    (hshown : o.Shown begin c.logPitch) (hok : o.bucket begin c.logPitch = k)
    (hstart : o.Overlaps us ue → us ≤ o.start) :
    IsHit env c begin us ue k (o.startEntry begin c.logPitch) ↔ o.Overlaps us ue := by
  have hlp := h.chunk.logPitch_le
  have hbase : c.bucketRangeBase begin k + o.offset begin c.logPitch = o.start := by
    rw [← hok]
    exact base_bucket c.logPitch (h.valid o ho).begin_le
  rw [← h.overlaps_iff ho hstart, IsHit, startEntry_isContinuation hlp (h.valid o ho),
    startEntry_eq hlp (h.valid o ho), Nat.mod_eq_of_lt hshown]
  dsimp only
  rw [hbase]
  exact and_iff_right rfl

/-- The loop along a bucket, by induction on the entries below `pre`. -/
theorem Indexes.sweepsBucket (h : Indexes env begin c objs)
    (hshown : ∀ o ∈ objs, o.Shown begin c.logPitch) (hk : k < c.rect.width)
    (hcol : IsColumn Entry.isNull c.rect k (pre ++ rest))
    (hstart : ∀ o ∈ objs, o.Overlaps us ue → us ≤ o.start) (hfuel : rest.length < fuel) :
    SweepsBucket env begin us ue k fuel c (k + pre.length * c.rect.width) objs pre := by
  induction rest generalizing pre c objs fuel with
  | nil =>
    obtain ⟨fuel, rfl⟩ : ∃ f, fuel = f + 1 := Nat.exists_eq_succ_of_ne_zero (by omega)
    rw [List.append_nil] at hcol
    have hnull := hcol.read_null
    refine ⟨c, objs, ?_, fun hn => ?_, Swept.refl h, fun o ho hok _ => ?_⟩
    · simp [unindexOverlappingBucket, hnull]
    · simp [unindexOverlappingBucket?, read?_of_lt (h.room_below hn hk hcol), hnull]
    · rw [(h.perm_column hk hcol).mem_iff, ← hok]
      exact startEntry_mem ho
  | cons e rest ih =>
    obtain ⟨fuel, rfl⟩ : ∃ f, fuel = f + 1 := Nat.exists_eq_succ_of_ne_zero (by omega)
    have hfuel' : rest.length < fuel := Nat.lt_of_succ_lt_succ hfuel
    have hp : pre.length < (pre ++ e :: rest).length := by simp
    have hget : (pre ++ e :: rest)[pre.length] = e := by simp
    have hmem : e ∈ pre ++ e :: rest := by simp
    have hread : c.rect.read (k + pre.length * c.rect.width) = e := (hcol.read_eq hp).trans hget
    have hlt := hcol.lt_size isNull_default hp
    have hnull := hcol.not_null hmem
    have hnext : SweepsBucket env begin us ue k fuel c
        (k + pre.length * c.rect.width + c.rect.width) objs (pre ++ [e]) := by
      have hcol' : IsColumn Entry.isNull c.rect k ((pre ++ [e]) ++ rest) := by
        rw [List.append_assoc]
        exact hcol
      have hrest := ih h hshown hk hcol' hstart hfuel'
      rwa [List.length_append, List.length_singleton, add_mul_width, Nat.add_right_comm] at hrest
    rcases mem_entriesOf.mp ((h.perm_column hk hcol).mem_iff.mp hmem) with
      ⟨o, ho, hok, rfl⟩ | ⟨o, ho, -, hs, rfl⟩
    · have hhit := h.isHit_startEntry ho (hshown o ho) hok (hstart o ho)
      by_cases hover : o.Overlaps us ue
      · have hj : IsEntryOf c begin o (k + pre.length * c.rect.width) := by
          refine ⟨?_, hread⟩
          rw [hok]
          exact (hcol.mem_walk_iff isNull_default (Nat.zero_lt_of_lt hk)).mpr
            ⟨pre.length, hp, rfl, hread.trans hget.symm⟩
        obtain ⟨c1, hc1, hc1?, hswept1, hkeep⟩ := h.swept_erase ho hover hj
        have hcol1 := hkeep _ _ (hok.symm ▸ hcol) hp (by rw [hok])
        rw [List.eraseIdx_append_of_length_le le_rfl, Nat.sub_self, List.eraseIdx_cons_zero,
          hok] at hcol1
        have hrest := ih hswept1.indexes (hswept1.shown hshown) (hswept1.width ▸ hk) hcol1
          (fun o' ho' => hstart o' (List.mem_of_mem_erase ho')) hfuel'
        rw [hswept1.width] at hrest
        exact SweepsBucket.take hread hnull hlt (hhit.mpr hover) hc1 hc1? hswept1 hrest
      · refine SweepsBucket.skip hread hnull hlt (fun hc => hover (hhit.mp hc)) hnext ?_
        intro o' ho' hok' hover' heq
        rw [h.eq_of_startEntry ho' ho (hok'.trans hok.symm) heq] at hover'
        exact hover hover'
    · refine SweepsBucket.skip hread hnull hlt (fun hc => ?_) hnext
        fun o' ho' _ _ heq => h.startEntry_ne_contEntry ho' ho heq
      have hcont : (o.contEntry begin c.logPitch).isContinuation env = true :=
        contEntry_isContinuation h.chunk.minimum (h.valid o ho)
      rw [hc.1] at hcont
      exact Bool.noConfusion hcont

end

/-! ### The buckets of the range -/

/-- The loop over the buckets leaves no object of the range. -/
theorem Indexes.unindexOverlappingFrom_eq (h : Indexes env begin c objs)
    (hshown : ∀ o ∈ objs, o.Shown begin c.logPitch)
    (hue : ue ≤ begin + c.powerOfTwoSize) (hstart : ∀ o ∈ objs, o.Overlaps us ue → us ≤ o.start)
    (habove : ∀ o ∈ objs, o.Overlaps us ue → k ≤ o.bucket begin c.logPitch) {fuel : Nat}
    (hfuel : ue ≤ base begin c.logPitch (k + fuel)) :
    ∃ c' objs', unindexOverlappingFrom env begin us ue (fuel + 1) c k = some c'
      ∧ (c.NoneFull → unindexOverlappingFrom? env begin us ue (fuel + 1) c k = some c')
      ∧ Swept env begin us ue c objs c' objs' ∧ ∀ o ∈ objs', ¬ o.Overlaps us ue := by
  induction fuel generalizing c objs k with
  | zero =>
    have hdone : ¬ c.bucketRangeBase begin k < ue := hfuel.not_gt
    refine ⟨c, objs, if_neg hdone, fun _ => if_neg hdone, Swept.refl h, fun o ho hover => ?_⟩
    have hbase := base_bucket c.logPitch (h.valid o ho).begin_le
    have hmono := base_mono begin c.logPitch (habove o ho hover)
    have hlt := hover.1
    rw [Nat.add_zero] at hfuel
    omega
  | succ fuel ih =>
    by_cases hcond : c.bucketRangeBase begin k < ue
    · have hk : k < c.rect.width := by
        obtain ⟨-, -, hsize⟩ := h.chunk.width_eq
        simp only [bucketRangeBase] at hcond
        exact Nat.lt_of_mul_lt_mul_right (a := 2 ^ c.logPitch) (by omega)
      obtain ⟨l, hl, -⟩ := h.columns k hk
      have hlen : l.length ≤ c.powerOfTwoSize := hl.length_le isNull_default (Nat.zero_lt_of_lt hk)
      have hsweeps : SweepsBucket env begin us ue k (2 * c.powerOfTwoSize + 1) c
          (k + [].length * c.rect.width) objs [] := h.sweepsBucket hshown hk hl hstart (by omega)
      obtain ⟨c1, objs1, hc1, hc1?, hswept1, hleft1⟩ := hsweeps
      simp only [List.length_nil, Nat.zero_mul, Nat.add_zero] at hc1 hc1?
      have habove1 : ∀ o ∈ objs1, o.Overlaps us ue → k + 1 ≤ o.bucket begin c1.logPitch := by
        intro o ho hover
        rw [hswept1.pitch]
        refine (habove o (hswept1.subset ho) hover).lt_of_ne fun hok => ?_
        exact List.not_mem_nil (hleft1 o ho hok.symm hover)
      obtain ⟨c', objs', hc', hc'?, hswept, hleft⟩ := ih hswept1.indexes (hswept1.shown hshown)
        (hswept1.size.symm ▸ hue)
        (fun o ho => hstart o (hswept1.subset ho)) habove1
        (by rw [hswept1.pitch, Nat.add_right_comm]; exact hfuel)
      refine ⟨c', objs', ?_, fun hn => ?_, hswept1.trans hswept, hleft⟩
      · rw [unindexOverlappingFrom, if_pos hcond, hc1]
        exact hc'
      · rw [unindexOverlappingFrom?, if_pos hcond, hc1? hn]
        exact hc'? (hswept1.noneFull hn)
    · refine ⟨c, objs, if_neg hcond, fun _ => if_neg hcond, Swept.refl h, fun o ho hover => ?_⟩
      have hbase := base_bucket c.logPitch (h.valid o ho).begin_le
      have hmono := base_mono begin c.logPitch (habove o ho hover)
      have hlt := hover.1
      have hge : ue ≤ base begin c.logPitch k := not_lt.mp hcond
      omega

section

variable (h : Indexes env begin c objs) (hshown : ∀ o ∈ objs, o.Shown begin c.logPitch)
  (h1 : begin ≤ us) (h2 : us < ue) (h3 : ue ≤ begin + c.powerOfTwoSize)
include h hshown h1 h2 h3

/-- The object that contains the start of the range goes first. -/
theorem Indexes.swept_first :
    ∃ found c1 objs1, c.lookupSmallAlloc env begin us = some found ∧ (match found with
          | some f => c.unindexSmallAllocInternalWithEnt env f.ent
          | none => some c) = some c1
      ∧ (c.NoneFull → (match found with
          | some f => c.unindexSmallAllocInternalWithEnt? env f.ent
          | none => some c) = some c1)
      ∧ Swept env begin us ue c objs c1 objs1
      ∧ ∀ o ∈ objs1, o.Overlaps us ue → us ≤ o.start := by
  have hlookup := h.lookupSmallAlloc_shown hshown h1 (h2.trans_le h3)
  by_cases hex : ∃ o ∈ objs, o.Contains us
  · obtain ⟨o, ho, hc⟩ := hex
    obtain ⟨f, hf, -, hent⟩ := hlookup.1 o ho hc
    have hover : o.Overlaps us ue := ⟨hc.1.trans_lt h2, hc.2⟩
    obtain ⟨c1, hc1, hc1?, hswept, -⟩ := h.swept_erase ho hover hent
    refine ⟨some f, c1, objs.erase o, hf, hc1, hc1?, hswept, fun o' ho' hover' => ?_⟩
    by_contra hlt
    have hc' : o'.Contains us := ⟨by omega, hover'.2⟩
    rw [h.eq_of_contains (List.mem_of_mem_erase ho') ho hc' hc] at ho'
    exact h.nodup.not_mem_erase ho'
  · have hno : ∀ o ∈ objs, ¬ o.Contains us := fun o ho hc => hex ⟨o, ho, hc⟩
    refine ⟨none, c, objs, hlookup.2 hno, rfl, fun _ => rfl, Swept.refl h, fun o ho hover => ?_⟩
    by_contra hlt
    exact hno o ho ⟨by omega, hover.2⟩

theorem Indexes.unindexAllOverlapping_eq :
    ∃ c', c.unindexAllOverlapping env begin us ue = some c'
      ∧ (c.NoneFull → c.unindexAllOverlapping? env begin us ue = some c')
      ∧ c'.powerOfTwoSize = c.powerOfTwoSize ∧ c'.logPitch = c.logPitch
      ∧ Indexes env begin c' (objs.filter fun o => ¬ o.Overlaps us ue) := by
  obtain ⟨found, c1, objs1, hf, hc1, hc1?, hswept1, hstart1⟩ := h.swept_first hshown h1 h2 h3
  have habove : ∀ o ∈ objs1, o.Overlaps us ue →
      memrectNbucketOf us begin c1.logPitch ≤ o.bucket begin c1.logPitch := by
    intro o ho hover
    exact Nat.div_le_div_right (Nat.sub_le_sub_right (hstart1 o ho hover) _)
  have hfuel : ue ≤ base begin c1.logPitch (memrectNbucketOf us begin c1.logPitch + (ue - us + 1)) := by
    have hmem := (mem_bucket c1.logPitch h1).2
    have hpos : ue - us ≤ (ue - us) * 2 ^ c1.logPitch := Nat.le_mul_of_pos_right _ (pitch_pos _)
    simp only [base, Nat.add_mul, Nat.one_mul] at hmem ⊢
    omega
  obtain ⟨c', objs', hc', hc'?, hswept, hleft⟩ :=
    hswept1.indexes.unindexOverlappingFrom_eq (hswept1.shown hshown) (hswept1.size.symm ▸ h3) hstart1 habove hfuel
  have hall := hswept1.trans hswept
  refine ⟨c', ?_, fun hn => ?_, hall.size, hall.pitch, hall.indexes.perm ?_⟩
  · cases found with
    | none =>
      obtain rfl : c = c1 := Option.some.inj hc1
      simpa [unindexAllOverlapping, hf] using hc'
    | some f => simpa [unindexAllOverlapping, hf, hc1] using hc'
  · have hf? := (h.lookupSmallAlloc?_eq hn h1 (h2.trans_le h3)).trans hf
    have hc'?' := hc'? (hswept1.noneFull hn)
    cases found with
    | none =>
      obtain rfl : c = c1 := Option.some.inj hc1
      simpa [unindexAllOverlapping?, hf?] using hc'?'
    | some f => simpa [unindexAllOverlapping?, hf?, hc1? hn] using hc'?'
  · refine (List.perm_ext_iff_of_nodup hall.indexes.nodup (h.nodup.filter _)).mpr fun o => ?_
    simp only [List.mem_filter, decide_eq_true_eq]
    refine ⟨fun ho => ⟨hall.subset ho, hleft o ho⟩, fun ho => ?_⟩
    by_contra hgone
    exact ho.2 (hall.gone o ho.1 hgone)

end

/-! ### After any sequence of operations -/

/-- The index has the objects that do not overlap the range, and lookups find these and no others. -/
structure Cleared (env : Env) (begin us ue : Nat) (objs : List SmallObject) (c : ChunkRec) : Prop where
  columns : c.rect.Holds Entry.isNull
    (entriesOf begin c.logPitch (objs.filter fun o => ¬ o.Overlaps us ue))
  found : ∀ o ∈ objs, ¬ o.Overlaps us ue → ∀ ptr, o.Contains ptr →
    ∃ f, c.lookupSmallAlloc env begin ptr = some (some f) ∧ IsFound c begin o f
  gone : ∀ ptr, begin ≤ ptr → ptr < begin + c.powerOfTwoSize →
    (∀ o ∈ objs, ¬ o.Overlaps us ue → ¬ o.Contains ptr) →
    c.lookupSmallAlloc env begin ptr = some none

theorem Indexes.cleared (h : Indexes env begin c (objs.filter fun o => ¬ o.Overlaps us ue))
    (hshown : ∀ o ∈ objs, o.Shown begin c.logPitch) :
    Cleared env begin us ue objs c := by
  have hmem : ∀ o, o ∈ objs.filter (fun o => ¬ o.Overlaps us ue) ↔ o ∈ objs ∧ ¬ o.Overlaps us ue := by
    intro o
    simp [List.mem_filter]
  have hlookup := fun {ptr : Nat} (h1 : begin ≤ ptr) => h.lookupSmallAlloc_shown
    (fun o ho => hshown o ((hmem o).mp ho).1) h1
  refine ⟨h.columns, fun o ho hover ptr hc => ?_, fun ptr h1 h2 hno => ?_⟩
  · have ho' := (hmem o).mpr ⟨ho, hover⟩
    have hv := h.valid o ho'
    exact (hlookup (hv.begin_le.trans hc.1) (hc.2.trans_le hv.end_le)).1 o ho' hc
  · exact (hlookup h1 h2).2 fun o ho => hno o ((hmem o).mp ho).1 ((hmem o).mp ho).2

/-- The range of the first byte of a full bucket cannot be cleared. -/
theorem Indexes.noneFull_of_unindexAllOverlapping? (h : Indexes env begin c objs)
    (hshown : ∀ o ∈ objs, o.Shown begin c.logPitch)
    (hall : ∀ us ue, begin ≤ us → us < ue → ue ≤ begin + c.powerOfTwoSize →
      (c.unindexAllOverlapping? env begin us ue).isSome) : c.NoneFull := by
  intro k hk hfull
  obtain ⟨o, ho, hc, hfail⟩ := h.lookupSmallAlloc?_full hshown hk hfull
  have h1 := (h.valid o ho).begin_le.trans hc.1
  have h2 := hc.2.trans_le (h.valid o ho).end_le
  obtain ⟨c', hc'⟩ := Option.isSome_iff_exists.mp
    (hall _ (base begin c.logPitch k + 1) h1 (Nat.lt_succ_self _) h2)
  obtain ⟨r, hr, hc'⟩ := of_bind hc'
  obtain ⟨f, rfl, hnone⟩ := hfail r hr
  simp [hnone] at hc'

/-- **After any operations the objects that overlap a range go, and only they.  But the table is not
left on the way just when no bucket is full.** -/
theorem unindexAllOverlapping_iff (env : Env) (begin : Nat) (c : ChunkRec) (es : List Event)
    (hchunk : IsChunk env begin c) (hpitch : c.logPitch ≤ 7) (hfresh : c.Fresh)
    (hes : ValidEvents env begin c.powerOfTwoSize es) :
    ∃ c', c.run env begin es = some c'
      ∧ (∀ us ue, begin ≤ us → us < ue → ue ≤ begin + c.powerOfTwoSize →
          ∃ c'', c'.unindexAllOverlapping env begin us ue = some c''
            ∧ Cleared env begin us ue (live es) c'')
      ∧ ((∀ us ue, begin ≤ us → us < ue → ue ≤ begin + c.powerOfTwoSize →
          ∃ c'', c'.unindexAllOverlapping? env begin us ue = some c''
            ∧ Cleared env begin us ue (live es) c'') ↔ c'.NoneFull) := by
  obtain ⟨c', hrun, hsize, hind, hshown⟩ := hchunk.run_shown hpitch hfresh hes
  refine ⟨c', hrun, fun us ue h1 h2 h3 => ?_, fun hall => ?_, fun hn us ue h1 h2 h3 => ?_⟩
  · obtain ⟨c'', hc'', -, -, hlp, hind''⟩ :=
      hind.unindexAllOverlapping_eq hshown h1 h2 (hsize.symm ▸ h3)
    exact ⟨c'', hc'', hind''.cleared (hlp.symm ▸ hshown)⟩
  · refine hind.noneFull_of_unindexAllOverlapping? hshown fun us ue h1 h2 h3 => ?_
    obtain ⟨c'', hc'', -⟩ := hall us ue h1 h2 (hsize ▸ h3)
    rw [hc'']
    rfl
  · obtain ⟨c'', -, hc''?, -, hlp, hind''⟩ :=
      hind.unindexAllOverlapping_eq hshown h1 h2 (hsize.symm ▸ h3)
    exact ⟨c'', hc''? hn, hind''.cleared (hlp.symm ▸ hshown)⟩

/-- What can be done next with the chunk, and each sanity check, stay in the table. -/
structure InBounds (env : Env) (begin : Nat) (objs : List SmallObject) (c : ChunkRec) : Prop where
  index : ∀ o : SmallObject, o.Valid env begin c.powerOfTwoSize → (∀ o' ∈ objs, o.Apart o') →
    (c.indexSmallAllocInternal? begin o.site o.start o.size).isSome
  unindex : ∀ o ∈ objs, ∀ ptr, o.Contains ptr → (c.unindexSmallAllocInternal? env begin ptr).isSome
  unindexAll : ∀ us ue, begin ≤ us → us < ue → ue ≤ begin + c.powerOfTwoSize →
    (c.unindexAllOverlapping? env begin us ue).isSome
  lookup : ∀ ptr, begin ≤ ptr → ptr < begin + c.powerOfTwoSize →
    (c.lookupSmallAlloc? env begin ptr).isSome
  sanity : ∀ k < c.rect.width, (c.checkBucketSanity? env begin k).isSome

theorem Indexes.inBounds (h : Indexes env begin c objs)
    (hshown : ∀ o ∈ objs, o.Shown begin c.logPitch) (hn : c.NoneFull) :
    InBounds env begin objs c := by
  refine ⟨fun o hv ha => ?_, fun o ho ptr hc => ?_, fun us ue h1 h2 h3 => ?_, fun ptr h1 h2 => ?_,
    fun k hk => ?_⟩
  · obtain ⟨c', hc', -⟩ := h.index hv ha
    rw [h.indexSmallAllocInternal?_eq hv ha, hc']
    rfl
  · have hs := (hshown o ho).shows hc
    obtain ⟨c', hc', -⟩ := h.unindex ho hs
    rw [h.unindexSmallAllocInternal?_eq hn ho hs, hc']
    rfl
  · obtain ⟨c', -, hc', -⟩ := h.unindexAllOverlapping_eq hshown h1 h2 h3
    rw [hc' hn]
    rfl
  · rw [h.lookupSmallAlloc?_eq hn h1 h2]
    have hlookup := h.lookupSmallAlloc_shown hshown h1 h2
    by_cases hex : ∃ o ∈ objs, o.Contains ptr
    · obtain ⟨o, ho, hc⟩ := hex
      obtain ⟨f, hf, -⟩ := hlookup.1 o ho hc
      rw [hf]
      rfl
    · rw [hlookup.2 fun o ho hc => hex ⟨o, ho, hc⟩]
      rfl
  · rw [h.checkBucketSanity?_eq hn hk]
    rfl

/-- **After any operations, whatever comes next stays in the table just when no bucket is full** and
every live object shows. -/
theorem inBounds_iff (env : Env) (begin : Nat) (c : ChunkRec) (es : List Event)
    (hchunk : IsChunk env begin c) (hfresh : c.Fresh)
    (hes : ValidEvents env begin c.powerOfTwoSize es) (hshown : ShownEvents begin c.logPitch es) :
    ∃ c', c.run env begin es = some c' ∧ (InBounds env begin (live es) c' ↔
      c'.NoneFull ∧ ∀ o ∈ live es, o.Shown begin c.logPitch) := by
  obtain ⟨c', hrun, -, hpitch, hind⟩ := hchunk.run_indexes hfresh es hes hshown
  refine ⟨c', hrun, fun h => ?_, fun h => hind.inBounds (hpitch.symm ▸ h.2) h.1⟩
  rw [← hpitch]
  have hall : ∀ o ∈ live es, o.Shown begin c'.logPitch := by
    intro o ho
    by_contra hn
    have hsome := h.unindex o ho o.start
      ⟨le_rfl, Nat.lt_add_of_pos_right (hind.valid o ho).size_pos⟩
    rw [hind.unindexSmallAllocInternal?_not_shown ho hn] at hsome
    exact Bool.noConfusion hsome
  exact ⟨hind.noneFull_of_unindexAllOverlapping? hall h.unindexAll, hall⟩

/-! ### Two chunks -/

theorem sample_noneFull : ∃ c,
    sampleChunkRec.run sampleSmallEnv 4194304 [.index sampleShort, .index sampleLong] = some c
      ∧ c.NoneFull := by
  decide +kernel

theorem unindexAllOverlapping_iff_sample : ∃ c c',
    sampleChunkRec.run sampleSmallEnv 4194304 [.index sampleShort, .index sampleLong] = some c
      ∧ c.unindexAllOverlapping? sampleSmallEnv 4194304 4194320 4194321 = some c'
      ∧ Cleared sampleSmallEnv 4194304 4194320 4194321 [sampleShort, sampleLong] c' := by
  obtain ⟨c1, hrun1, hn⟩ := sample_noneFull
  obtain ⟨c, hrun, -, hiff⟩ := unindexAllOverlapping_iff sampleSmallEnv 4194304 sampleChunkRec _
    sampleChunkRec_isChunk (by decide) sampleChunkRec_fresh sample_validEvents
  obtain rfl := Option.mem_unique hrun1 hrun
  obtain ⟨c', hc', hcleared⟩ := hiff.mpr hn 4194320 4194321 (by decide) (by decide) (by decide)
  exact ⟨c1, c', hrun, hc', hcleared⟩

theorem inBounds_iff_sample : ∃ c,
    sampleChunkRec.run sampleSmallEnv 4194304 [.index sampleShort, .index sampleLong] = some c
      ∧ InBounds sampleSmallEnv 4194304 [sampleShort, sampleLong] c := by
  obtain ⟨c1, hrun1, hn⟩ := sample_noneFull
  obtain ⟨c, hrun, hiff⟩ := inBounds_iff sampleSmallEnv 4194304 sampleChunkRec _
    sampleChunkRec_isChunk sampleChunkRec_fresh sample_validEvents trivial
  obtain rfl := Option.mem_unique hrun1 hrun
  exact ⟨c1, hrun, hiff.mpr ⟨hn, by decide⟩⟩

/-- An object of one byte. -/
def sampleByte : SmallObject := { start := 4194307, size := 1, site := 5000000 }

theorem sampleByte_validEvents : ValidEvents sampleSmallEnv 4194304 512 [.index sampleByte] :=
  ⟨trivial, ⟨by decide, by decide, by decide, by decide, by decide, by decide⟩,
    fun o ho => absurd ho List.not_mem_nil⟩

/-- A chunk of 512 bytes has a pitch of one, and its fourth bucket is full with an object of one byte.
To make room there, the entry after the last is read. -/
theorem unindexAllOverlapping_past_end : sampleFns.Lawful ∧ ∃ c₀ c,
    makeSuballocatedChunk sampleFns 512 1 = c₀
      ∧ ValidEvents sampleSmallEnv 4194304 c₀.powerOfTwoSize [.index sampleByte]
      ∧ c₀.run sampleSmallEnv 4194304 [.index sampleByte] = some c
      ∧ c.unindexAllOverlapping? sampleSmallEnv 4194304 4194307 4194308 = none := by
  obtain ⟨c, hrun, hc⟩ : ∃ c, run sampleSmallEnv 4194304 { powerOfTwoSize := 512, logPitch := 0 }
      [.index sampleByte] = some c
      ∧ (c.unindexAllOverlapping? sampleSmallEnv 4194304 4194307 4194308).isNone := by
    decide +kernel
  exact ⟨sampleFns_lawful, _, c, rfl, sampleByte_validEvents, hrun, Option.isNone_iff_eq_none.mp hc⟩

/-- There the object cannot be unindexed, nor the next address looked up, nor the bucket checked.  And
with a pitch of 256, an object of 256 bytes cannot be unindexed though no bucket is full. -/
theorem inBounds_fails : sampleFns.Lawful
    ∧ (∃ c₀ c, makeSuballocatedChunk sampleFns 512 1 = c₀
      ∧ ValidEvents sampleSmallEnv 4194304 c₀.powerOfTwoSize [.index sampleByte]
      ∧ c₀.run sampleSmallEnv 4194304 [.index sampleByte] = some c
      ∧ c.unindexSmallAllocInternal? sampleSmallEnv 4194304 4194307 = none
      ∧ c.lookupSmallAlloc? sampleSmallEnv 4194304 4194308 = none
      ∧ c.checkBucketSanity? sampleSmallEnv 4194304 3 = none)
    ∧ ∃ c₀ c, makeSuballocatedChunk sampleFns 131072 300 = c₀
      ∧ c₀.run sampleSmallEnv 4194304 [.index sampleFilling] = some c
      ∧ c.unindexSmallAllocInternal? sampleSmallEnv 4194304 4194304 = none := by
  obtain ⟨c, hrun, h1, h2, h3⟩ : ∃ c,
      run sampleSmallEnv 4194304 { powerOfTwoSize := 512, logPitch := 0 } [.index sampleByte] = some c
      ∧ (c.unindexSmallAllocInternal? sampleSmallEnv 4194304 4194307).isNone
      ∧ c.lookupSmallAlloc? sampleSmallEnv 4194304 4194308 = none
      ∧ (c.checkBucketSanity? sampleSmallEnv 4194304 3).isNone := by
    decide +kernel
  obtain ⟨c', hrun', h'⟩ : ∃ c,
      run sampleSmallEnv 4194304 { powerOfTwoSize := 2 ^ 17, logPitch := 8 } [.index sampleFilling]
        = some c
      ∧ (c.unindexSmallAllocInternal? sampleSmallEnv 4194304 4194304).isNone := by
    decide +kernel
  exact ⟨sampleFns_lawful, ⟨_, c, rfl, sampleByte_validEvents, hrun, Option.isNone_iff_eq_none.mp h1, h2,
    Option.isNone_iff_eq_none.mp h3⟩, _, c', rfl, hrun', Option.isNone_iff_eq_none.mp h'⟩

end ChunkRec

end Liballocs
