/-
Mapping over the top of what is there.

`do_mmap` extends the bigalloc whose sequence takes the mapping: the one that ends where it begins or
reaches over that point, or else the one at its first address, if there is no other at its last.
Otherwise it creates one.  What lay there is overwritten in that one sequence and nowhere else.
-/
import Liballocs.Proofs.Admission
import Liballocs.Proofs.MunmapCover
import Liballocs.Proofs.Augment

namespace Liballocs

open Forest Segments

namespace MappingSequence

variable {s s' : MappingSequence} {r : Mapping} {x : Nat}

theorem Overwritten.findEntry_eq (h : Overwritten s r s') (h1 : r.begin ≤ x) (h2 : x < r.end_) :
    s'.findEntry x = some r.entry := by
  obtain ⟨rest, hentries, -, -⟩ := h.entries
  have hbelow : at? x (below r.begin s.entries) = none := by
    rw [at?_below, if_neg h1.not_gt]
  rw [findEntry_eq_at?, hentries, at?_append, hbelow, at?_cons]
  exact if_pos ⟨h1, h2⟩

/-- Whatever way a sequence takes a request, the request is what is found there. -/
theorem Sane.findEntry_augmented {objectBelow : Nat → Nat} (hs : s.Sane) (hb : s.begin ≤ r.begin)
    (haug : s.augmentSequence objectBelow r = some (true, s')) (h1 : r.begin ≤ x)
    (h2 : x < r.end_) : s'.findEntry x = some r.entry := by
  rcases hs.augmentSequence_cases objectBelow hb (h1.trans_lt h2) with
    hno | ⟨hend, -, hext⟩ | ⟨-, s'', hover, hext⟩
  · rw [hno] at haug
    cases haug
  · rw [hext] at haug
    cases haug
    rw [findEntry_extend hs hend, if_pos ⟨h1, h2⟩]
  · rw [hext] at haug
    cases haug
    exact hover.findEntry_eq h1 h2

theorem augmentSequence_empty (objectBelow : Nat → Nat) (r : Mapping) :
    ({} : MappingSequence).augmentSequence objectBelow r = some (true, extend {} r) := by
  simp [augmentSequence, extensionFilenameIsConsistent, mappingSequenceMaxLen]

end MappingSequence

namespace Table

open MappingSequence

variable {env : Env} {t t' : Table} {c : MmapCall} {b n x m e : Nat} {s' : MappingSequence}

/-! ### Which bigalloc is to take the mapping -/

/-- The top-level records are mmap bigallocs, with sane sequences of their bounds. -/
structure MappedOnly (t : Table) : Prop where
  wellFormed : t.WellFormed
  allocatedBy : ∀ r, t.Top r → (t.bigAllocations r).allocatedBy = some .mmap
  backed : ∀ r, t.Top r → t.Backed r

theorem MappedOnly.lookup (h : t.MappedOnly) (hsys : env.systrapIsInitialized = true) (x : Nat) :
    ∃ r, t.lookupBigallocFromRoot env x .mmap = some (r, t)
      ∧ ((r = 0 ∧ ∀ n, t.Top n → x ∉ t.addrs n) ∨ (t.Top r ∧ x ∈ t.addrs r)) := by
  by_cases h0 : t.pageindex (pagenum x) = 0
  · exact ⟨0, lookupBigallocFromRoot_unindexed _ h.wellFormed.links hsys h0,
      .inl ⟨rfl, fun n hn => h.wellFormed.cut_of_unindexed h0 hn⟩⟩
  · obtain ⟨r, hr, hx, hu, hbelow⟩ := h.wellFormed.exists_top h0
    exact ⟨r, lookupBigallocFromRoot_top h.wellFormed.links hsys hu hr hbelow (h.allocatedBy r hr),
      .inr ⟨hr, hx⟩⟩

theorem MappedOnly.top_unique (h : t.MappedOnly) (hm : t.Top m) (hn : t.Top n) (hxm : x ∈ t.addrs m)
    (hxn : x ∈ t.addrs n) : m = n := by
  by_contra hne
  exact Set.disjoint_left.mp (h.wellFormed.apart_top hm hn hne).disjoint_addrs hxm hxn

/-- `b` is the bigalloc whose sequence `do_mmap` offers the mapping to. -/
def Precedes (t : Table) (c : MmapCall) (b : Nat) : Prop :=
  t.Top b ∧ (c.mappedAddr - 1 ∈ t.addrs b
    ∨ ((∀ r, t.Top r → c.mappedAddr - 1 ∉ t.addrs r) ∧ c.mappedAddr ∈ t.addrs b
      ∧ ∀ r, t.Top r → c.mappedAddr + c.mappedLength - 1 ∈ t.addrs r → r = b))

theorem MappedOnly.precedes_unique (h : t.MappedOnly) (hm : t.Precedes c m)
    (hn : t.Precedes c n) : m = n := by
  obtain ⟨hm, hxm | ⟨hnom, hxm, -⟩⟩ := hm
  · obtain ⟨hn, hxn | ⟨hnon, -⟩⟩ := hn
    · exact h.top_unique hm hn hxm hxn
    · exact absurd hxm (hnon m hm)
  · obtain ⟨hn, hxn | ⟨-, hxn, -⟩⟩ := hn
    · exact absurd hxn (hnom n hn)
    · exact h.top_unique hm hn hxm hxn

theorem MappedOnly.bigallocBefore_eq (h : t.MappedOnly) (hsys : env.systrapIsInitialized = true)
    (c : MmapCall) :
    ∃ b, t.bigallocBefore env c = some (b, t)
      ∧ ((b = 0 ∧ ∀ n, ¬ t.Precedes c n) ∨ t.Precedes c b) := by
  obtain ⟨r1, hr1, hcase1⟩ := h.lookup hsys (c.mappedAddr - 1)
  obtain ⟨r2, hr2, hcase2⟩ := h.lookup hsys c.mappedAddr
  obtain ⟨r3, hr3, hcase3⟩ := h.lookup hsys (c.mappedAddr + c.mappedLength - 1)
  rcases hcase1 with ⟨rfl, hno1⟩ | ⟨htop1, hx1⟩
  · refine ⟨if r2 ≠ 0 ∧ (r3 = 0 ∨ r2 = r3) then r2 else 0, ?_, ?_⟩
    · unfold bigallocBefore
      simp [hr1, hr2, hr3, some_bind, Option.pure_def, ne_eq]
    · by_cases hcond : r2 ≠ 0 ∧ (r3 = 0 ∨ r2 = r3)
      · rw [if_pos hcond]
        obtain ⟨htop2, hx2⟩ := hcase2.resolve_left fun hc => hcond.1 hc.1
        refine .inr ⟨htop2, .inr ⟨hno1, hx2, fun r hr hx => ?_⟩⟩
        rcases hcase3 with ⟨-, hno3⟩ | ⟨htop3, hx3⟩
        · exact absurd hx (hno3 r hr)
        · have h23 : r2 = r3 := hcond.2.resolve_left htop3.1.ne_zero
          exact (h.top_unique hr htop3 hx hx3).trans h23.symm
      · rw [if_neg hcond]
        refine .inl ⟨rfl, fun n hn => hcond ?_⟩
        obtain ⟨hn, hx | ⟨-, hx, hend⟩⟩ := hn
        · exact absurd hx (hno1 n hn)
        · obtain ⟨htop2, hx2⟩ := hcase2.resolve_left fun hc => hc.2 n hn hx
          obtain rfl := h.top_unique htop2 hn hx2 hx
          refine ⟨hn.1.ne_zero, hcase3.imp (fun hc => hc.1) fun hc => ?_⟩
          exact (hend r3 hc.1 hc.2).symm
  · refine ⟨r1, ?_, .inr ⟨htop1, .inl hx1⟩⟩
    unfold bigallocBefore
    simp [hr1, some_bind, Option.pure_def, ne_eq, htop1.1.ne_zero]

/-! ### The two ways of a call -/

/-- The sequence of `b` takes the mapping, and becomes `s'`. -/
def Takes (env : Env) (t : Table) (c : MmapCall) (b : Nat) (s' : MappingSequence) : Prop :=
  t.Precedes c b ∧ ∃ s, t.sequences (t.seqOf b) = some s
    ∧ s.augmentSequence env.objectBelow c.mapping = some (true, s')

/-- The sequence offered the mapping reaches to the point where the mapping begins. -/
theorem MappedOnly.precedes_bounds (h : t.MappedOnly) (hb : t.Precedes c b) :
    ∃ s, t.sequences (t.seqOf b) = some s ∧ s.Sane ∧ s.begin = (t b).begin
      ∧ s.end_ = (t b).end_ ∧ s.begin ≤ c.mappedAddr ∧ c.mappedAddr ≤ s.end_ := by
  obtain ⟨s, hs, hsane, hsb, hse⟩ := h.backed b hb.1
  refine ⟨s, hs, hsane, hsb, hse, ?_⟩
  have hx : c.mappedAddr - 1 ∈ t.addrs b ∨ c.mappedAddr ∈ t.addrs b := hb.2.imp id fun hc => hc.2.1
  unfold addrs at hx
  simp only [Set.mem_ofPred_eq] at hx
  omega

theorem setSequence_self {s : MappingSequence} {p : Nat} (hs : t.sequences p = some s) :
    t.setSequence p s = t := by
  unfold setSequence
  rw [← hs, Function.update_eq_self]

theorem extended_endMoved (hb : t.InUse b)
    (hrun : (if e > ((t.setSequence (t b).allocatorPrivate s') b).end_
      then (t.setSequence (t b).allocatorPrivate s').extendBigalloc env b e
      else some (t.setSequence (t b).allocatorPrivate s')) = some t') :
    t'.sequences (t.seqOf b) = some s' ∧ t.EndMoved b (max (t b).end_ e) t' := by
  have hseq : (t.setSequence (t b).allocatorPrivate s').sequences (t.seqOf b)
      = some s' := Function.update_self ..
  by_cases hgt : e > ((t.setSequence (t b).allocatorPrivate s') b).end_
  · rw [if_pos hgt] at hrun
    obtain ⟨-, rfl⟩ := (extendBigalloc_iff_resize
      (t := t.setSequence (t b).allocatorPrivate s') hb).mp hrun
    have hmax : max (t b).end_ e = e := Nat.max_eq_right hgt.le
    rw [hmax]
    exact ⟨hseq, setSequence_resize_endMoved _ _⟩
  · rw [if_neg hgt] at hrun
    obtain rfl := Option.some.inj hrun
    have hmax : max (t b).end_ e = (t b).end_ := Nat.max_eq_left (Nat.le_of_not_lt hgt)
    rw [hmax]
    exact ⟨hseq, (EndMoved.refl rfl).setSequence _ _⟩

/-- A bigalloc takes the mapping and is extended over it, or all sequences that are offered it refuse
and a bigalloc is created. -/
theorem MappedOnly.doMmap_cases (h : t.MappedOnly) (hsys : env.systrapIsInitialized = true)
    (hpos : 0 < c.mappedLength) (hrun : t.doMmap env c = some t') :
    (∃ b s', t.Takes env c b s' ∧ t'.sequences (t.seqOf b) = some s'
        ∧ t.EndMoved b (max (t b).end_ (c.mappedAddr + c.mappedLength)) t')
      ∨ ((∀ b s', ¬ t.Takes env c b s') ∧ t.createMapping env c.mapping = some t') := by
  unfold doMmap at hrun
  split at hrun
  · cases hrun
  split at hrun
  · cases hrun
  obtain ⟨b, hb, hcase⟩ := h.bigallocBefore_eq hsys c
  simp only [hb, some_bind] at hrun
  unfold extendOrCreate at hrun
  rcases hcase with ⟨rfl, hno⟩ | hprec
  · rw [if_neg (by decide)] at hrun
    exact .inr ⟨fun b s' ht => hno b ht.1, hrun⟩
  · rw [if_pos hprec.1.1.ne_zero] at hrun
    obtain ⟨s, hs, hsane, -, -, hlo, -⟩ := h.precedes_bounds hprec
    have hs' : t.sequences (t b).allocatorPrivate = some s := hs
    simp only [hs', some_bind] at hrun
    obtain ⟨⟨ok, s'⟩, haug, hrun⟩ := of_bind hrun
    cases ok with
    | true =>
      refine .inl ⟨b, s', ⟨hprec, s, hs, haug⟩, ?_⟩
      exact extended_endMoved hprec.1.1 hrun
    | false =>
      have hrefuse : s.augmentSequence env.objectBelow c.mapping = some (false, s) := by
        rcases hsane.augmentSequence_cases env.objectBelow (r := c.mapping) hlo
          (Nat.lt_add_of_pos_right hpos) with hno | ⟨-, -, hyes⟩ | ⟨-, _, -, hyes⟩
        · exact hno
        · exact absurd (haug.symm.trans hyes) (by simp)
        · exact absurd (haug.symm.trans hyes) (by simp)
      obtain rfl : s = s' := by
        have := haug.symm.trans hrefuse
        simpa using this.symm
      simp only [Bool.false_eq_true, if_false, setSequence_self hs'] at hrun
      refine .inr ⟨fun b' s1 ht => ?_, hrun⟩
      obtain ⟨hprec', s2, hs2, haug2⟩ := ht
      obtain rfl := h.precedes_unique hprec hprec'
      obtain rfl := Option.mem_unique hs hs2
      exact absurd (haug.symm.trans haug2) (by simp)

/-! ### What is wanted of a call -/

/-- The addresses of a call. -/
def MmapCall.range (c : MmapCall) : Set Nat :=
  { x | c.mappedAddr ≤ x ∧ x < c.mappedAddr + c.mappedLength }

/-- `n` is an mmap bigalloc that covers the address. -/
def MmapCovers (t : Table) (n x : Nat) : Prop :=
  t.InUse n ∧ (t.bigAllocations n).allocatedBy = some .mmap ∧ x ∈ t.addrs n

/-- Each address of the new mapping is covered by just one mmap bigalloc, a top-level one, whose
sequence has the new mapping there. -/
def Described (t : Table) (c : MmapCall) : Prop :=
  ∀ x ∈ c.range, ∃ n, (t.MmapCovers n x ∧ ∀ m, t.MmapCovers m x → m = n) ∧ t.Top n
    ∧ ∃ s e, t.sequences (t.seqOf n) = some s ∧ s.findEntry x = some e
      ∧ e.prot = c.prot ∧ e.flags = c.flags ∧ e.offset = c.offset

/-- One sequence takes the mapping, and no other mmap bigalloc shares an address with it. -/
def Replaceable (env : Env) (t : Table) (c : MmapCall) : Prop :=
  ∃ b s', t.Takes env c b s' ∧ ∀ n x, x ∈ c.range → t.MmapCovers n x → n = b

theorem EndMoved.mmapCovers_iff (hm : t.EndMoved b e t') (hb : t.InUse b) (he : e ≠ 0)
    (hn : n ≠ b) : t'.MmapCovers n x ↔ t.MmapCovers n x := by
  unfold MmapCovers addrs
  rw [hm.inUse_iff hb he, hm.of_ne hn]

/-- Where a sequence has taken the mapping, all is well unless another bigalloc is there. -/
theorem Takes.described_iff (ht : t.Takes env c b s') (h : t.MappedOnly)
    (hseq : t'.sequences (t.seqOf b) = some s')
    (hm : t.EndMoved b (max (t b).end_ (c.mappedAddr + c.mappedLength)) t') :
    t'.Described c ↔ ∀ n x, x ∈ c.range → t.MmapCovers n x → n = b := by
  obtain ⟨hprec, s, hs, haug⟩ := ht
  obtain ⟨s0, hs0, hsane, hsb, -, hlo, -⟩ := h.precedes_bounds hprec
  obtain rfl := Option.mem_unique hs0 hs
  have hend : max (t b).end_ (c.mappedAddr + c.mappedLength) ≠ 0 := by
    have := hprec.1.1.2.2.2
    omega
  have hcovers : ∀ x ∈ c.range, t'.MmapCovers b x := by
    intro x hx
    refine ⟨(hm.inUse_iff hprec.1.1 hend).mpr hprec.1.1, ?_, ?_⟩
    · rw [hm.self]
      exact h.allocatedBy b hprec.1
    · unfold addrs
      rw [hm.self]
      exact ⟨(hsb ▸ hlo).trans hx.1, hx.2.trans_le (Nat.le_max_right _ _)⟩
  have hother : ∀ {n x}, n ≠ b → (t'.MmapCovers n x ↔ t.MmapCovers n x) := fun hn =>
    hm.mmapCovers_iff hprec.1.1 hend hn
  constructor
  · intro hd n x hx hcov
    by_contra hn
    obtain ⟨m, ⟨-, hone⟩, -⟩ := hd x hx
    exact hn ((hone n ((hother hn).mpr hcov)).trans (hone b (hcovers x hx)).symm)
  · intro hone x hx
    refine ⟨b, ⟨hcovers x hx, fun m hmc => ?_⟩, ⟨(hcovers x hx).1, ?_⟩, s', c.mapping.entry, ?_, ?_,
      rfl, rfl, rfl⟩
    · by_contra hne
      exact hne (hone m x hx ((hother hne).mp hmc))
    · rw [hm.up_eq]
      exact hprec.1.2
    · rw [hm.seqOf_eq]
      exact hseq
    · exact hsane.findEntry_augmented hlo haug hx.1 hx.2

/-- Once the private heap has handed out a sequence, the stack and brk allocators leave the table
alone at the address. -/
def StaysQuiet (env : Env) (t : Table) (a : Nat) : Prop := ∀ s, QuietAt env (t.privateMalloc s).2 a

theorem createMapping_eq (env : Env) (t : Table) (r : Mapping) :
    t.createMapping env r = ((t.privateMalloc (extend {} r)).2.newBigalloc env
          { ptr := r.begin, size := r.end_ - r.begin, allocatedBy := some .mmap }).map fun (b, t1) =>
        t1.setAllocatorPrivate b t.nextPrivate (some .privateNommapFree) := by
  have hbegin : (extend {} r).begin = r.begin := rfl
  have hend : (extend {} r).end_ = r.end_ := rfl
  unfold createMapping addMappingSequenceBigallocWithSeq addBigalloc
  simp only [augmentSequence_empty, some_bind, Bool.not_true,
    Bool.false_eq_true, if_false, hbegin, hend]
  cases (t.privateMalloc (extend {} r)).2.newBigalloc env
    { ptr := r.begin, size := r.end_ - r.begin, allocatedBy := some .mmap } <;> rfl

/-- A bigalloc created for the mapping covers it, and everything else is still there. -/
theorem MappedOnly.createMapping_covers (h : t.MappedOnly) (h0 : c.mappedAddr ≠ 0)
    (hq1 : t.StaysQuiet env c.mappedAddr)
    (hq2 : t.StaysQuiet env (c.mappedAddr + c.mappedLength - 1))
    (hrun : t.createMapping env c.mapping = some t') :
    ∃ b, ¬ t.InUse b ∧ (∀ x ∈ c.range, t'.MmapCovers b x)
      ∧ ∀ n x, t.MmapCovers n x → t'.MmapCovers n x := by
  rw [createMapping_eq] at hrun
  obtain ⟨⟨b, t1⟩, hnew, rfl⟩ := Option.map_eq_some_iff.mp hrun
  have hwf : ((t.privateMalloc (extend {} c.mapping)).2).WellFormed :=
    h.wellFormed.of_shape (fun _ => rfl) rfl rfl rfl
  have hsize : c.mapping.end_ - c.mapping.begin = c.mappedLength := Nat.add_sub_cancel_left _ _
  obtain ⟨p, hpar, hp, -, -⟩ := hwf.newBigalloc_parent rfl (hq1 _) (by rw [hsize]; exact hq2 _) hnew
  obtain ⟨⟨hb0, hblt, hb⟩, t2, hmade, rfl⟩ := newBigalloc_made hwf.links hpar hp hnew
  have hself : (t2 b).begin = c.mapping.begin ∧ (t2 b).end_ = c.mapping.end_
      ∧ (t2 b).allocatedBy = some .mmap := by
    refine ⟨hmade.begin_eq, hmade.end_eq.trans ?_, ?_⟩
    · exact Nat.add_sub_cancel' (Nat.le_add_right _ _)
    · exact (congrArg (·.allocatedBy) hmade.new :)
  refine ⟨b, hb, fun x hx => ?_, fun n x hn => ?_⟩
  · unfold MmapCovers InUse addrs
    simp only [setAllocatorPrivate, modify_bigAllocations, if_true, setPages, hself.1, hself.2.1,
      hself.2.2]
    refine ⟨⟨hb0, hblt, h0, ?_⟩, trivial, hx⟩
    exact (Nat.lt_of_lt_of_le (Nat.pos_of_ne_zero h0) (Nat.le_add_right _ _)).ne'
  · have hne : n ≠ b := by
      rintro rfl
      exact hb hn.1
    obtain ⟨hbegin, hend, -⟩ := hmade.old hne
    have hal := congrArg (·.allocatedBy) (hmade.keep n hne)
    unfold MmapCovers InUse addrs at hn ⊢
    simp only [setAllocatorPrivate, modify_bigAllocations, if_neg hne, setPages]
    rw [hbegin, hend]
    exact ⟨hn.1, hal.trans hn.2.1, hn.2.2⟩

/-- **A mapping over existing ones is described as it should be** if one sequence takes it and no
other mmap bigalloc shares an address with it; and only then, when looking at its ends disturbs
nothing. -/
theorem doMmap_described_iff (env : Env) (t t' : Table) (c : MmapCall) (h : t.MappedOnly)
    (hsys : env.systrapIsInitialized = true) (hpos : 0 < c.requestedLength)
    (hover : ∃ n, ∃ x ∈ c.range, t.MmapCovers n x) (hrun : t.doMmap env c = some t') :
    (t.Replaceable env c → t'.Described c)
      ∧ (t.StaysQuiet env c.mappedAddr → t.StaysQuiet env (c.mappedAddr + c.mappedLength - 1) →
        t'.Described c → t.Replaceable env c) := by
  have hpos' : 0 < c.mappedLength := hpos.trans_le (le_roundUp _)
  rcases h.doMmap_cases hsys hpos' hrun with ⟨b, s', ht, hseq, hm⟩ | ⟨hno, hcreate⟩
  · constructor
    · rintro ⟨b', s'', ht', hone⟩
      obtain rfl := h.precedes_unique ht.1 ht'.1
      exact (ht.described_iff h hseq hm).mpr hone
    · intro _ _ hd
      exact ⟨b, s', ht, (ht.described_iff h hseq hm).mp hd⟩
  · constructor
    · rintro ⟨b, s', ht, -⟩
      exact absurd ht (hno b s')
    · intro hq1 hq2 hd
      exfalso
      have h0 : c.mappedAddr ≠ 0 := by
        intro h0
        simp [doMmap, h0] at hrun
      obtain ⟨n, x, hx, hcov⟩ := hover
      obtain ⟨b, hb, hnew, hold⟩ := h.createMapping_covers h0 hq1 hq2 hcreate
      obtain ⟨m, ⟨-, hone⟩, -⟩ := hd x hx
      have hbn : b = n := (hone b (hnew x hx)).trans (hone n (hold n x hcov)).symm
      exact hb (hbn ▸ hcov.1)

/-- A page of the sample, mapped anew. -/
def sampleRemap (filename : Option String) : MmapCall where
  mappedAddr := 8192
  requestedLength := 4000
  prot := 1
  flags := 50
  filename := filename
  offset := 0
  caller := 0

theorem mem_sampleRemap_range (filename : Option String) : 8192 ∈ (sampleRemap filename).range :=
  ⟨le_rfl, show 8192 < 8192 + roundUp 4000 pageSize by decide⟩

theorem Mapped.mappedOnly (h : t.Mapped) : t.MappedOnly := ⟨h.wellFormed, h.allocatedBy, h.backed⟩

theorem sampleTable_covers : sampleTable.MmapCovers 1 8192 := by
  obtain ⟨-, -, hin, -⟩ := sampleTable_wellFormed
  obtain ⟨-, -, hb, he, -, -, hal⟩ := sampleTable_records
  refine ⟨(hin 1).mpr (.inl rfl), hal, ?_⟩
  unfold addrs
  rw [hb, he]
  exact ⟨by decide, by decide⟩

/-- An anonymous mapping goes into the anonymous sequence. -/
theorem doMmap_described_sample : ∃ t', sampleTable.doMmap sampleEnv (sampleRemap none) = some t'
    ∧ t'.Described (sampleRemap none) := by
  obtain ⟨-, -, hin, hs⟩ := sampleTable_wellFormed
  obtain ⟨-, -, hb, he, -, -, -⟩ := sampleTable_records
  obtain ⟨t', hrun, ⟨ok, s', haug, rfl⟩, hp, hal⟩ : ∃ t',
      sampleTable.doMmap sampleEnv (sampleRemap none) = some t'
      ∧ (∃ ok s', sampleSequence.augmentSequence sampleEnv.objectBelow (sampleRemap none).mapping
        = some (ok, s') ∧ ok = true)
      ∧ sampleTable.seqOf 1 = 1 ∧ (sampleTable 2).allocatedBy ≠ some .mmap := by
    decide +kernel
  refine ⟨t', hrun, (doMmap_described_iff sampleEnv sampleTable t' (sampleRemap none)
    sampleTable_mapped.1.mappedOnly rfl (by decide) ⟨1, 8192, mem_sampleRemap_range _, sampleTable_covers⟩
    hrun).1 ⟨1, s', ⟨⟨sampleTable_top.mpr rfl, .inl ?_⟩, sampleSequence, by rw [hp, hs], haug⟩,
      fun n x _ hcov => ?_⟩⟩
  · unfold addrs
    rw [hb, he]
    decide
  · rcases (hin n).mp hcov.1 with rfl | rfl
    · rfl
    · exact absurd hcov.2.1 hal

/-- **A file mapped over an anonymous mapping** is refused by its sequence: a second mmap bigalloc is
made for it, under the first. -/
theorem doMmap_not_described : sampleTable.MappedOnly ∧ sampleTable.MmapCovers 1 8192
    ∧ ∃ t', sampleTable.doMmap sampleEnv (sampleRemap (some "f")) = some t'
      ∧ t'.MmapCovers 1 8192 ∧ t'.MmapCovers 3 8192 ∧ t'.up 3 ≠ 0
      ∧ ¬ t'.Described (sampleRemap (some "f")) := by
  obtain ⟨t', hrun, h1, hal1, hx1, h3, hal3, hx3, hup⟩ : ∃ t',
      sampleTable.doMmap sampleEnv (sampleRemap (some "f")) = some t'
      ∧ t'.InUse 1 ∧ (t' 1).allocatedBy = some .mmap
      ∧ ((t' 1).begin ≤ 8192 ∧ 8192 < (t' 1).end_)
      ∧ t'.InUse 3 ∧ (t' 3).allocatedBy = some .mmap
      ∧ ((t' 3).begin ≤ 8192 ∧ 8192 < (t' 3).end_)
      ∧ t'.up 3 ≠ 0 := by decide +kernel
  refine ⟨sampleTable_mapped.1.mappedOnly, sampleTable_covers, t', hrun, ⟨h1, hal1, hx1⟩,
    ⟨h3, hal3, hx3⟩, hup, fun hd => ?_⟩
  obtain ⟨m, ⟨-, hone⟩, -⟩ := hd 8192 (mem_sampleRemap_range _)
  exact absurd ((hone 1 ⟨h1, hal1, hx1⟩).trans (hone 3 ⟨h3, hal3, hx3⟩).symm) (by decide)

end Table

end Liballocs
