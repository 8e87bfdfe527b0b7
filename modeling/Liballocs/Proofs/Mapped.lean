/-
The mmap bigallocs and their sequences, across `do_munmap`.

`Mapped`: each top-level record is an mmap bigalloc with a sane sequence of the same bounds, which no
other record frees.  The table tells the addresses covered (`mmapCover`) and their attributes
(`HasAttributes`).  The code gives up on more pages than the largest sane allocation has, and when a
hole needs a record and there is none; unused slots must not hold an entry beyond the bounds.
-/
import Liballocs.Proofs.Munmap
import Liballocs.Proofs.SpanDeletion

namespace Liballocs

open Forest Function

namespace MappingSequence

variable {s s' s'' : MappingSequence} {lo hi lo' hi' : Nat}

theorem Restricted.refl (h : s.Sane) (ht : s.Tidy) : Restricted s s.begin s.end_ s :=
  ⟨h, ht, rfl, rfl, fun _ _ _ => rfl⟩

theorem Restricted.trans (h : Restricted s lo hi s') (h' : Restricted s' lo' hi' s'')
    (hlo : lo ≤ lo') (hhi : hi' ≤ hi) : Restricted s lo' hi' s'' :=
  ⟨h'.sane, h'.tidy, h'.begin_eq, h'.end_eq, fun a h1 h2 =>
    (h'.attributes a h1 h2).trans (h.attributes a (hlo.trans h1) (h2.trans_le hhi))⟩

end MappingSequence

namespace Table

open MappingSequence

variable {env : Env} {t t₁ t₂ t' : Table} {a b c e eff m n new r x : Nat} {s : MappingSequence}

/-- The pointer to the sequence of a top-level mmap bigalloc. -/
def seqOf (t : Table) (r : Nat) : Nat := (t.bigAllocations r).allocatorPrivate

theorem EndMoved.seqOf_eq (h : t.EndMoved r e t') (n : Nat) : t'.seqOf n = t.seqOf n := by
  unfold seqOf
  by_cases hn : n = r
  · rw [hn, h.self]
  · rw [h.of_ne hn]

theorem EndMoved.top_iff (hm : t.EndMoved r e t') (hr : t.InUse r) (he : e ≠ 0) :
    t'.Top n ↔ t.Top n := by
  unfold Top
  rw [hm.inUse_iff hr he, hm.up_eq]

/-- The record has a sane sequence of the same bounds. -/
def Backed (t : Table) (r : Nat) : Prop :=
  ∃ s, t.sequences (t.seqOf r) = some s ∧ s.Sane ∧ s.begin = (t.bigAllocations r).begin
    ∧ s.end_ = (t.bigAllocations r).end_

/-- The top-level records are mmap bigallocs, with sane sequences of their own and their bounds. -/
structure Mapped (t : Table) : Prop where
  wellFormed : t.WellFormed
  allocatedBy : ∀ r, t.Top r → (t.bigAllocations r).allocatedBy = some .mmap
  backed : ∀ r, t.Top r → t.Backed r
  /-- No other record would free the sequence. -/
  own : ∀ r n, t.Top r → t.InUse n → n ≠ r → ¬ (t.bigAllocations n).Frees (t.seqOf r)
  /-- The private heap does not hand out the sequence again. -/
  allocated : ∀ r, t.Top r → t.seqOf r < t.nextPrivate

/-- The addresses that top-level mmap bigallocs cover. -/
def mmapCover (t : Table) : Set Nat :=
  { x | ∃ r, t.Top r ∧ (t.bigAllocations r).allocatedBy = some .mmap ∧ x ∈ t.addrs r }

/-- The entry for `x` in the sequence of its top-level record has these attributes. -/
def HasAttributes (t : Table) (x : Nat) (attributes : Nat × Nat × Bool × Nat) : Prop :=
  ∃ r s, t.Top r ∧ x ∈ t.addrs r ∧ t.sequences (t.seqOf r) = some s
    ∧ (s.findEntry x).map MappingEntry.attributes = some attributes

/-- The unused slots of the sequences hold nothing beyond their bounds. -/
def TidySequences (t : Table) : Prop := ∀ r s, t.Top r → t.sequences (t.seqOf r) = some s → s.Tidy

/-- Records that are apart, with sequences of their bounds, have two sequences. -/
theorem Apart.seqOf_ne (hap : t.Apart m n) (hm : t.Backed m) (hn : t.Backed n) :
    t.seqOf m ≠ t.seqOf n := by
  intro heq
  obtain ⟨s, hs, hsane, hb, he⟩ := hm
  obtain ⟨s', hs', -, hb', he'⟩ := hn
  obtain rfl : s' = s := by
    rw [heq, hs'] at hs
    exact Option.some.inj hs
  have := hsane.begin_lt_end
  rcases hap with h1 | h1 <;> omega

theorem Mapped.seqOf_ne (h : t.Mapped) (hm : t.Top m) (hn : t.Top n) (hne : m ≠ n) :
    t.seqOf m ≠ t.seqOf n :=
  (h.wellFormed.apart_top hm hn hne).seqOf_ne (h.backed m hm) (h.backed n hn)

/-! ### Sequences along a run -/

/-- The sequence of `r'` in `t'` is what is left of the sequence of `r` in `t`. -/
def Inherits (t : Table) (r : Nat) (t' : Table) (r' : Nat) : Prop :=
  ∃ s s', t.sequences (t.seqOf r) = some s ∧ t'.sequences (t'.seqOf r') = some s'
    ∧ (t.bigAllocations r).begin ≤ (t'.bigAllocations r').begin
    ∧ (t'.bigAllocations r').end_ ≤ (t.bigAllocations r).end_
    ∧ Restricted s (t'.bigAllocations r').begin (t'.bigAllocations r').end_ s'

/-- Each top-level record has what is left of a sequence there was. -/
def InheritsAll (t t' : Table) : Prop := ∀ r', t'.Top r' → ∃ r, t.Top r ∧ t.Inherits r t' r'

theorem Mapped.inherits_refl (h : t.Mapped) (ht : t.TidySequences) (hr : t.Top r) :
    t.Inherits r t r := by
  obtain ⟨s, hs, hsane, hb, he⟩ := h.backed r hr
  refine ⟨s, s, hs, hs, le_rfl, le_rfl, ?_⟩
  have := Restricted.refl hsane (ht r s hr hs)
  rwa [hb, he] at this

theorem Inherits.of_eq (h : t.Inherits r t₁ r) (hseq : t₂.seqOf r = t₁.seqOf r)
    (hval : t₂.sequences (t₁.seqOf r) = t₁.sequences (t₁.seqOf r))
    (hb : (t₂ r).begin = (t₁ r).begin)
    (he : (t₂ r).end_ = (t₁ r).end_) : t.Inherits r t₂ r := by
  obtain ⟨s, s', hs, hs', h1, h2, h3⟩ := h
  refine ⟨s, s', hs, ?_, ?_, ?_, ?_⟩
  · rw [hseq, hval, hs']
  · rwa [hb]
  · rwa [he]
  · rwa [hb, he]

theorem InheritsAll.backed (h : t.InheritsAll t') (hr : t'.Top r) : t'.Backed r := by
  obtain ⟨r0, -, s, s', -, hs', -, -, hres⟩ := h r hr
  exact ⟨s', hs', hres.sane, hres.begin_eq, hres.end_eq⟩

theorem InheritsAll.hasAttributes_iff (h : t.InheritsAll t') {attributes : Nat × Nat × Bool × Nat}
    (hwf : t.WellFormed) (hx : x ∈ t'.mmapCover)
    (hone : ∀ r r', t'.Top r → t'.Top r' → x ∈ t'.addrs r → x ∈ t'.addrs r' → r = r') :
    t'.HasAttributes x attributes ↔ t.HasAttributes x attributes := by
  obtain ⟨r', hr', -, hxr'⟩ := hx
  obtain ⟨r, hr, s, s', hs, hs', h1, h2, hres⟩ := h r' hr'
  have hxr : x ∈ t.addrs r := ⟨h1.trans hxr'.1, hxr'.2.trans_le h2⟩
  have hatt := hres.attributes x hxr'.1 hxr'.2
  constructor
  · rintro ⟨r1, s1, hr1, hx1, hs1, ha1⟩
    obtain rfl := hone r1 r' hr1 hr' hx1 hxr'
    obtain rfl := Option.mem_unique hs' hs1
    exact ⟨r, s, hr, hxr, hs, hatt.symm.trans ha1⟩
  · rintro ⟨r1, s1, hr1, hx1, hs1, ha1⟩
    have hrr : r1 = r := by
      by_contra hne
      exact Set.disjoint_left.mp (hwf.apart_top hr1 hr hne).disjoint_addrs hx1 hxr
    subst hrr
    obtain rfl := Option.mem_unique hs hs1
    exact ⟨r', s', hr', hxr', hs', hatt.trans ha1⟩

/-! ### One turn -/

/-- The top-level records left of the range up to `c` have what is left of their sequences. -/
def Kept (t : Table) (a c : Nat) (t₁ : Table) : Prop :=
  ∀ r, t.Top r → r ∉ t.inRange a c → t.Inherits r t₁ r

theorem Kept.mono (hk : t.Kept a c t₁) (hce : c ≤ e) : t.Kept a e t₁ :=
  fun r hr hns => hk r hr fun ⟨m, hm, h1, h2, hb⟩ => hns ⟨m, hm, h1, h2.trans hce, hb⟩

theorem Kept.inheritsAll (h : t.WellFormed) (ht : t.Trimmed a e t') (hk : t.Kept a e t') :
    t.InheritsAll t' := by
  intro r hr
  obtain ⟨hr, hns⟩ := (ht.top_iff h).mp hr
  exact ⟨r, hr, hk r hr hns⟩

section

variable (h : t.Mapped) (ht : t.Trimmed a c t₁) (hk : t.Kept a c t₁)

include h ht hk

theorem Kept.whole (hac : a ≤ c)
    (hb : t.Top b) (hbegin : (t b).begin = c)
    (hr : t₁.Removed { n | Below t₁.up n b } t₂) : t.Kept a (t b).end_ t₂ := by
  have hlt := h.wellFormed.bounds b hb.1
  intro r htop hns
  have hrb : r ≠ b := by
    rintro rfl
    exact hns ((htop.mem_inRange_iff h.wellFormed.links).mpr ⟨by omega, le_rfl⟩)
  have hns' : r ∉ t.inRange a c := fun ⟨m, hm, h1, h2, hbm⟩ => hns ⟨m, hm, h1, by omega, hbm⟩
  have hr1 : t₁.Top r := (ht.top_iff h.wellFormed).mpr ⟨htop, hns'⟩
  have hnot : r ∉ { n | Below t₁.up n b } := fun hc =>
    (((hr1.below_iff ht.links).mp hc).elim (fun hc => hrb hc.symm) hb.1.ne_zero)
  have hseq : t₁.seqOf r = t.seqOf r := ht.allocatorPrivate_eq hns' htop
  refine (hk r htop hns').of_eq ?_ ?_ (hr.begin_eq hnot) (hr.end_eq hnot)
  · exact (congrArg (·.allocatorPrivate) (hr.keep r hnot) :)
  · refine hr.kept _ fun n hn => ?_
    obtain ⟨hnu, -, hcore⟩ := ht.core_below h.wellFormed hb hbegin hn
    rw [BigAllocation.frees_core hcore, hseq]
    exact h.own r n htop hnu fun hc => hnot (hc ▸ hn)

theorem Kept.setSequence {s' : MappingSequence} (hb : t.Top b) (hbs : b ∉ t.inRange a c) (hce : c ≤ e)
    (hseq : t₂.sequences = t₁.sequences) (hrec : (t₂ b).allocatorPrivate = (t₁ b).allocatorPrivate)
    (hothers : ∀ r, r ≠ b → t₂ r = t₁ r)
    (hs : t.sequences (t.seqOf b) = some s)
    (h1 : (t b).begin ≤ (t₂ b).begin)
    (h2 : (t₂ b).end_ ≤ (t b).end_)
    (hres : Restricted s (t₂ b).begin (t₂ b).end_ s') :
    t.Kept a e (t₂.setSequence (t.seqOf b) s') := by
  intro r htop hns
  have hns' : r ∉ t.inRange a c := fun ⟨m, hm, h1, h2, hbm⟩ => hns ⟨m, hm, h1, by omega, hbm⟩
  by_cases hrb : r = b
  · subst hrb
    refine ⟨s, s', hs, ?_, h1, h2, hres⟩
    have hap : (t₂.setSequence (t.seqOf r) s').seqOf r = t.seqOf r :=
      hrec.trans (ht.allocatorPrivate_eq hbs hb)
    rw [hap]
    exact update_self _ _ _
  · have hap : t₁.seqOf r = t.seqOf r := ht.allocatorPrivate_eq hns' htop
    refine (hk r htop hns').of_eq ?_ ?_ ?_ ?_
    · exact congrArg (·.allocatorPrivate) (hothers r hrb)
    · rw [hap]
      show update t₂.sequences _ _ _ = _
      rw [update_of_ne (h.seqOf_ne htop hb hrb), hseq]
    · exact congrArg (·.begin) (hothers r hrb)
    · exact congrArg (·.end_) (hothers r hrb)

theorem Kept.head (hac : a ≤ c) (hcut : c = a ∨ t.Cut c) (hb : t.Top b) (hbegin : (t b).begin = c)
    (hlt : c < e) (hend : e < (t b).end_) (he : PageAligned e)
    (hsmall : pageDist c e ≤ env.biggestSaneUserAlloc >>> logPageSize) :
    ∃ t', ((t₁.truncateBigallocAtBeginning env b e).bind fun t₂ =>
        t₂.deleteSpanOf (t.seqOf b) c (e - c)) = some t' ∧ t.InheritsAll t' := by
  have hwf := h.wellFormed
  obtain ⟨hbs, -, hcore⟩ := ht.core_at hwf hb hbegin
  obtain ⟨t₂, ht2, hseq, hrec, hothers, htrunc⟩ :=
    ht.truncate_head hwf hb hbegin hac hcut env hlt hend he
  obtain ⟨s, s1, hs, hs1, -, -, hres⟩ := hk b hb hbs
  obtain ⟨h1, h2⟩ := bounds_congr hcore
  rw [hbegin] at h1
  rw [h1, h2] at hres
  have hap : t₁.seqOf b = t.seqOf b := ht.allocatorPrivate_eq hbs hb
  obtain ⟨s2, hdel, hres2⟩ := hres.sane.deletePrefix hres.tidy e
    (by rw [hres.begin_eq]; exact hlt) (by rw [hres.end_eq]; exact hend)
  rw [hres.begin_eq] at hdel
  rw [hres.end_eq] at hres2
  have hspan : t₂.deleteSpanOf (t.seqOf b) c (e - c) = some (t₂.setSequence (t.seqOf b) s2) :=
    deleteSpanOf_eq_some_iff.mpr ⟨s1, s2, by rw [hseq, ← hap, hs1], hdel, rfl⟩
  refine ⟨_, ?_, Kept.inheritsAll hwf (ht2.deleteSpanOf hspan)
    (hk.setSequence h ht hb hbs hlt.le hseq ?_ hothers hs ?_ ?_ ?_)⟩
  · rw [htrunc, if_pos hsmall, Option.bind_some, hspan]
  · rw [hrec]
  · rw [hrec]
    show _ ≤ e
    omega
  · rw [hrec, ← h2]
  · rw [hrec, h2]
    exact hres.trans hres2 hlt.le le_rfl

end

/-- Both halves of a punched record have what is left of its sequence. -/
theorem Punched.inheritsAll {s1 s2 : MappingSequence} (h : t.Mapped) (htidy : t.TidySequences)
    (hb : t.HoleIn b a e) (hp : t.Punched b a e new t.nextPrivate t')
    (hs : t.sequences (t.seqOf b) = some s)
    (hseq : t'.sequences = update (update t.sequences (t.seqOf b) (some s1))
      t.nextPrivate (some s2)) (h1 : Restricted s (t b).begin a s1)
    (h2 : Restricted s e (t b).end_ s2) : t.InheritsAll t' := by
  obtain ⟨htop, h3, h4, h5⟩ := id hb
  intro r hr
  rcases (hp.top_iff (by omega) htop).mp hr with hr | rfl
  · have hrn : r ≠ new := fun hc => hp.free (hc ▸ hr.1)
    have hlt := h.allocated r hr
    refine ⟨r, hr, ?_⟩
    by_cases hrb : r = b
    · subst hrb
      have hap : t'.seqOf r = t.seqOf r := (congrArg (·.allocatorPrivate) hp.before :)
      have hb' := hp.begin_eq hrn
      have he' : (t' r).end_ = a := by rw [hp.end_eq hrn, if_pos rfl]
      refine ⟨s, s1, hs, ?_, by omega, by omega, ?_⟩
      · rw [hap, hseq, update_of_ne (by omega), update_self]
      · rw [hb', he']
        exact h1
    · have hap : t'.seqOf r = t.seqOf r :=
        (congrArg (·.allocatorPrivate) (hp.others r hrb hrn) :)
      refine (h.inherits_refl htidy hr).of_eq hap ?_ (hp.begin_eq hrn) ?_
      · rw [hseq, update_of_ne (by omega),
          update_of_ne (h.seqOf_ne hr htop hrb)]
      · rw [hp.end_eq hrn, if_neg hrb]
  · have hap : t'.seqOf r = t.nextPrivate := (congrArg (·.allocatorPrivate) hp.behind :)
    refine ⟨b, htop, s, s2, hs, ?_, ?_, ?_, ?_⟩
    · rw [hap, hseq, update_self]
    · rw [hp.begin_new]
      omega
    · rw [hp.end_new]
    · rw [hp.begin_new, hp.end_new]
      exact h2

/-! ### Whole runs -/

theorem Mapped.tail (h : t.Mapped) (htidy : t.TidySequences) (ha : PageAligned a) (hb : t.Top b)
    (h1 : (t b).begin < a) (h2 : a < (t b).end_)
    (hsmall : pageDist a (t b).end_ ≤ env.biggestSaneUserAlloc >>> logPageSize) :
    ∃ t₂ t3, t.truncateBigallocAtEnd env b a = some t₂
      ∧ t₂.deleteSpanOf (t.seqOf b) a ((t b).end_ - a) = some t3
      ∧ t.Trimmed a (t b).end_ t3 ∧ t.Kept a (t b).end_ t3 := by
  have hwf := h.wellFormed
  obtain ⟨t₂, ht2, hseq, hrec, hothers, htrunc⟩ := hwf.truncate_tail env ha hb h1 h2
  obtain ⟨s, hs, hsane, hbegin, hend⟩ := h.backed b hb
  obtain ⟨s2, hdel, hres⟩ := hsane.deleteSuffix (htidy b s hb hs) a (by omega) (by omega)
  rw [hend] at hdel
  rw [hbegin] at hres
  have hspan : t₂.deleteSpanOf (t.seqOf b) a ((t b).end_ - a)
      = some (t₂.setSequence (t.seqOf b) s2) :=
    deleteSpanOf_eq_some_iff.mpr ⟨s, s2, by rw [hseq, hs], hdel, rfl⟩
  have hbs : b ∉ t.inRange a a := by
    rw [hb.mem_inRange_iff hwf.links]
    omega
  refine ⟨t₂, _, ?_, hspan, ht2.deleteSpanOf hspan, Kept.setSequence h (Trimmed.refl hwf a)
    (fun r hr _ => h.inherits_refl htidy hr) hb hbs h2.le hseq ?_ hothers hs ?_ ?_ ?_⟩
  · rw [htrunc, if_pos hsmall]
  · rw [hrec]
  · rw [hrec]
  · rw [hrec]
    exact h2.le
  · rw [hrec]
    exact hres

theorem Mapped.hole (h : t.Mapped) (htidy : t.TidySequences) (hb : t.HoleIn b a (a + eff))
    (ha : PageAligned a) (he : PageAligned (a + eff))
    (hsmall : pageDist a (a + eff) ≤ env.biggestSaneUserAlloc >>> logPageSize)
    (hroom : t.findFreeBigalloc ≠ none) :
    ∃ t' new, t.punchHole env b a eff = some t' ∧ t.Punched b a (a + eff) new t.nextPrivate t'
      ∧ t.InheritsAll t' ∧ t'.nextPrivate = t.nextPrivate + 1 := by
  have hwf := h.wellFormed
  obtain ⟨htop, h1, h2, h3⟩ := id hb
  obtain ⟨new, hnew⟩ := Option.ne_none_iff_exists'.mp hroom
  obtain ⟨s, hs, hsane, hbegin, hend⟩ := h.backed b htop
  have ht := htidy b s htop hs
  obtain ⟨s1, hdel1, hres1⟩ := hsane.deleteSuffix ht a (by omega) (by omega)
  obtain ⟨s2, hdel2, hres2⟩ := hsane.deletePrefix ht (a + eff) (by omega) (by omega)
  rw [hend] at hdel1 hres2
  rw [hbegin] at hdel2 hres1
  obtain ⟨t', hrun, hp, hnp, hseq⟩ := hwf.punchHole_returns htop h1 (by omega) h3 ha he
    hnew hsmall (h.allocated b htop) hs hdel1 hdel2
  exact ⟨t', new, hrun, hp, hp.inheritsAll h htidy hb hs hseq hres1 hres2, hnp⟩

theorem WellFormed.small_iff (h : t.WellFormed) (hb : t.Top b) : t.Small env b
    ↔ pageDist (t b).begin (t b).end_ ≤ env.biggestSaneUserAlloc >>> logPageSize := by
  obtain ⟨ha1, ha2⟩ := h.aligned b hb.1 hb.2
  rw [Small, roundUp_eq_self_iff.mpr ha1, roundDown_eq_self ha2]

/-- The range can be unmapped within the limits of the table. -/
structure WithinLimits (env : Env) (t : Table) (a e : Nat) : Prop where
  /-- Of no bigalloc are more pages in the range than the largest sane allocation has. -/
  small : ∀ r, t.Top r → t.Overlaps r a e →
    pageDist (max a (t.bigAllocations r).begin) (min e (t.bigAllocations r).end_)
      ≤ env.biggestSaneUserAlloc >>> logPageSize
  /-- A hole needs a free record. -/
  room : ∀ b, t.HoleIn b a e → t.findFreeBigalloc ≠ none
  tidy : t.TidySequences

/-- Within the limits the loop returns, and every top-level record keeps the rest of its sequence. -/
theorem doMunmapLoop_returns (h : t.Mapped) (hsys : env.systrapIsInitialized = true)
    (hlim : t.WithinLimits env a (a + eff)) (ha : PageAligned a) (he : PageAligned (a + eff)) :
    ∀ fuel t₁ c, t.AtCursor a c t₁ → t.Kept a c t₁ → a ≤ c → c ≤ a + eff → PageAligned c →
      a + eff + pageSize ≤ c + fuel * pageSize →
      ∃ t', doMunmapLoop env a eff fuel t₁ c (a + eff - c) = some t' ∧ t.InheritsAll t' := by
  have hwf := h.wellFormed
  intro fuel
  induction fuel with
  | zero =>
    intro t₁ c _ _ _ hle _ hfuel
    simp only [pageSize] at hfuel
    omega
  | succ fuel ih =>
    intro t₁ c hat hk hac hle hc hfuel
    by_cases hlt : c < a + eff
    · obtain ⟨ht, hcut⟩ := hat.trimmed hwf
      have hfuel' : a + eff ≤ c + fuel * pageSize := by
        rw [Nat.add_mul] at hfuel
        omega
      -- the cursor has moved by a page or more
      have hmore : ∀ x, c < x → PageAligned x → a + eff + pageSize ≤ x + fuel * pageSize := by
        intro x hx hxa
        have := hc.add_pageSize_le hxa hx
        omega
      have hturn := doMunmapLoop_turn env a eff hwf hsys
        (fun r hr _ => h.allocatedBy r hr) hlt hc hat fuel
      cases hturn with
      | skip h0 heq =>
        have hc' : PageAligned (c + pageSize) := Nat.dvd_add hc (Nat.dvd_refl _)
        rw [heq]
        exact ih t₁ _ (hat.skip hwf hc h0) (hk.mono (by omega)) (by omega)
          (hc.add_pageSize_le he hlt) hc' (hmore _ (by simp [pageSize]) hc')
      | whole b hb hbegin hend hlook heq =>
        have hblt := hwf.bounds b hb.1
        have hsmall := hlim.small b hb ⟨c, ⟨by omega, by omega⟩, hac, hlt⟩
        rw [Nat.max_eq_right (by omega), Nat.min_eq_right hend] at hsmall
        rcases ht.delete_cases hwf hb hbegin hac hcut hlook with
          ⟨-, hns⟩ | ⟨t₂, hsome, -, hr, ht2⟩
        · exact absurd ((hwf.small_iff hb).mpr hsmall) hns
        · have halign := (hwf.aligned b hb.1 hb.2).2
          rw [heq, hsome, Option.bind_some]
          exact ih t₂ _ (.inr ⟨ht2, hwf.cut_end hb⟩) (hk.whole h ht hac hb hbegin hr) (by omega)
            hend halign (hmore _ (by omega) halign)
      | head b hb hbegin hend heq =>
        have hsmall := hlim.small b hb ⟨c, ⟨by omega, by omega⟩, hac, hlt⟩
        rw [Nat.max_eq_right (by omega), Nat.min_eq_left hend.le, hbegin] at hsmall
        rw [heq]
        exact hk.head h ht hac hcut hb hbegin hlt hend he hsmall
      | tail b hca htt hb hbegin hab hend heq =>
        have hsmall := hlim.small b hb ⟨a, ⟨by omega, hab⟩, le_rfl, by omega⟩
        rw [Nat.max_eq_left hbegin.le, Nat.min_eq_right hend] at hsmall
        obtain ⟨t₂, t3, h2, h3, ht3, hk3⟩ := h.tail hlim.tidy ha hb hbegin hab hsmall
        have halign := (hwf.aligned b hb.1 hb.2).2
        have h3' : t₂.deleteSpanOf (t b).allocatorPrivate a ((t b).end_ - a) = some t3 := h3
        rw [heq, h2, Option.bind_some, h3', Option.bind_some]
        exact ih t3 _ (.inr ⟨ht3, hwf.cut_end hb⟩) hk3 hab.le hend halign
          (hmore _ (by omega) halign)
      | hole b hca htt hb hbegin hend heq =>
        have hhole : t.HoleIn b a (a + eff) := ⟨hb, hbegin, by omega, hend⟩
        have hsmall := hlim.small b hb ⟨a, ⟨by omega, by omega⟩, le_rfl, by omega⟩
        rw [Nat.max_eq_left hbegin.le, Nat.min_eq_left hend.le] at hsmall
        obtain ⟨t', new, hrun, hp, hall, -⟩ :=
          h.hole hlim.tidy hhole ha he hsmall (hlim.room b hhole)
        refine ⟨t', ?_, hall⟩
        rw [heq, hrun, Option.bind_some]
        rcases doMunmapLoop_unindexed a eff hp.links hsys fuel a
          (fun _ hk => hp.pageindex_hole ha (Nat.le_add_right _ _) hk) eff with ⟨-, hshort⟩ | hsome
        · omega
        · exact hsome
    · obtain rfl : c = a + eff := by omega
      refine ⟨t₁, ?_, hk.inheritsAll hwf (hat.trimmed hwf).1⟩
      rw [doMunmapLoop, if_neg hlt]

end Table

end Liballocs
