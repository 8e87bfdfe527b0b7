/-
What `do_munmap` leaves of the records.

In the middle of a record the cursor can only be at the first turn, and the record loses its tail or
gets a hole.  From then on a record is deleted as a whole, or loses its head and the loop is over.
So the table that is left is either trimmed or punched.
-/
import Liballocs.Mmap
import Liballocs.Proofs.Split

namespace Liballocs.Table

open Forest Function

variable {env : Env} {t t₁ t₂ t' : Table} {a b c e eff n new p addr length : Nat}

/-! ### The hole -/

theorem deleteSpanOf_eq_some_iff : t.deleteSpanOf p addr length = some t' ↔
    ∃ s s', t.sequences p = some s ∧ s.deleteMappingSequenceSpan addr length = some s'
      ∧ t' = t.setSequence p s' := by
  simp only [deleteSpanOf, Option.bind_eq_bind, Option.pure_def, Option.bind_eq_some_iff,
    Option.some.injEq]
  constructor
  · rintro ⟨s, hs, s', hs', rfl⟩
    exact ⟨s, s', hs, hs', rfl⟩
  · rintro ⟨s, s', hs, hs', rfl⟩
    exact ⟨s, hs, s', hs', rfl⟩

theorem WellFormed.punchHole_eq (env : Env) (h : t.WellFormed) (hb : t.Top b)
    (h1 : (t b).begin < a) (hpos : 0 < eff)
    (h2 : a + eff < (t b).end_) (ha : PageAligned a) (he : PageAligned (a + eff))
    (hnew : t.findFreeBigalloc = some new) :
    ∃ t₂, t.Punched b a (a + eff) new (t b).allocatorPrivate t₂
      ∧ t₂.sequences = t.sequences ∧ t₂.nextPrivate = t.nextPrivate
      ∧ t.punchHole env b a eff = if pageDist a (a + eff) ≤ env.biggestSaneUserAlloc >>> logPageSize
        then (do
          let s ← t.sequences (t b).allocatorPrivate
          let t3 ← (t₂.privateMalloc s).2.deleteSpanOf (t b).allocatorPrivate a ((t b).end_ - a)
          let t4 ← t3.deleteSpanOf t₂.nextPrivate (t3 b).begin (a + eff - (t3 b).begin)
          return t4.modify new fun r => { r with allocatorPrivate := t₂.nextPrivate })
        else none := by
  obtain ⟨t₁, hsplit, hp, hseq, hnp⟩ := h.splitBigallocAtPageBoundary_eq hb (e := a + eff)
    (by omega) h2 hnew
  have hb1 : t₁.Top b := (hp.top_iff (by omega) hb).mpr (Or.inl hb)
  have hend : (t₁ b).end_ = a + eff := by
    rw [hp.end_eq (hp.ne hb.1), if_pos rfl]
  set t₂ := (t₁.setBounds b (t₁ b).begin a).setPages (pagenum a) (pagenum (a + eff)) 0
  have hp2 := hp.truncate h hb h1 (by omega) h2 ha he
  have htrunc : t₁.truncateBigallocAtEnd env b a
      = if pageDist a (a + eff) ≤ env.biggestSaneUserAlloc >>> logPageSize then some t₂ else none := by
    refine eq_ite_of_iff fun t3 => ?_
    rw [truncateBigallocAtEnd_eq_some_iff _ _ _ (up_lt hp.links hb1.1), hend, roundDown_eq_self ha,
      roundDown_eq_self he, hb1.2]
  have hap : (t₂ b).allocatorPrivate = (t b).allocatorPrivate :=
    (congrArg (·.allocatorPrivate) hp2.before :)
  refine ⟨t₂, hp2, hseq, hnp, ?_⟩
  simp only [punchHole, hsplit, Option.bind_eq_bind, Option.bind_some, htrunc]
  split
  · simp only [Option.bind_some, hap]
    rw [show t₂.sequences = t.sequences from hseq]
    rfl
  · rfl

section

variable (h : t.WellFormed) (hb : t.Top b) (h1 : (t b).begin < a) (hpos : 0 < eff)
  (h2 : a + eff < (t b).end_) (ha : PageAligned a) (he : PageAligned (a + eff))
include h hb h1 hpos h2 ha he

/-- A hole in the records is what it leaves, if it returns. -/
theorem WellFormed.punchHole_punched (hrun : t.punchHole env b a eff = some t') :
    ∃ new p, t.Punched b a (a + eff) new p t' := by
  cases hnew : t.findFreeBigalloc with
  | none => simp [punchHole, splitBigallocAtPageBoundary, hnew] at hrun
  | some new =>
    obtain ⟨t₂, hp, -, -, heq⟩ := h.punchHole_eq env hb h1 hpos h2 ha he hnew
    rw [heq] at hrun
    split at hrun
    · simp only [Option.bind_eq_bind, Option.pure_def, Option.bind_eq_some_iff,
        Option.some.injEq, deleteSpanOf_eq_some_iff] at hrun
      obtain ⟨s, -, t3, ⟨-, s3, -, -, rfl⟩, t4, ⟨-, s4, -, -, rfl⟩, rfl⟩ := hrun
      exact ⟨new, t₂.nextPrivate, hp.setAllocatorPrivate hb.1 rfl rfl rfl⟩
    · cases hrun

/-- It does return when there is room in the table and both halves of the sequence can be made. -/
theorem WellFormed.punchHole_returns {s s1 s2 : MappingSequence}
    (hnew : t.findFreeBigalloc = some new)
    (hsmall : pageDist a (a + eff) ≤ env.biggestSaneUserAlloc >>> logPageSize)
    (hp : (t b).allocatorPrivate < t.nextPrivate)
    (hs : t.sequences (t b).allocatorPrivate = some s)
    (hs1 : s.deleteMappingSequenceSpan a ((t b).end_ - a) = some s1)
    (hs2 : s.deleteMappingSequenceSpan (t b).begin (a + eff - (t b).begin) = some s2) :
    ∃ t', t.punchHole env b a eff = some t' ∧ t.Punched b a (a + eff) new t.nextPrivate t'
      ∧ t'.nextPrivate = t.nextPrivate + 1
      ∧ t'.sequences = update (update t.sequences
        (t b).allocatorPrivate (some s1)) t.nextPrivate (some s2) := by
  obtain ⟨t₂, hpun, hseq, hnp, heq⟩ := h.punchHole_eq env hb h1 hpos h2 ha he hnew
  set p := (t b).allocatorPrivate with hpdef
  have hne : p ≠ t₂.nextPrivate := by omega
  have hbegin : (t₂ b).begin = (t b).begin := hpun.begin_eq (hpun.ne hb.1)
  have h3 : (t₂.privateMalloc s).2.deleteSpanOf p a ((t b).end_ - a)
      = some ((t₂.privateMalloc s).2.setSequence p s1) := by
    refine deleteSpanOf_eq_some_iff.mpr ⟨s, s1, ?_, hs1, rfl⟩
    simp [privateMalloc, hne, hseq, hs]
  have h4 : ((t₂.privateMalloc s).2.setSequence p s1).deleteSpanOf t₂.nextPrivate
      (t b).begin (a + eff - (t b).begin)
      = some (((t₂.privateMalloc s).2.setSequence p s1).setSequence t₂.nextPrivate s2) := by
    refine deleteSpanOf_eq_some_iff.mpr ⟨s, s2, ?_, hs2, rfl⟩
    simp [privateMalloc, setSequence, Ne.symm hne]
  have hbegin3 : (((t₂.privateMalloc s).2.setSequence p s1) b).begin = (t b).begin := hbegin
  have hrun : t.punchHole env b a eff = some
      ((((t₂.privateMalloc s).2.setSequence p s1).setSequence t₂.nextPrivate s2).modify new
        fun r => { r with allocatorPrivate := t₂.nextPrivate }) := by
    rw [heq, if_pos hsmall, hs]
    simp [some_bind, h3, hbegin3, h4, Option.pure_def]
  refine ⟨_, hrun, ?_, congrArg (· + 1) hnp, ?_⟩
  · rw [← hnp]
    exact hpun.setAllocatorPrivate hb.1 rfl rfl rfl
  · show update (update (update t₂.sequences _ _) _ _) _ _ = _
    rw [hseq, hnp, Function.update_comm (by omega), Function.update_idem]
    exact Function.update_comm (by omega) _ _ _

end

/-! ### What is at the cursor -/

theorem lookupBigallocFromRoot_unindexed (al : Allocator) (h : t.Links 0)
    (hsys : env.systrapIsInitialized = true) (h0 : t.pageindex (pagenum c) = 0) :
    t.lookupBigallocFromRoot env c al = some (0, t) := by
  simp [lookupBigallocFromRoot, findBigallocFromTop, hsys, findBigallocFromEntry, h0, rootOf_null h,
    findBigallocRecursive_null h]

theorem lookupBigallocFromRoot_top {al : Allocator} (h : t.Links 0)
    (hsys : env.systrapIsInitialized = true) (hn : t.InUse (t.pageindex (pagenum c)))
    (hb : t.Top b) (hbelow : Below t.up (t.pageindex (pagenum c)) b)
    (hal : (t b).allocatedBy = some al) : t.lookupBigallocFromRoot env c al = some (b, t) := by
  obtain ⟨d, hd⟩ := h.exists_depth hn
  obtain ⟨r, hroot, hr, hup, hrb⟩ := rootOf_eq h hn hd (h.depth_lt hn hd).le
  obtain rfl := Top.unique h ⟨hr, hup⟩ hb hrb hbelow
  have hfind : t.findBigallocRecursive c al false nbigallocs r = some r := by
    rw [show nbigallocs = 32767 + 1 from rfl]
    simp [findBigallocRecursive, hal]
  simp [lookupBigallocFromRoot, findBigallocFromTop, hsys, findBigallocFromEntry, hroot, hfind]

section

variable (ht : t.Trimmed a c t₁) (hn : n ∉ t.inRange a c) (hb : t.Top n)

include ht hn hb

theorem Trimmed.allocatedBy_eq :
    (t₁ n).allocatedBy = (t n).allocatedBy :=
  (congrArg (·.allocatedBy) (ht.outer n hn hb) :)

theorem Trimmed.allocatorPrivate_eq : (t₁ n).allocatorPrivate = (t n).allocatorPrivate :=
  (congrArg (·.allocatorPrivate) (ht.outer n hn hb) :)

end

section

variable (h : t.WellFormed) (ht : t.Trimmed a c t₁)

include h ht

/-- At the end of the range so far is nothing, or a top-level record that the range has not reached,
or not got over. -/
theorem Trimmed.lookup (hsys : env.systrapIsInitialized = true) (hc : PageAligned c)
    (hmm : ∀ r, t.Top r → c ∈ t.addrs r → (t r).allocatedBy = some .mmap) :
    (t.pageindex (pagenum c) = 0 ∧ t₁.lookupBigallocFromRoot env c .mmap = some (0, t₁))
      ∨ ∃ b, t.Top b ∧ c ∈ t.addrs b ∧ b ∉ t.inRange a c
        ∧ t₁.lookupBigallocFromRoot env c .mmap = some (b, t₁) := by
  have hpage : t₁.pageindex (pagenum c) = t.pageindex (pagenum c) := by
    rw [ht.pages]
    refine if_neg ?_
    obtain ⟨k, rfl⟩ := hc
    simp only [pagenum, pageSize]
    omega
  by_cases h0 : t.pageindex (pagenum c) = 0
  · exact .inl ⟨h0, lookupBigallocFromRoot_unindexed _ ht.links hsys (hpage.trans h0)⟩
  · obtain ⟨b, hb, hcb, hu, hbelow⟩ := h.exists_top h0
    have hout : t.pageindex (pagenum c) ∉ t.inRange a c := by
      rintro ⟨r, hr, -, h2, hr'⟩
      obtain rfl := Top.unique h.links hr hb hr' hbelow
      exact absurd hcb.2 (by omega)
    have hbout : b ∉ t.inRange a c := by
      rw [hb.mem_inRange_iff h.links]
      have := hcb.2
      omega
    refine .inr ⟨b, hb, hcb, hbout, ?_⟩
    refine lookupBigallocFromRoot_top ht.links hsys ?_ ((ht.top_iff h).mpr ⟨hb, hbout⟩) ?_ ?_
    · rw [hpage]
      exact (ht.inUse_iff h).mpr ⟨hu, hout⟩
    · rw [hpage]
      exact (ht.below_iff hout).mpr hbelow
    · rw [ht.allocatedBy_eq hbout hb]
      exact hmm b hb hcb

/-! ### One turn of the loop -/

variable (hb : t.Top b) (hbegin : (t b).begin = c)

include hb hbegin

theorem Trimmed.core_below (hn : Below t₁.up n b) :
    t.InUse n ∧ n ∉ t.inRange a c ∧ (t₁ n).core = (t n).core := by
  obtain ⟨hbs, hb1, hcore⟩ := ht.core_at h hb hbegin
  obtain ⟨hnu, hns⟩ := (ht.inUse_iff h).mp (ht.links.inUse_of_below_inUse hn hb1.1)
  refine ⟨hnu, hns, ?_⟩
  by_cases htop : t.Top n
  · have hn1 : t₁.Top n := (ht.top_iff h).mpr ⟨htop, hns⟩
    obtain rfl := ((hn1.below_iff ht.links).mp hn).resolve_right hb.1.ne_zero
    exact hcore
  · exact ht.inner n hns htop

theorem Trimmed.nested : t₁.Nested b := by
  intro n hn hne
  have hupn : Below t₁.up (t₁.up n) b := (Forest.below_iff.mp hn).resolve_left hne
  obtain ⟨hnu, hns, hcn⟩ := ht.core_below h hb hbegin hn
  obtain ⟨hpu, hps, hcp⟩ := ht.core_below h hb hbegin hupn
  rw [ht.up_eq hns] at hpu hps hcp
  have hin := h.inside n hnu hpu.ne_zero
  obtain ⟨h1, h2⟩ := bounds_congr hcn
  obtain ⟨h3, h4⟩ := bounds_congr hcp
  simp only [Inside, ht.up_eq hns, h1, h2, h3, h4]
  exact hin

variable (hac : a ≤ c) (hcut : c = a ∨ t.Cut c)

include hac hcut

theorem Trimmed.delete_cases
    (hlook : t₁.lookupBigallocFromRoot env c .mmap = some (b, t₁)) :
    (t₁.deleteBigallocAt env c .mmap = none ∧ ¬ t.Small env b) ∨
      ∃ t₂, t₁.deleteBigallocAt env c .mmap = some (true, t₂) ∧ t.Small env b
        ∧ t₁.Removed { n | Below t₁.up n b } t₂ ∧ t.Trimmed a (t b).end_ t₂ := by
  obtain ⟨hbs, hb1, hcore⟩ := ht.core_at h hb hbegin
  obtain ⟨d, hd⟩ := ht.links.exists_depth hb1.1
  have hsmall : t₁.Small env b ↔ t.Small env b := by
    simp [Small, bounds_congr hcore]
  have hdel : t₁.deleteBigallocAt env c .mmap
      = (t₁.bigallocDel env nbigallocs b).map fun t => (true, t) := by
    have hlook' : t₁.findBigallocFromTop env c .mmap false = some (b, t₁) := hlook
    simp only [deleteBigallocAt, hlook', some_bind, if_neg hb.1.ne_zero]
    cases bigallocDel env nbigallocs t₁ b <;> rfl
  rcases bigallocDel_cases env nbigallocs ht.links hb1.1 hd (by omega)
    (ht.nested h hb hbegin) with ⟨hnone, hns⟩ | ⟨t₂, hsome, hs, hr, hpages⟩
  · exact .inl ⟨by rw [hdel, hnone]; rfl, fun hc => hns (hsmall.mpr hc)⟩
  · exact .inr ⟨t₂, by rw [hdel, hsome]; rfl, hsmall.mp hs, hr,
      ht.whole h hac hcut hb hbegin hr hpages⟩

/-- A top-level record loses its head, if that is no more than is sane. -/
theorem Trimmed.truncate_head (env : Env) (hce : c < e) (he : e < (t b).end_)
    (hae : PageAligned e) :
    ∃ t₂, t.Trimmed a e t₂ ∧ t₂.sequences = t₁.sequences ∧ t₂ b = { t₁ b with begin := e }
      ∧ (∀ r, r ≠ b → t₂ r = t₁ r)
      ∧ t₁.truncateBigallocAtBeginning env b e
        = if pageDist c e ≤ env.biggestSaneUserAlloc >>> logPageSize then some t₂ else none := by
  obtain ⟨hbs, hb1, hcore⟩ := ht.core_at h hb hbegin
  have h1 : (t₁ b).begin = c := (bounds_congr hcore).1.trans hbegin
  have hc : roundUp c pageSize = c := roundUp_eq_self_iff.mpr (hbegin ▸ (h.aligned b hb.1 hb.2).1)
  refine ⟨_, ht.head h hac hcut hb hbegin hce he hae, rfl, setBounds_self _ _ _ _,
    fun r hr => setBounds_of_ne hr, eq_ite_of_iff fun t' => ?_⟩
  rw [truncateBigallocAtBeginning_eq_some_iff env t' e ht.links hb1.1, h1, hc,
    roundUp_eq_self_iff.mpr hae, hb1.2]

end

theorem WellFormed.cut_end (h : t.WellFormed) (hb : t.Top b) : t.Cut (t b).end_ := by
  intro r hr hlt
  by_cases hrb : r = b
  · rw [hrb]
  · have := h.bounds r hr.1
    rcases h.apart_top hr hb hrb with h3 | h3
    · have := h.bounds b hb.1
      omega
    · omega

/-- Pages that are not indexed are passed over, however many there are. -/
theorem doMunmapLoop_unindexed (a eff : Nat) (h : t.Links 0) (hsys : env.systrapIsInitialized = true) :
    ∀ fuel c, (∀ k, c + k * pageSize < a + eff → t.pageindex (pagenum (c + k * pageSize)) = 0) →
      ∀ remaining,
      (doMunmapLoop env a eff fuel t c remaining = none ∧ c + fuel * pageSize < a + eff)
        ∨ doMunmapLoop env a eff fuel t c remaining = some t := by
  intro fuel
  induction fuel with
  | zero =>
    intro c _ remaining
    by_cases hlt : c < a + eff
    · exact .inl ⟨if_pos hlt, by omega⟩
    · exact .inr (if_neg hlt)
  | succ fuel ih =>
    intro c hz remaining
    by_cases hlt : c < a + eff
    · have hlook := lookupBigallocFromRoot_unindexed (c := c) .mmap h hsys
        (by simpa using hz 0 (by simpa using hlt))
      have hnext : ∀ k, c + pageSize + k * pageSize = c + (k + 1) * pageSize := fun k => by
        rw [Nat.add_mul]
        omega
      have hstep : doMunmapLoop env a eff (fuel + 1) t c remaining
          = doMunmapLoop env a eff fuel t (c + pageSize) (remaining - pageSize) := by
        rw [doMunmapLoop, if_pos hlt, hlook]
        rfl
      rcases ih (c + pageSize) (fun k hk => hnext k ▸ hz (k + 1) (hnext k ▸ hk))
        (remaining - pageSize) with ⟨h1, h2⟩ | h1
      · refine .inl ⟨hstep.trans h1, ?_⟩
        rw [Nat.add_mul]
        omega
      · exact .inr (hstep.trans h1)
    · refine .inr ?_
      rw [doMunmapLoop, if_neg hlt]

/-! ### Whole runs -/

/-- The cursor is at the begin and nothing has happened, or the range up to it has been taken and no
record reaches across it. -/
def AtCursor (t : Table) (a c : Nat) (t₁ : Table) : Prop :=
  (c = a ∧ t₁ = t) ∨ (t.Trimmed a c t₁ ∧ t.Cut c)

theorem AtCursor.trimmed (h : t.WellFormed) (hat : t.AtCursor a c t₁) :
    t.Trimmed a c t₁ ∧ (c = a ∨ t.Cut c) := by
  rcases hat with ⟨rfl, rfl⟩ | ⟨ht, hcut⟩
  · exact ⟨Trimmed.refl h c, .inl rfl⟩
  · exact ⟨ht, .inr hcut⟩

theorem AtCursor.skip (h : t.WellFormed) (hat : t.AtCursor a c t₁) (hc : PageAligned c)
    (h0 : t.pageindex (pagenum c) = 0) : t.AtCursor a (c + pageSize) t₁ := by
  refine .inr ⟨(hat.trimmed h).1.skip h hc h0, fun r hr hlt => ?_⟩
  rcases h.beside_unindexed hc h0 hr with h1 | h1 <;> omega

/-- The record has an address of the range. -/
def Overlaps (t : Table) (n a e : Nat) : Prop := ∃ x ∈ t.addrs n, a ≤ x ∧ x < e

/-- The range is a hole in a top-level record. -/
def HoleIn (t : Table) (b a e : Nat) : Prop :=
  t.Top b ∧ (t.bigAllocations b).begin < a ∧ a < e ∧ e < (t.bigAllocations b).end_

/-- With a hole, or, if there is no record for one, trimmed. -/
def Unmapped (t : Table) (a e : Nat) (t' : Table) : Prop :=
  (t.Trimmed a e t' ∧ ∀ b, ¬ t.HoleIn b a e)
    ∨ ∃ b new p, t.HoleIn b a e ∧ t.Punched b a e new p t'

/-- What a turn of the loop does with the table `t₁` it meets and the cursor at `c`. -/
inductive Turn (env : Env) (t : Table) (a eff fuel : Nat) (t₁ : Table) (c : Nat)
    (run : Option Table) : Prop
  | skip : t.pageindex (pagenum c) = 0 →
      run = doMunmapLoop env a eff fuel t₁ (c + pageSize) (a + eff - (c + pageSize)) →
      Turn env t a eff fuel t₁ c run
  | whole (b : Nat) : t.Top b → (t.bigAllocations b).begin = c →
      (t.bigAllocations b).end_ ≤ a + eff →
      t₁.lookupBigallocFromRoot env c .mmap = some (b, t₁) →
      run = (t₁.deleteBigallocAt env c .mmap).bind (fun r => doMunmapLoop env a eff fuel r.2
        (t.bigAllocations b).end_ (a + eff - (t.bigAllocations b).end_)) →
      Turn env t a eff fuel t₁ c run
  | head (b : Nat) : t.Top b → (t.bigAllocations b).begin = c →
      a + eff < (t.bigAllocations b).end_ →
      run = (t₁.truncateBigallocAtBeginning env b (a + eff)).bind
        (fun t₂ => t₂.deleteSpanOf (t.bigAllocations b).allocatorPrivate c (a + eff - c)) →
      Turn env t a eff fuel t₁ c run
  | tail (b : Nat) : c = a → t₁ = t → t.Top b → (t.bigAllocations b).begin < a →
      a < (t.bigAllocations b).end_ → (t.bigAllocations b).end_ ≤ a + eff →
      run = (t.truncateBigallocAtEnd env b a).bind (fun t₂ =>
        (t₂.deleteSpanOf (t.bigAllocations b).allocatorPrivate a ((t.bigAllocations b).end_ - a)).bind
          fun t₃ => doMunmapLoop env a eff fuel t₃ (t.bigAllocations b).end_
            (a + eff - (t.bigAllocations b).end_)) →
      Turn env t a eff fuel t₁ c run
  | hole (b : Nat) : c = a → t₁ = t → t.Top b → (t.bigAllocations b).begin < a →
      a + eff < (t.bigAllocations b).end_ →
      run = (t.punchHole env b a eff).bind (fun t₂ => doMunmapLoop env a eff fuel t₂ a eff) →
      Turn env t a eff fuel t₁ c run

theorem doMunmapLoop_turn (env : Env) (a eff : Nat) (h : t.WellFormed)
    (hsys : env.systrapIsInitialized = true)
    (hmm : ∀ r, t.Top r → c ∈ t.addrs r → (t r).allocatedBy = some .mmap)
    (hce : c < a + eff) (hc : PageAligned c) (hat : t.AtCursor a c t₁) (fuel : Nat) :
    Turn env t a eff fuel t₁ c (doMunmapLoop env a eff (fuel + 1) t₁ c (a + eff - c)) := by
  obtain ⟨ht, hcut⟩ := hat.trimmed h
  have hsum : c + (a + eff - c) = a + eff := by omega
  rcases ht.lookup h hsys hc hmm with ⟨h0, hlook⟩ | ⟨b, hb, hcb, hbs, hlook⟩
  · refine .skip h0 ?_
    rw [doMunmapLoop, if_pos hce, hlook, Nat.sub_add_eq]
    rfl
  · have hb0 := hb.1.ne_zero
    have hunfold : ∀ r, t₁ b = r → doMunmapLoop env a eff (fuel + 1) t₁ c (a + eff - c)
        = (if c = r.begin then
            if a + eff ≥ r.end_ then do
              let deleted ← t₁.deleteBigallocAt env r.begin .mmap
              doMunmapLoop env a eff fuel deleted.2 r.end_ (a + eff - c - (r.end_ - c))
            else do
              let t ← t₁.truncateBigallocAtBeginning env b (a + eff)
              t.deleteSpanOf r.allocatorPrivate c (a + eff - c)
          else if a + eff ≥ r.end_ then do
            let t ← t₁.truncateBigallocAtEnd env b c
            let t ← t.deleteSpanOf r.allocatorPrivate c (r.end_ - c)
            doMunmapLoop env a eff fuel t (c + (r.end_ - c)) (a + eff - c - (r.end_ - c))
          else do
            doMunmapLoop env a eff fuel (← t₁.punchHole env b a eff) c (a + eff - c)) := by
      rintro r rfl
      rw [doMunmapLoop, if_pos hce, hlook]
      simp [some_bind, if_neg hb0, hsum]
    have hap := ht.allocatorPrivate_eq hbs hb
    by_cases hbegin : (t b).begin = c
    · obtain ⟨-, -, hcore⟩ := ht.core_at h hb hbegin
      obtain ⟨h1, h2⟩ := bounds_congr hcore
      rw [hbegin] at h1
      by_cases hend : (t b).end_ ≤ a + eff
      · refine .whole b hb hbegin hend hlook ?_
        have hrest : a + eff - c - ((t b).end_ - c) = a + eff - (t b).end_ := by
          have := hcb.2
          omega
        rw [hunfold _ rfl, h1, h2, if_pos rfl, if_pos hend, hrest]
        rfl
      · refine .head b hb hbegin (by omega) ?_
        rw [hunfold _ rfl, h1, h2, if_pos rfl, if_neg hend, hap]
        rfl
    · have hlt : (t b).begin < c := by
        have := hcb.1
        omega
      obtain ⟨rfl, rfl⟩ : c = a ∧ t₁ = t := by
        rcases hat with hat | ⟨-, hcut'⟩
        · exact hat
        · have h1 := hcut' b hb hlt
          have h2 := hcb.2
          omega
      by_cases hend : (t₁ b).end_ ≤ c + eff
      · refine .tail b rfl rfl hb hlt hcb.2 hend ?_
        have h1 : c + ((t₁ b).end_ - c) = (t₁ b).end_ := by
          have := hcb.2
          omega
        have h2 : c + eff - c - ((t₁ b).end_ - c) = c + eff - (t₁ b).end_ := by
          omega
        rw [hunfold _ rfl, if_neg (Ne.symm hbegin), if_pos hend, h1, h2]
        rfl
      · refine .hole b rfl rfl hb hlt (by omega) ?_
        rw [hunfold _ rfl, if_neg (Ne.symm hbegin), if_neg hend, Nat.add_sub_cancel_left]
        rfl

theorem Punched.pageindex_hole {x : Nat} (hp : t.Punched b a e new p t') (ha : PageAligned a)
    (h1 : a ≤ x) (h2 : x < e) : t'.pageindex (pagenum x) = 0 := by
  have hx := (pagenum_eq_iff (a := x)).mp rfl
  have hle : pagenum a ≤ pagenum x := Nat.div_le_div_right h1
  rw [hp.pages, if_pos ⟨(pagenum_le_iff ha).mp hle, by omega⟩]

theorem WellFormed.truncate_tail (env : Env) (h : t.WellFormed) (ha : PageAligned a) (hb : t.Top b)
    (h1 : (t b).begin < a) (h2 : a < (t b).end_) :
    ∃ t₂, t.Trimmed a (t b).end_ t₂ ∧ t₂.sequences = t.sequences ∧ t₂ b = { t b with end_ := a }
      ∧ (∀ r, r ≠ b → t₂ r = t r)
      ∧ t.truncateBigallocAtEnd env b a
        = if pageDist a (t b).end_ ≤ env.biggestSaneUserAlloc >>> logPageSize
          then some t₂ else none := by
  refine ⟨_, Trimmed.tail h ha hb h1 h2, rfl, setBounds_self _ _ _ _,
    fun r hr => setBounds_of_ne hr, eq_ite_of_iff fun t' => ?_⟩
  rw [truncateBigallocAtEnd_eq_some_iff env t' a (up_lt h.links hb.1), roundDown_eq_self ha,
    roundDown_eq_self (h.aligned b hb.1 hb.2).2, hb.2]

theorem Trimmed.deleteSpanOf (ht : t.Trimmed a c t₁)
    (hrun : t₁.deleteSpanOf p addr length = some t₂) : t.Trimmed a c t₂ := by
  obtain ⟨s, s', -, -, rfl⟩ := deleteSpanOf_eq_some_iff.mp hrun
  exact ht.of_eq rfl rfl rfl

/-- With the cursor at the end, the range is gone. -/
theorem AtCursor.unmapped (hat : t.AtCursor a e t₁) (h : t.WellFormed) : t.Unmapped a e t₁ := by
  refine .inl ⟨(hat.trimmed h).1, fun b hb => ?_⟩
  obtain ⟨hb, h1, h2, h3⟩ := hb
  rcases hat with ⟨hc, -⟩ | ⟨-, hcut⟩
  · omega
  · have := hcut b hb (by omega)
    omega

/-- With the beginning of a record cut off, which begins in the range, there is no hole. -/
theorem Trimmed.unmapped_head (ht : t.Trimmed a e t₁) (h : t.WellFormed) (hb : t.Top b)
    (h1 : a ≤ (t b).begin) (h2 : (t b).begin < e) (h3 : e < (t b).end_) : t.Unmapped a e t₁ := by
  refine .inl ⟨ht, fun x hx => ?_⟩
  obtain ⟨hx, h4, h5, h6⟩ := hx
  have hxb : x ≠ b := by
    rintro rfl
    omega
  rcases h.apart_top hx hb hxb with h7 | h7 <;> omega

/-- After a hole the cursor stays, but every page from there on is unindexed, and the loop goes to the
end. -/
theorem Punched.doMunmapLoop (hp : t.Punched b a (a + eff) new p t₂) (ha : PageAligned a)
    (hsys : env.systrapIsInitialized = true)
    (hrun : Table.doMunmapLoop env a eff fuel t₂ a eff = some t') : t' = t₂ := by
  rcases doMunmapLoop_unindexed a eff hp.links hsys fuel a
    (fun _ hk => hp.pageindex_hole ha (Nat.le_add_right _ _) hk) eff with ⟨hnone, -⟩ | hsome
  · rw [hnone] at hrun
    cases hrun
  · rw [hsome] at hrun
    exact (Option.some.inj hrun).symm

/-- If the loop returns, the range is gone from the top-level records. -/
theorem doMunmapLoop_unmapped (h : t.WellFormed) (hsys : env.systrapIsInitialized = true)
    (hmm : ∀ r, t.Top r → t.Overlaps r a (a + eff) → (t r).allocatedBy = some .mmap)
    (ha : PageAligned a) (he : PageAligned (a + eff)) :
    ∀ fuel t₁ c, t.AtCursor a c t₁ → a ≤ c → c ≤ a + eff → PageAligned c →
      doMunmapLoop env a eff fuel t₁ c (a + eff - c) = some t' → t.Unmapped a (a + eff) t' := by
  have hdone : ∀ t₁ c, t.AtCursor a c t₁ → c ≤ a + eff → ¬ c < a + eff →
      t.Unmapped a (a + eff) t₁ := by
    intro t₁ c hat hle hlt
    obtain rfl : c = a + eff := by omega
    exact hat.unmapped h
  intro fuel
  induction fuel with
  | zero =>
    intro t₁ c hat _ hle _ hrun
    by_cases hlt : c < a + eff
    · rw [doMunmapLoop, if_pos hlt] at hrun
      cases hrun
    · rw [doMunmapLoop, if_neg hlt] at hrun
      cases hrun
      exact hdone _ c hat hle hlt
  | succ fuel ih =>
    intro t₁ c hat hac hle hc hrun
    by_cases hlt : c < a + eff
    · obtain ⟨ht, hcut⟩ := hat.trimmed h
      have hturn := doMunmapLoop_turn env a eff h hsys
        (fun r hr hcr => hmm r hr ⟨c, hcr, hac, hlt⟩) hlt hc hat fuel
      rw [hrun] at hturn
      cases hturn with
      | skip h0 heq =>
        exact ih t₁ _ (hat.skip h hc h0) (by omega) (hc.add_pageSize_le he hlt)
          (Nat.dvd_add hc (Nat.dvd_refl _)) heq.symm
      | whole b hb hbegin hend hlook heq =>
        rcases ht.delete_cases h hb hbegin hac hcut hlook with ⟨hnone, -⟩ | ⟨t₂, hsome, -, -, ht2⟩
        · rw [hnone] at heq
          cases heq
        · rw [hsome] at heq
          have := h.bounds b hb.1
          exact ih t₂ _ (.inr ⟨ht2, h.cut_end hb⟩) (by omega) hend
            (h.aligned b hb.1 hb.2).2 heq.symm
      | head b hb hbegin hend heq =>
        obtain ⟨t₂, ht2, -, -, -, htrunc⟩ := ht.truncate_head h hb hbegin hac hcut env hlt hend he
        rw [htrunc] at heq
        split at heq
        · exact (ht2.deleteSpanOf heq.symm).unmapped_head h hb (by omega) (by omega) hend
        · cases heq
      | tail b hca htt hb hbegin hab hend heq =>
        obtain ⟨t₂, ht2, -, -, -, htrunc⟩ := h.truncate_tail env ha hb hbegin hab
        rw [htrunc] at heq
        split at heq
        · rw [Option.bind_some] at heq
          obtain ⟨t3, h3, h4⟩ := of_bind heq.symm
          exact ih t3 _ (.inr ⟨ht2.deleteSpanOf h3, h.cut_end hb⟩) (by omega) hend
            (h.aligned b hb.1 hb.2).2 h4
        · cases heq
      | hole b hca htt hb hbegin hend heq =>
        obtain ⟨t₂, h2, h3⟩ := of_bind heq.symm
        obtain ⟨new, p, hp⟩ := h.punchHole_punched hb hbegin (by omega) hend ha he h2
        obtain rfl := hp.doMunmapLoop ha hsys h3
        exact .inr ⟨b, new, p, ⟨hb, hbegin, by omega, hend⟩, hp⟩
    · rw [doMunmapLoop, if_neg hlt] at hrun
      cases hrun
      exact hdone _ c hat hle hlt

end Liballocs.Table
