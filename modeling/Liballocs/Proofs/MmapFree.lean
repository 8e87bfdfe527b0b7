/-
Mapping into free addresses.

A bigalloc is created for the mapping, with a sequence of its own.  A creation asks the stack and the
brk allocator about the ends of the range, and `Unclaimed` says when neither has anything to do with an
address.
-/
import Liballocs.Proofs.MmapFixed

namespace Liballocs

open Forest Segments Function

namespace MappingSequence

/-- The record of a bigalloc with the sequence, which is at `p`. -/
def record (s : MappingSequence) (p : Nat) : BigAllocation where
  begin := s.begin
  end_ := s.end_
  allocatorPrivate := p
  allocatorPrivateFree := some .privateNommapFree
  allocatedBy := some .mmap

/-- What `__liballocs_new_bigalloc` is asked for, for such a bigalloc. -/
def request (s : MappingSequence) : Table.NewRequest where
  ptr := s.begin
  size := s.end_ - s.begin
  allocatedBy := some .mmap

theorem request_end {s : MappingSequence} (h : s.begin < s.end_) :
    s.request.ptr + s.request.size = s.end_ :=
  Nat.add_sub_cancel' h.le

theorem extend_empty {r : Mapping} (h0 : 0 < r.begin) (hne : r.begin < r.end_) :
    (extend {} r).Sane ∧ (extend {} r).Tidy := by
  refine ⟨⟨Nat.one_pos, Nat.one_le_ofNat, h0, ?_⟩, fun i hi _ => .inl ?_⟩
  · rw [entries_extend]
    exact ⟨rfl, hne, rfl⟩
  · have hslot : (extend {} r).mappings i = {} := update_of_ne (Nat.ne_of_gt hi) _ _
    rw [hslot]
    exact ⟨rfl, rfl⟩

end MappingSequence

namespace Table

open MappingSequence

variable {env : Env} {t t' : Table} {c : MmapCall} {a b fuel n x k r e p : Nat}
  {s : MappingSequence}

/-! ### Addresses nobody claims -/

/-- No stack on the list from `b` on is near the address. -/
def StackAway (env : Env) (t : Table) (a : Nat) : Nat → Nat → Prop
  | 0, b => b = 0
  | fuel + 1, b => b = 0 ∨ (t.InUse b ∧ t.up b ≠ 0
      ∧ ¬ ((t.bigAllocations b).begin > a
        ∧ (t.bigAllocations b).begin - a < guessSaneMaxStackDelta env)
      ∧ ¬ ((t.bigAllocations b).end_ > a
        ∧ (t.bigAllocations b).end_ - a < guessSaneMaxStackSize env)
      ∧ StackAway env t a fuel (t.bigAllocations b).allocatorPrivate)

/-- No stack is near the address, and the brk bigalloc is up to date. -/
structure Unclaimed (env : Env) (t : Table) (a : Nat) : Prop where
  stack : StackAway env t a nbigallocs t.initialStackBigalloc
  brk : t.mmapInitialized = true → t.brkBigalloc ≠ 0 → t.brkMappingBigalloc ≠ 0 →
    t.InUse t.brkBigalloc ∧ t.up t.brkBigalloc ≠ 0
      ∧ (t.bigAllocations t.brkBigalloc).end_ = env.sbrk

theorem StackAway.stackClaim_eq (h : StackAway env t a fuel b) :
    stackClaim env t a fuel b = some (false, t) := by
  induction fuel generalizing b with
  | zero => exact if_pos h
  | succ fuel ih =>
    unfold stackClaim
    by_cases hb : b = 0
    · rw [if_pos hb]
    · obtain ⟨-, -, hlow, hhigh, hrest⟩ := h.resolve_left hb
      rw [if_neg hb, if_neg fun hc => hc.1.elim hlow hhigh]
      exact ih hrest

theorem Unclaimed.quietAt (h : Unclaimed env t a) : QuietAt env t a := by
  intro _
  have hstack : t.stackAllocatorNotifyUnindexedAddress env a = some (false, t) :=
    h.stack.stackClaim_eq
  have hupdate : t.mmapInitialized = true → t.brkBigalloc ≠ 0 →
      t.updateBrk env env.sbrk = some t := by
    intro h1 h2
    by_cases h3 : t.brkMappingBigalloc = 0
    · unfold updateBrk
      exact if_pos h3
    · obtain ⟨-, -, hend⟩ := h.brk h1 h2 h3
      unfold updateBrk
      simp [hend, gt_iff_lt, ite_self]
  unfold notifyUnindexedAddress mmapAllocatorNotifyUnindexedAddress
    brkAllocatorNotifyUnindexedAddress
  simp only [hstack, some_bind, Bool.false_eq_true, if_false]
  by_cases hinit : t.mmapInitialized = true
  · by_cases hbrk : t.brkBigalloc = 0
    · exact ⟨false, by simp [hinit, hbrk]⟩
    · simp only [hinit, Bool.not_true, Bool.false_eq_true, if_false, if_neg hbrk,
        hupdate hinit hbrk, Option.pure_def]
      exact ⟨_, rfl⟩
  · exact ⟨false, by simp [hinit]⟩

/-- Records that are not at the top keep all but their child and sibling links. -/
def InnerKept (t t' : Table) : Prop :=
  ∀ n, t.InUse n → t.up n ≠ 0 → (t'.bigAllocations n).core = (t.bigAllocations n).core

theorem StackAway.of_innerKept (hk : t.InnerKept t') (h : StackAway env t a fuel b) :
    StackAway env t' a fuel b := by
  induction fuel generalizing b with
  | zero => exact h
  | succ fuel ih =>
    rcases h with h0 | ⟨hin, hup, hlow, hhigh, hrest⟩
    · exact .inl h0
    · have hcore := hk b hin hup
      have hbegin := congrArg (·.begin) hcore
      have hend := congrArg (·.end_) hcore
      have hpriv := congrArg (·.allocatorPrivate) hcore
      simp only [BigAllocation.core] at hbegin hend hpriv
      refine .inr ⟨(inUse_congr hcore).mpr hin, by rw [up_congr hcore]; exact hup, ?_, ?_, ?_⟩
      · rw [hbegin]
        exact hlow
      · rw [hend]
        exact hhigh
      · rw [hpriv]
        exact ih hrest

theorem Unclaimed.of_innerKept (h : Unclaimed env t a) (hk : t.InnerKept t')
    (hs : t.SameStaticsButHeap t') : Unclaimed env t' a := by
  have h1 : t'.initialStackBigalloc = t.initialStackBigalloc := by rw [hs]
  have h2 : t'.brkBigalloc = t.brkBigalloc := by rw [hs]
  have h3 : t'.brkMappingBigalloc = t.brkMappingBigalloc := by rw [hs]
  have h4 : t'.mmapInitialized = t.mmapInitialized := by rw [hs]
  refine ⟨by rw [h1]; exact h.stack.of_innerKept hk, fun hi hb hm => ?_⟩
  rw [h2, h3, h4] at *
  obtain ⟨hin, hup, hend⟩ := h.brk hi hb hm
  have hcore := hk _ hin hup
  have hend' := congrArg (·.end_) hcore
  exact ⟨(inUse_congr hcore).mpr hin, by rw [up_congr hcore]; exact hup, hend'.trans hend⟩

/-! ### Room -/

/-- No top-level record has an address from `lo` up to `hi`. -/
def FreeRange (t : Table) (lo hi : Nat) : Prop :=
  ∀ r, t.Top r → (t.bigAllocations r).end_ ≤ lo ∨ hi ≤ (t.bigAllocations r).begin

/-- There are `k` free records. -/
def HasFree (t : Table) (k : Nat) : Prop :=
  ∃ F : Finset Nat, F.card = k ∧ ∀ n ∈ F, 0 < n ∧ n < nbigallocs ∧ ¬ t.InUse n

theorem HasFree.findFreeBigalloc (h : t.HasFree (k + 1)) : ∃ b, t.findFreeBigalloc = some b := by
  obtain ⟨F, hcard, hF⟩ := h
  obtain ⟨n, hn⟩ := Finset.card_pos.mp (show 0 < F.card by omega)
  obtain ⟨h1, h2, h3⟩ := hF n hn
  exact Option.isSome_iff_exists.mp (findFreeBigalloc_isSome h1 h2 h3)

theorem HasFree.of_one (h : t.HasFree (k + 1)) (hin : ∀ n, t'.InUse n → t.InUse n ∨ n = b) :
    t'.HasFree k := by
  obtain ⟨F, hcard, hF⟩ := h
  have hle : k ≤ (F.erase b).card := by
    have := Finset.pred_card_le_card_erase (s := F) (a := b)
    omega
  obtain ⟨G, hG, hGcard⟩ := Finset.exists_subset_card_eq hle
  refine ⟨G, hGcard, fun n hn => ?_⟩
  obtain ⟨hne, hn⟩ := Finset.mem_erase.mp (hG hn)
  obtain ⟨h1, h2, h3⟩ := hF n hn
  exact ⟨h1, h2, fun hc => (hin n hc).elim h3 hne⟩

theorem FreeRange.pageindex_eq_zero {lo hi q : Nat} (hf : t.FreeRange lo hi) (h : t.WellFormed)
    (h1 : lo ≤ q * pageSize) (h2 : q * pageSize < hi) : t.pageindex q = 0 := by
  have hq : pagenum (q * pageSize) = q := Nat.mul_div_cancel q (by decide)
  by_contra h0
  rw [← hq] at h0
  obtain ⟨r, hr, hxr, -⟩ := h.exists_top h0
  have hap := hf r hr
  simp only [addrs, Set.mem_ofPred_eq] at hxr
  omega

/-! ### A bigalloc is created -/

/-- `b` is a new top-level record for the sequence, a copy of which was allocated. -/
structure Created (t : Table) (s : MappingSequence) (b : Nat) (t' : Table) : Prop where
  wellFormed : t'.WellFormed
  free : ¬ t.InUse b
  keep : ∀ n, n ≠ b → (t'.bigAllocations n).core = (t.bigAllocations n).core
  record : (t'.bigAllocations b).core = s.record t.nextPrivate
  inUse : t'.InUse b
  sequences : t'.sequences = Function.update t.sequences t.nextPrivate (some s)
  heap : t'.nextPrivate = t.nextPrivate + 1
  statics : t.SameStaticsButHeap t'

namespace Created

variable {s : MappingSequence}

section

variable (hc : t.Created s b t')
include hc

theorem inUse_iff : t'.InUse n ↔ t.InUse n ∨ n = b := by
  by_cases hn : n = b
  · subst hn
    exact ⟨fun _ => .inr rfl, fun _ => hc.inUse⟩
  · rw [inUse_congr (hc.keep n hn)]
    exact ⟨Or.inl, fun h => h.resolve_right hn⟩

theorem end_eq : (t' b).end_ = s.end_ := (congrArg (·.end_) hc.record :)

theorem seqOf_eq : t'.seqOf b = t.nextPrivate :=
  (congrArg (·.allocatorPrivate) hc.record :)

theorem top_iff (hn : n ≠ b) : t'.Top n ↔ t.Top n := by
  unfold Top
  rw [inUse_congr (hc.keep n hn), up_congr (hc.keep n hn)]

theorem old (hn : n ≠ b) :
    t'.seqOf n = t.seqOf n ∧ (t' n).begin = (t n).begin ∧ (t' n).end_ = (t n).end_
      ∧ (t' n).allocatedBy = (t n).allocatedBy := by
  have hcore := hc.keep n hn
  have h1 := congrArg (·.allocatorPrivate) hcore
  have h2 := congrArg (·.begin) hcore
  have h3 := congrArg (·.end_) hcore
  have h4 := congrArg (·.allocatedBy) hcore
  exact ⟨h1, h2, h3, h4⟩

theorem sequences_self : t'.sequences (t'.seqOf b) = some s := by
  rw [hc.seqOf_eq, hc.sequences, update_self]

end

end Created

/-- The sequence lies over whole pages that are free and that nobody claims. -/
structure Creatable (env : Env) (t : Table) (s : MappingSequence) : Prop where
  begin_pos : 0 < s.begin
  lt : s.begin < s.end_
  aligned : PageAligned s.begin ∧ PageAligned s.end_
  free : t.FreeRange s.begin s.end_
  small : s.end_ - s.begin ≤ env.biggestSaneUserAlloc
  unclaimed : Unclaimed env t s.begin ∧ Unclaimed env t (s.end_ - 1)

section

variable (hc : t.Creatable env s)

include hc

theorem Creatable.validRequest : t.ValidRequest s.request 0 := by
  have hend : (NewRequest.record s.request).end_ = s.end_ := request_end hc.lt
  refine ⟨hc.begin_pos, .inl rfl, ⟨?_, fun hne => absurd rfl hne, fun n hn hup => ?_, fun _ => ?_⟩⟩
  · rw [hend]
    exact hc.lt
  · have hap := hc.free n ⟨hn, hup⟩
    rw [← hend] at hap
    exact hap
  · rw [hend]
    exact hc.aligned

theorem Creatable.newBigalloc_eq (h : t.WellFormed)
    (hroom : t.HasFree (k + 1)) :
    ∃ b t1 first last, ¬ t.InUse b ∧ t.Added b (NewRequest.record s.request) 0 t1
      ∧ t.newBigalloc env s.request = some (b, t1.setPages first last b)
      ∧ (t1.setPages first last b).WellFormed := by
  have hend := request_end hc.lt
  have hparent := hc.validRequest.newBigallocParent_quiet h hc.unclaimed.1.quietAt
    (by rw [hend]; exact hc.unclaimed.2.quietAt)
  obtain ⟨b, hb⟩ := hroom.findFreeBigalloc
  obtain ⟨t1, hadd, hnew⟩ := hc.validRequest.newBigalloc_eq h hparent hc.small hb
  obtain ⟨hunused, hwf, -⟩ := hc.validRequest.newBigalloc_added h hparent hnew
  exact ⟨b, t1, _, _, hunused, hadd, hnew, hwf⟩

end

/-- The record that `__liballocs_new_bigalloc` makes, with a sequence from before or after. -/
theorem Added.created {t0 t1 t2 : Table} (hadd : t0.Added b (NewRequest.record s.request) 0 t1)
    (hlt : s.begin < s.end_) (hb : ¬ t.InUse b) (h0 : t0.bigAllocations = t.bigAllocations)
    (hwf : t2.WellFormed) (h2 : t2.bigAllocations = t1.bigAllocations)
    (hseq : t2.sequences = update t.sequences t.nextPrivate (some s))
    (hheap : t2.nextPrivate = t.nextPrivate + 1) (hstatics : t.SameStaticsButHeap t2) :
    t.Created s b (t2.setAllocatorPrivate b t.nextPrivate (some .privateNommapFree)) := by
  have hother : ∀ n, n ≠ b → (t2.setAllocatorPrivate b t.nextPrivate
      (some .privateNommapFree)) n = t2 n :=
    fun n hn => if_neg hn
  have hself : (t2.setAllocatorPrivate b t.nextPrivate (some .privateNommapFree)) b = { t2 b with
        allocatorPrivate := t.nextPrivate, allocatorPrivateFree := some .privateNommapFree } :=
    if_pos rfl
  refine ⟨hwf.of_shape (fun n => ?_) ?_ rfl rfl, hb, fun n hn => ?_, ?_, ?_, hseq, hheap, ?_⟩
  · by_cases hn : n = b
    · rw [hn, hself]
      rfl
    · rw [hother n hn]
  · exact hother 0 hadd.inUse.ne_zero.symm
  · rw [hother n hn, h2, ← h0]
    exact hadd.keep n hn
  · rw [hself, h2]
    change { (t1 b).core with
      allocatorPrivate := t.nextPrivate, allocatorPrivateFree := some .privateNommapFree } = _
    rw [hadd.new]
    change { s.record t.nextPrivate with end_ := s.request.ptr + s.request.size } = _
    rw [request_end hlt]
    rfl
  · unfold InUse
    rw [hself, h2]
    exact hadd.inUse
  · unfold SameStaticsButHeap at hstatics ⊢
    rw [hstatics]
    rfl

end Table

end Liballocs
