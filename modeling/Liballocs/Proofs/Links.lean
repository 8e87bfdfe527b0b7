/-
The links between records.

`Links t d`: the links of the records in use describe one finite forest, with child lists that are
doubly linked and the top-level records in address order if their list has been entered.  The record
`d` may be left out of the top-level list, as in the middle of an operation.  Each primitive gets its
effect on the records and a rule that carries `Links` over it.
-/
import Liballocs.Lib.Forest
import Liballocs.Proofs.Pages

namespace Liballocs

open Dll Forest

/-- A record without its child and sibling links. -/
def BigAllocation.core (r : BigAllocation) : BigAllocation :=
  { r with firstChild := 0, nextSib := 0, prevSib := 0 }

/-- The bounds and links of a record. -/
def BigAllocation.shape (r : BigAllocation) : BigAllocation where
  begin := r.begin
  end_ := r.end_
  firstChild := r.firstChild
  nextSib := r.nextSib
  parent := r.parent
  prevSib := r.prevSib

namespace Table

/-- The parent of a record. -/
def up (t : Table) (n : Nat) : Nat := (t.bigAllocations n).parent

/-- The first child of a record. -/
def first (t : Table) (n : Nat) : Nat := (t.bigAllocations n).firstChild

/-- The next sibling of a record. -/
def next (t : Table) (n : Nat) : Nat := (t.bigAllocations n).nextSib

/-- The previous sibling of a record. -/
def prev (t : Table) (n : Nat) : Nat := (t.bigAllocations n).prevSib

@[simp] theorem modify_bigAllocations (t : Table) (n m : Nat) (f : BigAllocation → BigAllocation) :
    (t.modify n f) m = if m = n then f (t m) else t m := rfl

/-! ### The invariant -/

/-- The children of a record are a list that is linked both ways, without repetitions. -/
structure ChildList (t : Table) (p : Nat) (l : List Nat) : Prop where
  linked : Linked t.next t.prev 0 0 (t.first p) l
  nodup : l.Nodup
  mem_iff : ∀ c, c ∈ l ↔ t.InUse c ∧ t.up c = p

/-- `l` is the list of top-level records but `d`, in address order. -/
structure TopList (t : Table) (d : Nat) (l : List Nat) : Prop where
  linked : ∃ h, Linked t.next t.prev 0 0 h l
  nodup : l.Nodup
  mem_iff : ∀ n, n ∈ l ↔ t.InUse n ∧ t.up n = 0 ∧ n ≠ d
  sorted : l.Pairwise fun a b =>
    (t.bigAllocations a).begin < (t.bigAllocations b).begin
      ∧ (t.bigAllocations a).end_ ≤ (t.bigAllocations b).end_

/-- The links of the top-level records.  Before `START` is set they are not linked. -/
def TopLinks (t : Table) (d : Nat) : Prop :=
  (t.start = 0 ∧ ∀ n, t.InUse n → t.up n = 0 → n ≠ d → t.next n = 0 ∧ t.prev n = 0)
    ∨ (t.start ≠ 0 ∧ ∃ l, t.TopList d l)

/-- `START`, once set, is one of the top-level records but `d`. -/
def Entered (t : Table) (d : Nat) : Prop :=
  t.start ≠ 0 → t.InUse t.start ∧ t.up t.start = 0 ∧ t.start ≠ d

/-- The records in use form one finite forest, from whose top-level list `d` may be missing. -/
structure Links (t : Table) (d : Nat) : Prop where
  null : t.bigAllocations 0 = {}
  free : ∀ n, ¬ t.InUse n → t.up n = 0
  detached : t.up d = 0
  up_inUse : ∀ n, t.InUse n → t.up n ≠ 0 → t.InUse (t.up n)
  rooted : ∀ n, t.InUse n → ∃ k, t.up^[k] n = 0
  kids : ∀ p, t.InUse p → ∃ l, t.ChildList p l
  tops : t.TopLinks d

theorem InUse.ne_zero {t : Table} {n : Nat} (h : t.InUse n) : n ≠ 0 := h.1.ne'

namespace Links

variable {t : Table} {d n c p : Nat}

section

variable (h : t.Links d)
include h

theorem up_zero : t.up 0 = 0 := by
  simp [up, h.null]

theorem inUse_of_up (hn : t.up n ≠ 0) : t.InUse n := by
  by_contra hc
  exact hn (h.free n hc)

theorem up_eq_inUse (hc : t.up c = p) (hp : p ≠ 0) : t.InUse c ∧ t.InUse p := by
  have hne : t.up c ≠ 0 := hc ▸ hp
  exact ⟨h.inUse_of_up hne, hc ▸ h.up_inUse c (h.inUse_of_up hne) hne⟩

theorem exists_depth (hn : t.InUse n) : ∃ e, HasDepth t.up 0 n e := by
  obtain ⟨k, hk⟩ := h.rooted n hn
  obtain ⟨e, -, he⟩ := exists_hasDepth hk
  exact ⟨e, he⟩

theorem inUse_iterate (hn : t.InUse n) {k : Nat} (hk : t.up^[k] n ≠ 0) : t.InUse (t.up^[k] n) := by
  induction k generalizing n with
  | zero => exact hn
  | succ k ih =>
    by_cases hup : t.up n = 0
    · exact absurd (by rw [Function.iterate_succ_apply, hup, iterate_null h.up_zero]) hk
    · exact ih (h.up_inUse n hn hup) hk

theorem inUse_of_below (hn : t.InUse n) (hb : Below t.up n p) (hp : p ≠ 0) : t.InUse p := by
  obtain ⟨k, rfl⟩ := hb
  exact h.inUse_iterate hn hp

theorem inUse_of_below_inUse (hb : Below t.up n p) (hp : t.InUse p) : t.InUse n := by
  rcases below_iff.mp hb with rfl | hb
  · exact hp
  · by_contra hn
    rw [h.free n hn] at hb
    exact hp.ne_zero (eq_null_of_below h.up_zero hb)

section

variable (hn : t.InUse n)

include hn

theorem not_below_up : ¬ Below t.up (t.up n) n := by
  obtain ⟨e, he⟩ := h.exists_depth hn
  exact he.not_below_up h.up_zero hn.ne_zero

theorem up_ne_self : t.up n ≠ n := by
  intro hc
  apply h.not_below_up hn
  rw [hc]
  exact Below.refl t.up n

theorem eq_of_sibling (hc : t.InUse c) (hup : t.up n = t.up c)
    (hb : Below t.up n c) : n = c := by
  obtain ⟨e, he⟩ := h.exists_depth hn
  exact Below.eq_of_sibling h.up_zero he hb hc.ne_zero hup

theorem depth_lt {e : Nat} (he : HasDepth t.up 0 n e) : e < nbigallocs := by
  have hle := he.le_card (s := Finset.Ico 1 nbigallocs) fun k hk => by
    obtain ⟨h1, h2, -⟩ := h.inUse_iterate hn (he.2 k hk)
    exact Finset.mem_Ico.mpr ⟨h1, h2⟩
  rw [Nat.card_Ico] at hle
  have : 0 < nbigallocs := by decide
  omega

end

end

end Links

variable {t t' : Table} {d n p : Nat} {l : List Nat}

theorem length_lt_nbigallocs (hnd : l.Nodup) (hl : ∀ n ∈ l, t.InUse n) : l.length < nbigallocs := by
  have hcard : l.toFinset.card ≤ (Finset.Ico 1 nbigallocs).card := by
    refine Finset.card_le_card fun n hn => ?_
    obtain ⟨h1, h2, -⟩ := hl n (List.mem_toFinset.mp hn)
    exact Finset.mem_Ico.mpr ⟨h1, h2⟩
  rw [List.toFinset_card_of_nodup hnd, Nat.card_Ico] at hcard
  have : 0 < nbigallocs := by decide
  omega

theorem ChildList.length_le (h : t.ChildList p l) :
    l.length ≤ nbigallocs :=
  (length_lt_nbigallocs h.nodup fun n hn => ((h.mem_iff n).mp hn).1).le

theorem ChildList.children_eq (h : t.ChildList p l) :
    t.children p = some l :=
  h.linked.walk_eq h.length_le

/-! ### What the links depend on -/

theorem bounds_congr (h : (t' n).core = (t n).core) :
    (t' n).begin = (t n).begin ∧ (t' n).end_ = (t n).end_ :=
  ⟨congrArg (·.begin) h, congrArg (·.end_) h⟩

theorem inUse_congr (h : (t' n).core = (t n).core) : t'.InUse n ↔ t.InUse n := by
  simp [InUse, bounds_congr h]

theorem up_congr (h : (t' n).core = (t n).core) : t'.up n = t.up n :=
  (congrArg (·.parent) h :)

/-- The links depend on the records' bounds and links and the head of the top-level list. -/
theorem Links.of_shape (h : t.Links d) (hb : ∀ n, (t' n).shape = (t n).shape)
    (h0 : t' 0 = t 0) (hs : t'.start = t.start) : t'.Links d := by
  have hfield : ∀ n, (t' n).begin = (t n).begin ∧ (t' n).end_ = (t n).end_
      ∧ t'.up n = t.up n ∧ t'.first n = t.first n ∧ t'.next n = t.next n ∧ t'.prev n = t.prev n := by
    intro n
    have := hb n
    simp only [BigAllocation.shape, BigAllocation.mk.injEq] at this
    simp [up, first, next, prev, this, and_self]
  have hin : t'.InUse = t.InUse := by
    funext n
    simp [InUse, (hfield n).1, (hfield n).2.1]
  have hup : t'.up = t.up := funext fun n => (hfield n).2.2.1
  have hfirst : t'.first = t.first := funext fun n => (hfield n).2.2.2.1
  have hnext : t'.next = t.next := funext fun n => (hfield n).2.2.2.2.1
  have hprev : t'.prev = t.prev := funext fun n => (hfield n).2.2.2.2.2
  refine ⟨by rw [h0]; exact h.null, by rw [hin, hup]; exact h.free, by rw [hup]; exact h.detached,
    by rw [hin, hup]; exact h.up_inUse, by rw [hin, hup]; exact h.rooted, fun p hp => ?_, ?_⟩
  · obtain ⟨l, hl⟩ := h.kids p (by rwa [← hin])
    exact ⟨l, by rw [hfirst, hnext, hprev]; exact hl.linked, hl.nodup,
      by rw [hin, hup]; exact hl.mem_iff⟩
  · rcases h.tops with ⟨h0, hz⟩ | ⟨h0, l, hl⟩
    · exact .inl ⟨hs.trans h0, by rw [hin, hup, hnext, hprev]; exact hz⟩
    · refine .inr ⟨hs ▸ h0, l, by rw [hnext, hprev]; exact hl.linked, hl.nodup,
        by rw [hin, hup]; exact hl.mem_iff, hl.sorted.imp fun {a b} hab => ?_⟩
      rw [(hfield a).1, (hfield a).2.1, (hfield b).1, (hfield b).2.1]
      exact hab

theorem Links.of_eq (h : t.Links d)
    (hb : t'.bigAllocations = t.bigAllocations) (hs : t'.start = t.start) : t'.Links d :=
  h.of_shape (fun n => by rw [hb]) (by rw [hb]) hs

end Table

end Liballocs
