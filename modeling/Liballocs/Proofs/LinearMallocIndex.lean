/-
Which histories of the run-time linker's heap its index follows.

`Indexed` says that the records are sorted and are those of the live chunks, which is enough for
finding.  The conditions on an event under which it is kept are exact; the one on the addresses makes
the comparator an order.
-/
import Mathlib.Algebra.Order.Ring.Int
import Mathlib.Data.List.Pairwise
import Liballocs.Lib.Bsearch
import Liballocs.Lib.Qsort
import Liballocs.LinearMallocIndex

namespace Liballocs

/-- What a record says of a chunk: its address and its size. -/
def LinearMallocRec.chunk (r : LinearMallocRec) : Nat × Nat := (r.addr, r.callerRequestedSize)

namespace LinearMalloc

variable {env : LinearMallocEnv} {recs recs' : List LinearMallocRec} {live : List (Nat × Nat)}
  {a s i t : Nat} {c d : Nat × Nat} {r : LinearMallocRec} {e : HeapEvent} {es : List HeapEvent}

/-! ### The heap -/

/-- The chunk has the address. -/
def Contains (c : Nat × Nat) (addr : Nat) : Prop := c.1 ≤ addr ∧ addr < c.1 + c.2

/-- Two chunks of a heap do not overlap, nor do they begin at one address. -/
def Apart (c d : Nat × Nat) : Prop := c.1 ≠ d.1 ∧ (c.1 + c.2 ≤ d.1 ∨ d.1 + d.2 ≤ c.1)

/-- A chunk is not null, and there is room for its trailer. -/
def Fits (c : Nat × Nat) : Prop := 0 < c.1 ∧ c.1 + c.2 + 16 ≤ 2 ^ 64

/-- The live chunks after an event. -/
def liveAfter (live : List (Nat × Nat)) : HeapEvent → List (Nat × Nat)
  | .malloc addr size => (addr, size) :: live
  | .free addr => live.filter fun c => c.1 != addr
  | .realloc userptr size newAllocptr =>
    if newAllocptr = 0 then live
    else (newAllocptr, size) :: live.filter fun c => c.1 != userptr

/-- What a heap does: it hands out chunks apart from the live ones, and gets live ones. -/
def ValidEvent (live : List (Nat × Nat)) : HeapEvent → Prop
  | .malloc addr size => Fits (addr, size) ∧ ∀ c ∈ live, Apart (addr, size) c
  | .free addr => addr ∈ live.map Prod.fst
  | .realloc userptr size newAllocptr =>
    userptr ∈ live.map Prod.fst ∧ 0 < size
    ∧ (newAllocptr ≠ 0 → Fits (newAllocptr, size)
      ∧ ∀ c ∈ live, c.1 ≠ userptr → Apart (newAllocptr, size) c)

/-- Each event is one that can happen with the chunks that are live then. -/
def Valid : List (Nat × Nat) → List HeapEvent → Prop
  | _, [] => True
  | live, e :: es => ValidEvent live e ∧ Valid (liveAfter live e) es

/-- All live chunks are within 2 GiB of each other. -/
def Near (live : List (Nat × Nat)) : Prop := ∀ c ∈ live, ∀ d ∈ live, c.1 < d.1 + 2 ^ 31

/-- The live chunks are near each other at every point. -/
def AlwaysNear : List (Nat × Nat) → List HeapEvent → Prop
  | live, [] => Near live
  | live, e :: es => Near live ∧ AlwaysNear (liveAfter live e) es

instance : Decidable (Apart c d) := inferInstanceAs (Decidable (_ ∧ _))

instance : Decidable (Fits c) := inferInstanceAs (Decidable (_ ∧ _))

instance (live : List (Nat × Nat)) : (e : HeapEvent) → Decidable (ValidEvent live e)
  | .malloc _ _ => inferInstanceAs (Decidable (_ ∧ _))
  | .free _ => inferInstanceAs (Decidable (_ ∈ _))
  | .realloc _ _ _ => inferInstanceAs (Decidable (_ ∧ _ ∧ (_ → _)))

instance decidableValid :
    (live : List (Nat × Nat)) → (es : List HeapEvent) → Decidable (Valid live es)
  | _, [] => inferInstanceAs (Decidable True)
  | live, e :: es => @instDecidableAnd _ _ _ (decidableValid (liveAfter live e) es)

instance : Decidable (Near live) := inferInstanceAs (Decidable (∀ c ∈ live, ∀ d ∈ live, _))

instance decidableAlwaysNear :
    (live : List (Nat × Nat)) → (es : List HeapEvent) → Decidable (AlwaysNear live es)
  | live, [] => inferInstanceAs (Decidable (Near live))
  | live, e :: es => @instDecidableAnd _ _ _ (decidableAlwaysNear (liveAfter live e) es)

/-- What a heap promises: its chunks fit the address space and are apart. -/
structure Heap (live : List (Nat × Nat)) : Prop where
  fits : ∀ c ∈ live, Fits c
  apart : live.Pairwise Apart

instance : Std.Symm Apart := ⟨fun _ _ h => ⟨h.1.symm, h.2.symm⟩⟩

theorem Heap.apart_of_ne (h : Heap live) (hc : c ∈ live) (hd : d ∈ live) (hne : c ≠ d) :
    Apart c d := h.apart.forall hc hd hne

theorem Heap.eq_of_addr (h : Heap live) (hc : c ∈ live) (hd : d ∈ live) (heq : c.1 = d.1) :
    c = d := by
  by_contra hne
  exact (h.apart_of_ne hc hd hne).1 heq

theorem Heap.filter (h : Heap live) (p : Nat × Nat → Bool) : Heap (live.filter p) :=
  ⟨fun c hc => h.fits c (List.mem_of_mem_filter hc), h.apart.filter p⟩

theorem Heap.step (h : Heap live) (he : ValidEvent live e) : Heap (liveAfter live e) := by
  cases e with
  | malloc addr size =>
    exact ⟨List.forall_mem_cons.mpr ⟨he.1, h.fits⟩, List.pairwise_cons.mpr ⟨he.2, h.apart⟩⟩
  | free addr => exact h.filter _
  | realloc userptr size newAllocptr =>
    obtain ⟨-, -, hnew⟩ := he
    rw [liveAfter]
    by_cases hne : newAllocptr = 0
    · rw [if_pos hne]
      exact h
    · obtain ⟨hfits, hapart⟩ := hnew hne
      have hrest := h.filter fun c => c.1 != userptr
      rw [if_neg hne]
      refine ⟨List.forall_mem_cons.mpr ⟨hfits, hrest.fits⟩,
        List.pairwise_cons.mpr ⟨fun c hc => ?_, hrest.apart⟩⟩
      obtain ⟨hc, hcne⟩ := List.mem_filter.mp hc
      exact hapart c hc (by simpa using hcne)

/-! ### The records -/

/-- The records are sorted and are those of the live chunks. -/
structure Indexed (recs : List LinearMallocRec) (live : List (Nat × Nat)) : Prop where
  sorted : recs.Pairwise fun r s => r.addr < s.addr
  perm : (recs.map LinearMallocRec.chunk).Perm live

namespace Indexed

section

variable (h : Indexed recs live)
include h

theorem mem (hr : r ∈ recs) : r.chunk ∈ live := h.perm.mem_iff.mp (List.mem_map_of_mem hr)

theorem exists_rec (hc : c ∈ live) : ∃ r ∈ recs, r.chunk = c :=
  List.mem_map.mp (h.perm.mem_iff.mpr hc)

theorem addr_ne_zero (hh : Heap live) (hr : r ∈ recs) : r.addr ≠ 0 := (hh.fits _ (h.mem hr)).1.ne'

theorem addr_lt (hh : Heap live) (hr : r ∈ recs) : r.addr < 2 ^ 64 := by
  have := (hh.fits _ (h.mem hr)).2
  simp only [LinearMallocRec.chunk] at this
  omega

theorem addr_nodup : (recs.map (·.addr)).Nodup := List.pairwise_map.mpr (h.sorted.imp fun h => h.ne)

theorem length_eq : recs.length = live.length := by
  rw [← h.perm.length_eq, List.length_map]

end

end Indexed

theorem addrAt_eq (hr : recs[i]? = some r) : addrAt recs i = r.addr := by
  unfold addrAt
  rw [hr]
  rfl

theorem Indexed.find_eq_some_iff (h : Indexed recs live) (hh : Heap live)
    (hf : Bsearch.Finds env.bsearchLeq) (addr : Nat) :
    findLinearMallocRec env recs addr = some i
      ↔ ∃ r, recs[i]? = some r ∧ Contains r.chunk addr := by
  have hlt : ∀ {j k : Nat} {r s : LinearMallocRec}, j < k → recs[j]? = some r →
      recs[k]? = some s → r.addr < s.addr := by
    intro j k r s hjk hr hs
    obtain ⟨hj, rfl⟩ := List.getElem?_eq_some_iff.mp hr
    obtain ⟨hk, rfl⟩ := List.getElem?_eq_some_iff.mp hs
    exact List.pairwise_iff_getElem.mp h.sorted j k hj hk hjk
  have hget : ∀ {j : Nat}, j < recs.length → ∃ r, recs[j]? = some r := fun hj =>
    ⟨_, List.getElem?_eq_getElem hj⟩
  have hsorted : Bsearch.Sorted (addrAt recs) recs.length := by
    intro j k hjk hk
    rcases Nat.lt_or_eq_of_le hjk with hjk | rfl
    · obtain ⟨r, hr⟩ := hget (hjk.trans hk)
      obtain ⟨s, hs⟩ := hget hk
      rw [addrAt_eq hr, addrAt_eq hs]
      exact (hlt hjk hr hs).le
    · exact le_rfl
  have hend : ∀ {r}, r ∈ recs → (r.addr + r.callerRequestedSize) % 2 ^ 64
      = r.addr + r.callerRequestedSize := by
    intro r hr
    have := (hh.fits _ (h.mem hr)).2
    simp only [LinearMallocRec.chunk] at this
    exact Nat.mod_eq_of_lt (by omega)
  unfold findLinearMallocRec
  simp only [Option.bind_eq_bind, Option.bind_eq_some_iff]
  constructor
  · rintro ⟨j, hj, r, hr, hspan⟩
    split at hspan
    next hin =>
      obtain rfl := Option.some_inj.mp hspan
      have hle := ((hf _ _ _ hsorted j).mp hj).le
      rw [addrAt_eq hr] at hle
      rw [hend (List.mem_of_getElem? hr)] at hin
      exact ⟨r, hr, hle, hin⟩
    next => exact nomatch hspan
  · rintro ⟨r, hr, hle, hin⟩
    have hmem := List.mem_of_getElem? hr
    refine ⟨i, (hf _ _ _ hsorted i).mpr ⟨(List.getElem?_eq_some_iff.mp hr).1, ?_, ?_⟩, r, hr, ?_⟩
    · rw [addrAt_eq hr]
      exact hle
    · -- A later chunk begins where this one has ended.
      intro j hij hj
      obtain ⟨s, hs⟩ := hget hj
      rw [addrAt_eq hs]
      have hrs := hlt hij hr hs
      have hne : r.chunk ≠ s.chunk := fun hc => hrs.ne (congrArg Prod.fst hc)
      have := (hh.apart_of_ne (h.mem hmem) (h.mem (List.mem_of_getElem? hs)) hne).2
      simp only [LinearMallocRec.chunk] at this hin hle
      omega
    · rw [hend hmem]
      exact if_pos hin

/-! ### The comparator -/

/-- Addresses in order, with null at the end. -/
def sortKey (r : LinearMallocRec) : Nat := if r.addr = 0 then 2 ^ 64 else r.addr

/-- Addresses that are not null are words within 2 GiB of each other. -/
def NearRecs (recs : List LinearMallocRec) : Prop :=
  ∀ r ∈ recs, r.addr < 2 ^ 64 ∧ ∀ s ∈ recs, r.addr ≠ 0 → s.addr ≠ 0 → r.addr < s.addr + 2 ^ 31

theorem compareLinearMallocs_near {r1 r2 : LinearMallocRec} (h : NearRecs recs) (h1 : r1 ∈ recs)
    (h2 : r2 ∈ recs) :
    (compareLinearMallocs r1 r2 < 0 ↔ sortKey r1 < sortKey r2)
      ∧ (0 < compareLinearMallocs r1 r2 ↔ sortKey r2 < sortKey r1) := by
  obtain ⟨hw1, hn1⟩ := h r1 h1
  obtain ⟨hw2, hn2⟩ := h r2 h2
  unfold compareLinearMallocs sortKey
  by_cases h01 : r1.addr = 0 <;> by_cases h02 : r2.addr = 0
  · simp [h01, h02]
  · simp only [h01, h02, and_false, if_false, if_true]
    omega
  · simp only [h01, h02, false_and, if_false, if_true]
    omega
  · have h12 := hn1 r2 h2 h01 h02
    have h21 := hn2 r1 h1 h02 h01
    have hdiff : ((r1.addr : Int) - r2.addr).bmod (2 ^ 32) = (r1.addr : Int) - r2.addr :=
      Int.bmod_eq_of_le (by omega) (by omega)
    simp only [h01, h02, and_false, if_false, hdiff]
    omega

theorem qsort_near (hq : Qsort.Sorts env.qsort) (h : NearRecs recs) :
    (env.qsort compareLinearMallocs recs).Perm recs
      ∧ (env.qsort compareLinearMallocs recs).Pairwise fun r s => sortKey r ≤ sortKey s :=
  hq.of_key sortKey (fun _ h1 _ h2 => (compareLinearMallocs_near h h1 h2).1)
    fun _ h1 _ h2 => (compareLinearMallocs_near h h1 h2).2

theorem qsort_null_last {q : LinearMallocRec} {rest : List LinearMallocRec}
    (hq : Qsort.Sorts env.qsort) (hnear : NearRecs recs) (hperm : recs.Perm (q :: rest))
    (hq0 : q.addr = 0) (hrest : ∀ r ∈ rest, r.addr ≠ 0) :
    ∃ l, env.qsort compareLinearMallocs recs = l ++ [q] ∧ l.Perm rest
      ∧ l.Pairwise fun r s => sortKey r ≤ sortKey s := by
  obtain ⟨hsame, hsorted⟩ := qsort_near hq hnear
  have hall := hsame.trans hperm
  obtain ⟨l1, l2, hl⟩ := List.append_of_mem (hall.mem_iff.mpr (.head _))
  rw [hl] at hall hsorted
  have hothers : (l1 ++ l2).Perm rest := (List.perm_middle.symm.trans hall).cons_inv
  have hnil : l2 = [] := by
    refine List.eq_nil_iff_forall_not_mem.mpr fun r hr => ?_
    have hkey := (List.pairwise_cons.mp (List.pairwise_append.mp hsorted).2.1).1 r hr
    have hmem := hothers.mem_iff.mp (List.mem_append_right _ hr)
    have hlt := (hnear r (hperm.mem_iff.mpr (.tail _ hmem))).1
    simp only [sortKey, hq0, if_true, if_neg (hrest r hmem)] at hkey
    exact absurd hlt hkey.not_gt
  subst hnil
  rw [List.append_nil] at hothers
  exact ⟨l1, hl, hothers, (List.pairwise_append.mp hsorted).1⟩

theorem sorted_of_sortKey {l : List LinearMallocRec} (hnz : ∀ r ∈ l, r.addr ≠ 0)
    (hnd : (l.map (·.addr)).Nodup) (hs : l.Pairwise fun r s => sortKey r ≤ sortKey s) :
    l.Pairwise fun r s => r.addr < s.addr := by
  have hne : l.Pairwise fun r s => r.addr ≠ s.addr := List.pairwise_map.mp hnd
  refine (hs.and hne).imp_of_mem fun {r s} hr hs' h => ?_
  obtain ⟨hle, hne⟩ := h
  unfold sortKey at hle
  rw [if_neg (hnz r hr), if_neg (hnz s hs')] at hle
  omega

/-! ### Insertion -/

/-- The record that an insertion makes. -/
def newRec (a s : Nat) : LinearMallocRec where
  addr := a
  callerRequestedSize := s % 2 ^ 32
  paddingToCallerUsableSize :=
    sub64 (sub64 (chunkSizeWithTrailer s) sizeofInsert) s % 2 ^ 8

theorem linearMallocIndexInsert_eq :
    linearMallocIndexInsert env recs a s =
      if a ≠ 0 ∧ recs.length < maxLinearMallocs then
        some (if outOfOrder (recs ++ [newRec a s]) then
          env.qsort compareLinearMallocs (recs ++ [newRec a s]) else recs ++ [newRec a s])
      else none := by
  unfold linearMallocIndexInsert
  by_cases ha : a = 0
  · simp [ha]
  · by_cases hlen : recs.length < maxLinearMallocs
    · simp only [ha, hlen, ne_eq, not_false_eq_true, and_self, if_true, if_false]
      rfl
    · simp [ha, hlen]

theorem sorted_concat (hs : recs.Pairwise fun r s => r.addr < s.addr)
    (hne : ∀ q ∈ recs, q.addr ≠ r.addr) (ho : outOfOrder (recs ++ [r]) = false) :
    (recs ++ [r]).Pairwise fun r s => r.addr < s.addr := by
  refine List.pairwise_append.mpr ⟨hs, List.pairwise_singleton _ _, fun q hq t ht => ?_⟩
  rw [List.mem_singleton.mp ht]
  obtain rfl | ⟨l, b, rfl⟩ := List.eq_nil_or_concat recs
  · cases hq
  · rw [List.concat_eq_append] at hs hne ho hq
    have hb : b.addr < r.addr := by
      have hlast : addrAt (l ++ [b] ++ [r]) ((l ++ [b] ++ [r]).length - 1) = r.addr :=
        addrAt_eq (by simp)
      have hprev : addrAt (l ++ [b] ++ [r]) ((l ++ [b] ++ [r]).length - 2) = b.addr :=
        addrAt_eq (by simp)
      have hbr := hne b (by simp)
      simp only [outOfOrder, hlast, hprev, Bool.and_eq_false_iff, decide_eq_false_iff_not] at ho
      simp only [List.length_append, List.length_singleton] at ho
      omega
    rcases List.mem_append.mp hq with hq | hq
    · exact ((List.pairwise_append.mp hs).2.2 q hq b (by simp)).trans hb
    · rw [List.mem_singleton.mp hq]
      exact hb

theorem Indexed.insert (h : Indexed recs live) (hq : Qsort.Sorts env.qsort) (hh : Heap live)
    (hfits : Fits (a, t)) (hnew : ∀ c ∈ live, c.1 ≠ a) (hn : Near ((a, t) :: live))
    (hroom : recs.length < maxLinearMallocs) :
    ∃ recs', linearMallocIndexInsert env recs a s = some recs'
      ∧ Indexed recs' ((a, s % 2 ^ 32) :: live) := by
  have hperm : ((recs ++ [newRec a s]).map LinearMallocRec.chunk).Perm
      ((a, s % 2 ^ 32) :: live) := by
    rw [List.map_append]
    exact List.perm_append_comm.trans (h.perm.cons _)
  have hne : ∀ q ∈ recs, q.addr ≠ (newRec a s).addr := fun q hq => hnew _ (h.mem hq)
  have hnz : ∀ q ∈ recs ++ [newRec a s], q.addr ≠ 0 ∧ q.addr < 2 ^ 64 := by
    intro q hq
    rcases List.mem_append.mp hq with hq | hq
    · exact ⟨h.addr_ne_zero hh hq, h.addr_lt hh hq⟩
    · rw [List.mem_singleton.mp hq]
      exact ⟨hfits.1.ne', by have := hfits.2; simp only [newRec] at this ⊢; omega⟩
  rw [linearMallocIndexInsert_eq, if_pos ⟨hfits.1.ne', hroom⟩]
  cases ho : outOfOrder (recs ++ [newRec a s]) with
  | false => exact ⟨_, rfl, sorted_concat h.sorted hne ho, hperm⟩
  | true =>
    have hmem : ∀ q ∈ recs ++ [newRec a s], ∃ c ∈ (a, t) :: live, q.addr = c.1 := by
      intro q hq
      rcases List.mem_append.mp hq with hq | hq
      · exact ⟨_, .tail _ (h.mem hq), rfl⟩
      · rw [List.mem_singleton.mp hq]
        exact ⟨_, .head _, rfl⟩
    have hnear : NearRecs (recs ++ [newRec a s]) := by
      intro q hq
      refine ⟨(hnz q hq).2, fun p hp _ _ => ?_⟩
      obtain ⟨c, hc, hqc⟩ := hmem q hq
      obtain ⟨d, hd, hpd⟩ := hmem p hp
      rw [hqc, hpd]
      exact hn c hc d hd
    obtain ⟨hsperm, hsorted⟩ := qsort_near hq hnear
    have hnd : ((recs ++ [newRec a s]).map (·.addr)).Nodup := by
      rw [List.map_append]
      refine List.nodup_append.mpr ⟨h.addr_nodup, List.nodup_singleton _, fun x hx y hy => ?_⟩
      obtain ⟨q, hq, rfl⟩ := List.mem_map.mp hx
      rw [List.mem_singleton.mp hy]
      exact hne q hq
    refine ⟨_, rfl, sorted_of_sortKey (fun q hq => (hnz q (hsperm.mem_iff.mp hq)).1) ?_ hsorted,
      (hsperm.map _).trans hperm⟩
    exact ((hsperm.map _).nodup_iff).mpr hnd

theorem room_of_insert (h : linearMallocIndexInsert env recs a s = some recs') :
    a ≠ 0 ∧ recs.length < maxLinearMallocs := by
  rw [linearMallocIndexInsert_eq] at h
  split at h
  next hroom => exact hroom
  next => exact nomatch h

/-! ### Deletion -/

theorem reallocSize_eq (hs : s + 16 ≤ 2 ^ 64) :
    sub64 (chunkSizeWithTrailer s) sizeofInsert = (s + 7) / 8 * 8 := by
  have hi : sizeofInsert = 8 := rfl
  have hchunk : chunkSizeWithTrailer s = (s + 7) / 8 * 8 + 8 ∨
      (chunkSizeWithTrailer s = 0 ∧ (s + 7) / 8 * 8 + 8 = 2 ^ 64) := by
    unfold chunkSizeWithTrailer padToAlign
    rw [hi, Nat.mod_eq_of_lt (show s + 8 < 2 ^ 64 by omega)]
    split
    · omega
    · omega
  unfold sub64
  split
  · omega
  · omega

theorem Indexed.size_unique (h : Indexed recs ((a, s) :: live)) (h' : Indexed recs ((a, t) :: live))
    (hnew : ∀ c ∈ live, c.1 ≠ a) : s = t := by
  have hmem : (a, s) ∈ (a, t) :: live := h'.perm.mem_iff.mp (h.perm.mem_iff.mpr (.head _))
  rcases List.mem_cons.mp hmem with heq | hmem
  · exact congrArg Prod.snd heq
  · exact absurd rfl (hnew _ hmem)

section

variable (h : Indexed recs live) (hf : Bsearch.Finds env.bsearchLeq) (hh : Heap live)

include h hf hh

theorem Indexed.delete_empty (hc : (a, 0) ∈ live) : linearMallocIndexDelete env recs a = none := by
  have hnone : findLinearMallocRec env recs a = none := by
    rw [Option.eq_none_iff_forall_ne_some]
    intro i hi
    obtain ⟨r, hr, hle, hlt⟩ := (h.find_eq_some_iff hh hf a).mp hi
    have hmem := h.mem (List.mem_of_getElem? hr)
    by_cases heq : r.chunk = (a, 0)
    · rw [heq] at hlt
      exact hlt.false
    · have := (hh.apart_of_ne hmem hc heq)
      unfold Apart at this
      omega
  unfold linearMallocIndexDelete
  rw [hnone]
  rfl

variable (hq : Qsort.Sorts env.qsort)

include hq

theorem Indexed.delete (hn : Near live) (hc : (a, s) ∈ live) (hpos : 0 < s) :
    ∃ recs', linearMallocIndexDelete env recs a = some recs'
      ∧ Indexed recs' (live.filter fun c => c.1 != a) ∧ recs'.length + 1 = recs.length := by
  obtain ⟨r, hr, hrc⟩ := h.exists_rec hc
  obtain ⟨i, hi⟩ := List.mem_iff_getElem?.mp hr
  have hra : r.addr = a := congrArg Prod.fst hrc
  have hlt := (List.getElem?_eq_some_iff.mp hi).1
  have hfind : findLinearMallocRec env recs a = some i :=
    (h.find_eq_some_iff hh hf a).mpr ⟨r, hi, by rw [hrc]; exact ⟨le_rfl, Nat.lt_add_of_pos_right hpos⟩⟩
  have hget : r = recs[i] := (List.getElem?_eq_some_iff.mp hi).2.symm
  have hsplit : recs.Perm (r :: recs.eraseIdx i) := by
    rw [hget]
    exact (List.getElem_cons_eraseIdx_perm hlt).symm
  have hset : (recs.set i { r with addr := 0 }).Perm ({ r with addr := 0 } :: recs.eraseIdx i) :=
    List.set_perm_cons_eraseIdx hlt _
  have hother : ∀ q ∈ recs.eraseIdx i, q ∈ recs := fun q hq => List.mem_of_mem_eraseIdx hq
  have hne : ∀ q ∈ recs.eraseIdx i, q.addr ≠ a := by
    intro q hq
    have := (List.nodup_cons.mp ((hsplit.map (·.addr)).nodup_iff.mp h.addr_nodup)).1
    rw [← hra]
    exact fun hc => this (List.mem_map.mpr ⟨q, hq, hc⟩)
  have hnear : NearRecs (recs.set i { r with addr := 0 }) := by
    intro q hq
    rcases List.mem_cons.mp (hset.mem_iff.mp hq) with rfl | hq
    · exact ⟨Nat.two_pow_pos 64, fun _ _ h0 => absurd rfl h0⟩
    · refine ⟨h.addr_lt hh (hother q hq), fun t ht _ ht0 => ?_⟩
      rcases List.mem_cons.mp (hset.mem_iff.mp ht) with rfl | ht
      · exact absurd rfl ht0
      · exact hn _ (h.mem (hother q hq)) _ (h.mem (hother t ht))
  obtain ⟨l1, hl, hrest, hsorted⟩ := qsort_null_last hq hnear hset rfl fun q hq =>
    h.addr_ne_zero hh (hother q hq)
  refine ⟨l1, ?_, ⟨?_, ?_⟩, ?_⟩
  · unfold linearMallocIndexDelete
    simp only [hfind, hi, Option.bind_eq_bind, Option.bind_some, hl, List.dropLast_concat]
    rfl
  · refine sorted_of_sortKey (fun q hq => h.addr_ne_zero hh (hother q (hrest.mem_iff.mp hq))) ?_
      hsorted
    refine ((hrest.map _).nodup_iff).mpr ?_
    exact h.addr_nodup.sublist ((List.eraseIdx_sublist recs i).map _)
  · have hfilter : (r.chunk :: (recs.eraseIdx i).map LinearMallocRec.chunk).filter
        (fun c => c.1 != a) = (recs.eraseIdx i).map LinearMallocRec.chunk := by
      rw [List.filter_cons_of_neg (by simp [hrc])]
      refine List.filter_eq_self.mpr fun c hc => ?_
      obtain ⟨q, hq, rfl⟩ := List.mem_map.mp hc
      exact bne_iff_ne.mpr (hne q hq)
    have hlive := ((hsplit.map LinearMallocRec.chunk).symm.trans h.perm).filter fun c => c.1 != a
    rw [List.map_cons, hfilter] at hlive
    exact (hrest.map _).trans hlive
  · rw [hrest.length_eq, hsplit.length_eq, List.length_cons]

/-! ### Events -/

/-- What an event must be like for the index to follow it. -/
def FineEvent (live : List (Nat × Nat)) : HeapEvent → Prop
  -- the size has 32 bits, and there is a record left
  | .malloc _ size => size < 2 ^ 32 ∧ live.length < maxLinearMallocs
  -- the chunk is not an empty one
  | .free addr => (addr, 0) ∉ live
  -- nor is it here; the call succeeds, and the padded size is the requested one
  | .realloc userptr size newAllocptr =>
    (userptr, 0) ∉ live ∧ newAllocptr ≠ 0 ∧ size < 2 ^ 32 ∧ size % 8 = 0

/-- Each event is one that the index gets right. -/
def Fine : List (Nat × Nat) → List HeapEvent → Prop
  | _, [] => True
  | live, e :: es => FineEvent live e ∧ Fine (liveAfter live e) es

instance (live : List (Nat × Nat)) : (e : HeapEvent) → Decidable (FineEvent live e)
  | .malloc _ _ => inferInstanceAs (Decidable (_ ∧ _))
  | .free _ => inferInstanceAs (Decidable (_ ∉ _))
  | .realloc _ _ _ => inferInstanceAs (Decidable (_ ∧ _ ∧ _ ∧ _))

instance decidableFine :
    (live : List (Nat × Nat)) → (es : List HeapEvent) → Decidable (Fine live es)
  | _, [] => inferInstanceAs (Decidable True)
  | live, e :: es => @instDecidableAnd _ _ _ (decidableFine (liveAfter live e) es)

theorem Indexed.notify (hroom : recs.length ≤ maxLinearMallocs) (he : ValidEvent live e)
    (hn : Near live) (hn' : Near (liveAfter live e)) (hfine : FineEvent live e) :
    ∃ recs', notify env recs e = some recs' ∧ Indexed recs' (liveAfter live e)
      ∧ recs'.length ≤ maxLinearMallocs := by
  have hdelete : ∀ {p : Nat}, p ∈ live.map Prod.fst → (p, 0) ∉ live →
      ∃ recs', linearMallocIndexDelete env recs p = some recs'
        ∧ Indexed recs' (live.filter fun c => c.1 != p) ∧ recs'.length + 1 = recs.length := by
    intro p hp hp0
    obtain ⟨⟨_, old⟩, hc, rfl⟩ := List.mem_map.mp hp
    refine h.delete hf hh hq hn hc (Nat.pos_of_ne_zero ?_)
    rintro rfl
    exact hp0 hc
  cases e with
  | malloc addr size =>
    obtain ⟨hsize, hlen⟩ := hfine
    obtain ⟨recs', hins, hidx⟩ := h.insert hq hh he.1 (fun c hc => (he.2 c hc).1.symm) hn'
      (by rw [h.length_eq]; exact hlen)
    rw [Nat.mod_eq_of_lt hsize] at hidx
    exact ⟨recs', hins, hidx, by rw [hidx.length_eq]; exact hlen⟩
  | free addr =>
    obtain ⟨recs', hdel, hidx, hlen⟩ := hdelete he hfine
    exact ⟨recs', hdel, hidx, by omega⟩
  | realloc userptr size newAllocptr =>
    obtain ⟨hmem, -, hnew⟩ := he
    obtain ⟨hp0, hne, hsize, hpad⟩ := hfine
    obtain ⟨recs1, hdel, hidx1, hlen1⟩ := hdelete hmem hp0
    obtain ⟨hfits, hapart⟩ := hnew hne
    rw [liveAfter, if_neg hne] at hn' ⊢
    have hpadded : sub64 (chunkSizeWithTrailer size) sizeofInsert = size := by
      rw [reallocSize_eq (by have := hfits.2; simp only at this; omega)]
      omega
    obtain ⟨recs', hins, hidx⟩ := hidx1.insert (s := size) hq (hh.filter _) hfits (fun c hc => by
        obtain ⟨hc, hcne⟩ := List.mem_filter.mp hc
        exact (hapart c hc (by simpa using hcne)).1.symm) hn' (by omega)
    rw [Nat.mod_eq_of_lt hsize] at hidx
    refine ⟨recs', ?_, hidx, ?_⟩
    · simp only [LinearMalloc.notify, hdel, Option.bind_eq_bind, Option.bind_some, hpadded]
      exact hins
    · have := hidx.length_eq
      have := hidx1.length_eq
      simp only [List.length_cons] at *
      omega

theorem Indexed.fineEvent (he : ValidEvent live e) (hn : Near live)
    (hn' : Near (liveAfter live e)) (hnotify : LinearMalloc.notify env recs e = some recs')
    (hidx : Indexed recs' (liveAfter live e)) : FineEvent live e := by
  cases e with
  | malloc addr size =>
    obtain ⟨-, hroom⟩ := room_of_insert hnotify
    have hnew : ∀ c ∈ live, c.1 ≠ addr := fun c hc => (he.2 c hc).1.symm
    obtain ⟨recs'', hins, hidx'⟩ := h.insert hq hh he.1 hnew hn' hroom
    obtain rfl := Option.some_inj.mp (hins.symm.trans hnotify)
    have hsize := hidx'.size_unique hidx hnew
    rw [h.length_eq] at hroom
    exact ⟨by omega, hroom⟩
  | free addr =>
    intro hempty
    rw [LinearMalloc.notify, h.delete_empty hf hh hempty] at hnotify
    exact nomatch hnotify
  | realloc userptr size newAllocptr =>
    obtain ⟨hmem, -, hnew⟩ := he
    obtain ⟨⟨p, old⟩, hc, rfl⟩ := List.mem_map.mp hmem
    obtain ⟨recs1, hdel, hins⟩ := Option.bind_eq_some_iff.mp hnotify
    have hold : 0 < old := by
      refine Nat.pos_of_ne_zero ?_
      rintro rfl
      rw [h.delete_empty hf hh hc] at hdel
      exact nomatch hdel
    have hp0 : (p, 0) ∉ live := fun hempty =>
      hold.ne' (congrArg Prod.snd (hh.eq_of_addr hc hempty rfl))
    obtain ⟨hne, hroom⟩ := room_of_insert hins
    obtain ⟨hfits, hapart⟩ := hnew hne
    obtain ⟨recs2, hdel', hidx1, -⟩ := h.delete hf hh hq hn hc hold
    obtain rfl := Option.some_inj.mp (hdel'.symm.trans hdel)
    have hnew1 : ∀ c ∈ live.filter fun c => c.1 != p, c.1 ≠ newAllocptr := fun c hc => by
      obtain ⟨hc, hcne⟩ := List.mem_filter.mp hc
      exact (hapart c hc (by simpa using hcne)).1.symm
    rw [liveAfter, if_neg hne] at hn' hidx
    obtain ⟨recs'', hins', hidx'⟩ := hidx1.insert hq (hh.filter _) hfits hnew1 hn' hroom
    obtain rfl := Option.some_inj.mp (hins'.symm.trans hins)
    have hsize := hidx'.size_unique hidx hnew1
    rw [reallocSize_eq (by have := hfits.2; simp only at this; omega)] at hsize
    exact ⟨hp0, hne, by omega, by omega⟩

end

/-! ### Histories -/

/-- The records are sorted, are the live chunks with the sizes requested, are within the array, and
finding an address gives the record of its live chunk, or nothing. -/
structure Exact (env : LinearMallocEnv) (recs : List LinearMallocRec)
    (live : List (Nat × Nat)) : Prop where
  sorted : recs.Pairwise fun r s => r.addr < s.addr
  perm : (recs.map LinearMallocRec.chunk).Perm live
  room : recs.length ≤ maxLinearMallocs
  found : ∀ addr i, findLinearMallocRec env recs addr = some i →
    ∃ r, recs[i]? = some r ∧ r.chunk ∈ live ∧ Contains r.chunk addr
  none : ∀ addr, findLinearMallocRec env recs addr = none → ∀ c ∈ live, ¬ Contains c addr

theorem Indexed.exact (h : Indexed recs live) (hf : Bsearch.Finds env.bsearchLeq)
    (hh : Heap live) (hroom : recs.length ≤ maxLinearMallocs) : Exact env recs live := by
  refine ⟨h.sorted, h.perm, hroom, fun addr i hi => ?_, fun addr hnone c hc hca => ?_⟩
  · obtain ⟨r, hr, hin⟩ := (h.find_eq_some_iff hh hf addr).mp hi
    exact ⟨r, hr, h.mem (List.mem_of_getElem? hr), hin⟩
  · obtain ⟨r, hr, rfl⟩ := h.exists_rec hc
    obtain ⟨i, hi⟩ := List.mem_iff_getElem?.mp hr
    rw [(h.find_eq_some_iff hh hf addr).mpr ⟨r, hi, hca⟩] at hnone
    exact nomatch hnone

/-- Every event returns, and the index is exact before and after each. -/
def Tracks (env : LinearMallocEnv) :
    List LinearMallocRec → List (Nat × Nat) → List HeapEvent → Prop
  | recs, live, [] => Exact env recs live
  | recs, live, e :: es => Exact env recs live
      ∧ ∃ recs', notify env recs e = some recs' ∧ Tracks env recs' (liveAfter live e) es

theorem Tracks.exact (h : Tracks env recs live es) : Exact env recs live := by
  cases es with
  | nil => exact h
  | cons e es => exact h.1

theorem AlwaysNear.near (h : AlwaysNear live es) : Near live := by
  cases es with
  | nil => exact h
  | cons e es => exact h.1

theorem heap_nil : Heap [] := ⟨fun _ hc => absurd hc List.not_mem_nil, List.Pairwise.nil⟩

theorem indexed_nil : Indexed [] [] := ⟨List.Pairwise.nil, .refl _⟩

theorem Indexed.tracks_iff (hf : Bsearch.Finds env.bsearchLeq) (hq : Qsort.Sorts env.qsort)
    (h : Indexed recs live) (hh : Heap live) (hroom : recs.length ≤ maxLinearMallocs)
    (hv : Valid live es) (hn : AlwaysNear live es) : Tracks env recs live es ↔ Fine live es := by
  induction es generalizing recs live with
  | nil => exact ⟨fun _ => trivial, fun _ => h.exact hf hh hroom⟩
  | cons e es ih =>
    obtain ⟨he, hv⟩ := hv
    obtain ⟨hnow, hlater⟩ := hn
    constructor
    · rintro ⟨-, recs', hrecs', hrest⟩
      have hexact := hrest.exact
      have hidx : Indexed recs' (liveAfter live e) := ⟨hexact.sorted, hexact.perm⟩
      exact ⟨h.fineEvent hf hh hq he hnow hlater.near hrecs' hidx,
        (ih hidx (hh.step he) hexact.room hv hlater).mp hrest⟩
    · rintro ⟨hfine, hrest⟩
      obtain ⟨recs', hrecs', hidx, hroom'⟩ := h.notify hf hh hq hroom he hnow hlater.near hfine
      exact ⟨h.exact hf hh hroom, recs', hrecs', (ih hidx (hh.step he) hroom' hv hlater).mpr hrest⟩

/-- Over every history with the live chunks always within 2 GiB of each other, the index is exact
after each event if and only if every event is fine. -/
theorem tracks_iff_fine {es : List HeapEvent} (hf : Bsearch.Finds env.bsearchLeq)
    (hq : Qsort.Sorts env.qsort) (hv : Valid [] es) (hn : AlwaysNear [] es) :
    Tracks env [] [] es ↔ Fine [] es :=
  indexed_nil.tracks_iff hf hq heap_nil (Nat.zero_le _) hv hn

/-- The search and the sorting of the library, taken by their specifications. -/
def sampleEnv : LinearMallocEnv := ⟨Bsearch.lastLe, Qsort.sortBy⟩

theorem tracks_iff_fine_sample :
    Tracks sampleEnv [] []
      [.malloc 8192 24, .malloc 4096 100, .free 8192, .realloc 4096 40 12288] :=
  (tracks_iff_fine Bsearch.lastLe_finds Qsort.sortBy_sorts (by decide) (by decide)).mpr (by decide)

/-- An empty chunk cannot be freed, a reallocation to an odd size records another size, one that fails
does not return, and of two chunks farther apart the higher comes first. -/
theorem tracks_not :
    (Valid [] [.malloc 4096 0, .free 4096]
      ∧ ¬ Tracks sampleEnv [] [] [.malloc 4096 0, .free 4096])
    ∧ (Valid [] [.malloc 4096 24, .realloc 4096 30 4096]
      ∧ ¬ Tracks sampleEnv [] [] [.malloc 4096 24, .realloc 4096 30 4096])
    ∧ (Valid [] [.malloc 4096 24, .realloc 4096 (2 ^ 40) 0]
      ∧ ¬ Tracks sampleEnv [] [] [.malloc 4096 24, .realloc 4096 (2 ^ 40) 0])
    ∧ (Valid [] [.malloc (2 ^ 32) 24, .malloc 4096 24]
      ∧ ¬ Tracks sampleEnv [] [] [.malloc (2 ^ 32) 24, .malloc 4096 24]) := by
  have hnear : ∀ es : List HeapEvent, Valid [] es → AlwaysNear [] es ∧ ¬ Fine [] es →
      Valid [] es ∧ ¬ Tracks sampleEnv [] [] es := fun es hv h => ⟨hv, fun htracks =>
    h.2 ((indexed_nil.tracks_iff Bsearch.lastLe_finds Qsort.sortBy_sorts heap_nil
      (Nat.zero_le _) hv h.1).mp htracks)⟩
  refine ⟨hnear _ (by decide) (by decide), hnear _ (by decide) (by decide),
    hnear _ (by decide) (by decide), by decide, ?_⟩
  rintro ⟨-, recs, hrecs, -, recs', hrecs', hexact⟩
  obtain rfl := Option.some_inj.mp (show some [newRec (2 ^ 32) 24] = _ from hrecs)
  obtain rfl := Option.some_inj.mp hrecs'
  exact absurd hexact.sorted (by decide)

end LinearMalloc

end Liballocs
