/-
The arena of a malloc-like heap and the chunks in it.

A lookup for the allocator finds the arena from any of its addresses, or a bigalloc of the allocator
right under it.  Both depend only on the records on the way up from the arena (`Frame`).
-/
import Liballocs.GenericMallocIndex
import Liballocs.Proofs.Runs

namespace Liballocs

open Forest

/-- A chunk of the heap: what was requested, what the heap says is usable, and the site. -/
structure Chunk where
  ptr : Nat
  requested : Nat
  usable : Nat
  caller : Nat
deriving DecidableEq

/-- The chunk is over the threshold. -/
def Chunk.promoted (c : Chunk) : Prop := shouldPromoteToBigalloc c.usable = true

instance (c : Chunk) : Decidable c.promoted := inferInstanceAs (Decidable (_ = true))

/-- The chunks' usable bytes are apart. -/
def Chunk.Apart (c d : Chunk) : Prop := c.ptr + c.usable ≤ d.ptr ∨ d.ptr + d.usable ≤ c.ptr

theorem Chunk.Apart.symm {c d : Chunk} (h : c.Apart d) : d.Apart c := Or.symm h

namespace MallocIndex

open Table

variable {env : Env} {al : Allocator} {t t' : Table} {A n p x : Nat} {c : Chunk}

/-- `A` is the arena of the allocator: the first record on the way down that the allocator divides up,
and none down to it is the allocator's own.  It ends below the last 1024 bytes of the address space, as
all memory of a user process does. -/
structure IsArena (t : Table) (al : Allocator) (A : Nat) : Prop where
  inUse : t.InUse A
  suballocator : (t.bigAllocations A).suballocator = some al
  first : ∀ p, Below t.up A p → p ≠ A → p ≠ 0 → ¬ t.Matches al true p
  above : ∀ p, Below t.up A p → p ≠ 0 → ¬ t.Matches al false p
  end_le : (t.bigAllocations A).end_ ≤ 2 ^ 64 - mallocAlign * bitmapWordNbits

/-- The record is the bigalloc of a promoted chunk. -/
structure IsBigallocOf (t : Table) (al : Allocator) (A n : Nat) (c : Chunk) : Prop where
  inUse : t.InUse n
  up_eq : t.up n = A
  allocatedBy : (t.bigAllocations n).allocatedBy = some al
  begin_eq : (t.bigAllocations n).begin = c.ptr
  end_eq : (t.bigAllocations n).end_ = c.ptr + c.requested

/-- The chunk is an aligned part of the arena, with room for an insert, apart from others'. -/
structure Fits (t : Table) (al : Allocator) (A : Nat) (c : Chunk) : Prop where
  aligned : mallocAlign ∣ c.ptr
  begin_le : (t.bigAllocations A).begin ≤ c.ptr
  le_end : c.ptr + c.usable ≤ (t.bigAllocations A).end_
  size : c.requested + sizeofInsert ≤ c.usable
  clear : ∀ n, t.InUse n → t.up n = A → (t.bigAllocations n).allocatedBy ≠ some al →
    (t.bigAllocations n).end_ ≤ c.ptr ∨ c.ptr + c.usable ≤ (t.bigAllocations n).begin

/-! ### Lookups in the arena -/

theorem IsArena.find_suballocator (hA : IsArena t al A) (h : t.WellFormed) (hx : x ∈ t.addrs A) :
    t.findBigallocFromTop env x al true = some (A, t) :=
  h.findBigallocFromTop_first hA.inUse hx hA.first hA.suballocator

theorem IsArena.find_own (env : Env) (hA : IsArena t al A) (h : t.WellFormed) (hn : t.InUse n)
    (hup : t.up n = A) (hal : (t n).allocatedBy = some al) (hx : x ∈ t.addrs n) :
    t.findBigallocFromTop env x al false = some (n, t) := by
  refine h.findBigallocFromTop_first hn hx ?_ hal
  intro p hp hpn hp0
  exact hA.above p (hup ▸ (below_iff.mp hp).resolve_left (Ne.symm hpn)) hp0

theorem IsArena.find_none (env : Env) (hA : IsArena t al A) (h : t.WellFormed) (hx : x ∈ t.addrs A)
    (hno : ∀ n, t.InUse n → t.up n = A → x ∉ t.addrs n) :
    t.findBigallocFromTop env x al false = some (0, t) := by
  obtain ⟨fuel, heq⟩ := h.findBigallocFromTop_under al false hA.inUse hx
    (fun p hp hpA hp0 => hA.above p hp hp0) env
  have hA' : (t A).allocatedBy ≠ some al := hA.above A (Below.refl t.up A) hA.inUse.ne_zero
  obtain ⟨l, hl⟩ := h.links.kids A hA.inUse
  have hnone : l.find? (t.contains x) = none := by
    rcases find_child_cases (a := x) hl with ⟨c, -, hc, hup, hxc⟩ | ⟨hf, -⟩
    · exact absurd hxc (hno c hc hup)
    · exact hf
  have hfind : t.findBigallocRecursive x al false (fuel + 1) A = some 0 := by
    simp [findBigallocRecursive, hA', hl.children_eq, hnone]
  rw [heq, hfind]
  rfl

/-! ### Changes of the table -/

/-- Outside `s` the records stay, and what of `s` is in use afterwards is the allocator's. -/
structure Frame (al : Allocator) (t : Table) (s : Set Nat) (t' : Table) : Prop where
  keep : ∀ n, n ∉ s → (t'.bigAllocations n).core = (t.bigAllocations n).core
  closed : ∀ n, n ∉ s → t.up n ∉ s
  own : ∀ n ∈ s, t'.InUse n → (t'.bigAllocations n).allocatedBy = some al

namespace Frame

variable {s : Set Nat}

section

variable (h : Frame al t s t') (hn : n ∉ s)
include h hn

theorem begin_eq : (t' n).begin = (t n).begin := (congrArg (·.begin) (h.keep n hn) :)

theorem end_eq : (t' n).end_ = (t n).end_ := (congrArg (·.end_) (h.keep n hn) :)

theorem allocatedBy_eq : (t' n).allocatedBy = (t n).allocatedBy :=
  (congrArg (·.allocatedBy) (h.keep n hn) :)

theorem suballocator_eq : (t' n).suballocator = (t n).suballocator :=
  (congrArg (·.suballocator) (h.keep n hn) :)

theorem below_iff : Below t'.up n p ↔ Below t.up n p :=
  below_congr (P := (· ∉ s)) (fun x hx => ⟨up_congr (h.keep x hx), h.closed x hx⟩) hn

theorem not_mem_of_below (hb : Below t.up n p) : p ∉ s := by
  obtain ⟨k, rfl⟩ := hb
  induction k with
  | zero => exact hn
  | succ k ih =>
    rw [Function.iterate_succ_apply']
    exact h.closed _ ih

end

theorem isArena (h : Frame al t s t') (hs : A ∉ s) (hA : IsArena t al A) : IsArena t' al A := by
  have hm : ∀ p b, p ∉ s → (t'.Matches al b p ↔ t.Matches al b p) := by
    intro p b hp
    simp [Matches, h.allocatedBy_eq hp, h.suballocator_eq hp]
  refine ⟨(inUse_congr (h.keep A hs)).mpr hA.inUse,
    (h.suballocator_eq hs).trans hA.suballocator, fun p hp => ?_, fun p hp => ?_,
    (h.end_eq hs).le.trans hA.end_le⟩
  · have hp := (h.below_iff hs).mp hp
    rw [hm p true (h.not_mem_of_below hs hp)]
    exact hA.first p hp
  · have hp := (h.below_iff hs).mp hp
    rw [hm p false (h.not_mem_of_below hs hp)]
    exact hA.above p hp

theorem fits (h : Frame al t s t') (hs : A ∉ s) (hf : Fits t al A c) : Fits t' al A c := by
  refine ⟨hf.aligned, by rw [h.begin_eq hs]; exact hf.begin_le,
    by rw [h.end_eq hs]; exact hf.le_end, hf.size, fun n hn hup hal => ?_⟩
  by_cases hns : n ∈ s
  · exact absurd (h.own n hns hn) hal
  · rw [h.begin_eq hns, h.end_eq hns]
    exact hf.clear n ((inUse_congr (h.keep n hns)).mp hn) ((up_congr (h.keep n hns)).symm.trans hup)
      (h.allocatedBy_eq hns ▸ hal)

theorem isBigallocOf_iff (h : Frame al t s t') (hns : n ∉ s) :
    IsBigallocOf t' al A n c ↔ IsBigallocOf t al A n c := by
  have e1 := inUse_congr (h.keep n hns)
  have e2 := up_congr (h.keep n hns)
  have e3 := h.allocatedBy_eq hns
  have e4 := h.begin_eq hns
  have e5 := h.end_eq hns
  exact ⟨fun hb => ⟨e1.mp hb.inUse, e2 ▸ hb.up_eq, e3 ▸ hb.allocatedBy, e4 ▸ hb.begin_eq,
      e5 ▸ hb.end_eq⟩,
    fun hb => ⟨e1.mpr hb.inUse, e2.trans hb.up_eq, e3.trans hb.allocatedBy, e4.trans hb.begin_eq,
      e5.trans hb.end_eq⟩⟩

end Frame

end MallocIndex

end Liballocs
