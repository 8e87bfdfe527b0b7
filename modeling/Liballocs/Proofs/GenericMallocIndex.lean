/-
What the bitmap of an arena and the bigallocs under it say about the live chunks.

The bigallocs are exactly the live chunks over the threshold.  The bitmap is not exact: deleting a
promoted chunk returns before its bit is cleared.  The bit stays until a chunk is inserted at the same
address and deleted as a small one.  `stale` follows this through a sequence of events.
-/
import Liballocs.Proofs.Arena

namespace Liballocs.MallocIndex

open Forest Function

open Table

variable {env : Env} {al : Allocator} {t t' : Table} {A n p k : Nat} {c d : Chunk}
  {info : ArenaBitmapInfo} {m : MallocIndex}

/-! ### Events -/

/-- What happens to the index: a chunk is inserted, or a live one is deleted. -/
inductive Event where
  | insert (c : Chunk)
  | delete (c : Chunk)

/-- The chunks that are live after the events, of which the latest comes first. -/
def live : List Event → Set Chunk
  | [] => ∅
  | .insert c :: es => insert c (live es)
  | .delete c :: es => live es \ {c}

/-- The addresses of deleted promoted chunks without an insertion since. -/
def stale : List Event → Set Nat
  | [] => ∅
  | .insert c :: es => stale es \ {c.ptr}
  | .delete c :: es => if c.promoted then insert c.ptr (stale es) else stale es

/-- Events in which each inserted chunk fits, apart from the live ones, and each deleted one is live.
-/
inductive Runs (env : Env) (al : Allocator) (A : Nat) (m₀ : MallocIndex) :
    List Event → MallocIndex → Prop
  | start : Runs env al A m₀ [] m₀
  | insert {m m' : MallocIndex} {es : List Event} {c : Chunk} {p : Nat}
      (h : Runs env al A m₀ es m) (hfits : Fits m.table al A c)
      (hapart : ∀ d ∈ live es, c.Apart d)
      (hrun : m.genericMallocIndexInsert env al c.ptr c.requested c.caller (fun _ => c.usable)
        = some (p, m')) : Runs env al A m₀ (.insert c :: es) m'
  | delete {m m' : MallocIndex} {es : List Event} {c : Chunk}
      (h : Runs env al A m₀ es m) (hc : c ∈ live es)
      (hrun : m.genericMallocIndexDelete env al c.ptr = some m') :
      Runs env al A m₀ (.delete c :: es) m'

/-! ### The invariant -/

/-- The table and the bitmap after the events. -/
structure Indexed (al : Allocator) (A : Nat) (m : MallocIndex) (es : List Event) : Prop where
  wellFormed : m.table.WellFormed
  arena : IsArena m.table al A
  base_le : m.info.bitmapBaseAddr ≤ (m.table.bigAllocations A).begin
  base_dvd : mallocAlign * bitmapWordNbits ∣ m.info.bitmapBaseAddr
  fits : ∀ c ∈ live es, Fits m.table al A c ∧ 0 < c.requested
  apart : (live es).Pairwise Chunk.Apart
  promoted : ∀ c ∈ live es, c.promoted → ∃ n, IsBigallocOf m.table al A n c
  only : ∀ n, m.table.InUse n → Below m.table.up n A → n ≠ A →
    (m.table.bigAllocations n).allocatedBy = some al →
    ∃ c ∈ live es, c.promoted ∧ IsBigallocOf m.table al A n c
  stale_ptr : ∀ p ∈ stale es, mallocAlign ∣ p ∧ m.info.bitmapBaseAddr ≤ p
    ∧ ∀ c ∈ live es, c.ptr ≠ p
  bits : ∀ i, m.info.bitmap i = true ↔
    (∃ c ∈ live es, c.ptr = m.info.bitmapBaseAddr + mallocAlign * i)
      ∨ m.info.bitmapBaseAddr + mallocAlign * i ∈ stale es
  covered : ∀ i, m.info.bitmap i = true → i < m.info.nwords * bitmapWordNbits

/-! ### The bitmap -/

namespace Bitmap

open ArenaBitmapInfo

variable {info info' : ArenaBitmapInfo} {i : Nat} {v : Bool}

theorem ensureHasBitmapTo_eq (hcov : ∀ i, info.bitmap i = true → i < info.nwords * bitmapWordNbits)
    (end_ : Nat) :
    (info.ensureHasBitmapTo end_).bitmap = info.bitmap
      ∧ (info.ensureHasBitmapTo end_).bitmapBaseAddr = info.bitmapBaseAddr
      ∧ info.nwords ≤ (info.ensureHasBitmapTo end_).nwords := by
  unfold ensureHasBitmapTo
  dsimp only
  split
  · rename_i hlt
    refine ⟨funext fun i => ?_, rfl, hlt.le⟩
    dsimp only
    split
    · rename_i hi
      cases hb : info.bitmap i with
      | false => rfl
      | true => exact absurd (hcov i hb) (by omega)
    · rfl
  · exact ⟨rfl, rfl, le_rfl⟩

theorem writeBit_eq_some (h : info.writeBit i v = some info') :
    info' = { info with bitmap := update info.bitmap i v } ∧ i < info.nwords * bitmapWordNbits := by
  unfold writeBit at h
  split at h
  · rename_i hi
    exact ⟨(Option.some.inj h).symm, hi⟩
  · cases h

section

variable (hb : mallocAlign * bitmapWordNbits ∣ info.bitmapBaseAddr) (hp : mallocAlign ∣ p)
  (hle : info.bitmapBaseAddr ≤ p)
include hb hp hle

theorem base_add_bitOf : info.bitmapBaseAddr + mallocAlign * info.bitOf p = p := by
  simp only [bitOf, mallocAlign, bitmapWordNbits] at *
  omega

theorem eq_bitOf_iff : p = info.bitmapBaseAddr + mallocAlign * i ↔ i = info.bitOf p := by
  have h := base_add_bitOf hb hp hle
  constructor
  · intro he
    simp only [mallocAlign] at *
    omega
  · rintro rfl
    exact h.symm

end

end Bitmap

@[simp] theorem ensureHasBitmapTo_base (end_ : Nat) :
    (info.ensureHasBitmapTo end_).bitmapBaseAddr = info.bitmapBaseAddr := by
  unfold ArenaBitmapInfo.ensureHasBitmapTo
  dsimp only
  split <;> rfl

@[simp] theorem ensureHasBitmapTo_biggest (end_ : Nat) :
    (info.ensureHasBitmapTo end_).biggestAllocatedObject = info.biggestAllocatedObject
      ∧ (info.ensureHasBitmapTo end_).biggestUnpromotedObject = info.biggestUnpromotedObject := by
  unfold ArenaBitmapInfo.ensureHasBitmapTo
  dsimp only
  split <;> exact ⟨rfl, rfl⟩

/-- The rounding is the same before and after the pointer wraps around. -/
theorem ensureHasBitmapTo_mod (end_ : Nat) :
    info.ensureHasBitmapTo (end_ % 2 ^ 64) = info.ensureHasBitmapTo end_ := by
  have hround : roundUp (end_ % 2 ^ 64) (mallocAlign * bitmapWordNbits) % 2 ^ 64
      = roundUp end_ (mallocAlign * bitmapWordNbits) % 2 ^ 64 := by
    simp only [roundUp, mallocAlign, bitmapWordNbits]
    omega
  unfold ArenaBitmapInfo.ensureHasBitmapTo
  rw [hround]

/-- The last byte of a chunk that ends in the address space. -/
theorem lastByte_eq {ptr size : Nat} (hpos : 0 < ptr + size) (hle : ptr + size ≤ 2 ^ 64) :
    sub64 ((ptr + size) % 2 ^ 64) 1 = ptr + size - 1 := by
  unfold sub64
  split <;> omega

/-! ### Insertion -/

section

variable {m m' : MallocIndex} {es : List Event}

/-- Everything that an insertion that returned has done. -/
structure Insertion (env : Env) (al : Allocator) (m : MallocIndex) (ptr size caller : Nat)
    (sizefn : Nat → Nat) (p : Nat) (m' : MallocIndex) (arena : Nat) (t₁ t₂ : Table) : Prop where
  last : ∃ b, m.table.findBigallocFromTop env (sub64 ((ptr + size) % 2 ^ 64) 1) al true = some (b, t₁)
  first : t₁.findBigallocFromTop env ptr al true = some (arena, t₂)
  table : (if shouldPromoteToBigalloc (sizefn ptr) = true then promote env t₂ arena ptr size
    else some t₂) = some m'.table
  bitmap : m'.info.bitmap
    = Function.update (m.info.ensureHasBitmapTo (ptr + size)).bitmap (m.info.bitOf ptr) true
  bit_lt : m.info.bitOf ptr < m'.info.nwords * bitmapWordNbits
  nwords : m'.info.nwords = (m.info.ensureHasBitmapTo (ptr + size)).nwords
  base : m'.info.bitmapBaseAddr = m.info.bitmapBaseAddr
  allocated : m'.info.biggestAllocatedObject
    = max (callerUsableSizeForChunk ptr sizefn) m.info.biggestAllocatedObject
  unpromoted : m'.info.biggestUnpromotedObject
    = if shouldPromoteToBigalloc (sizefn ptr) = true then m.info.biggestUnpromotedObject
      else max (callerUsableSizeForChunk ptr sizefn) m.info.biggestUnpromotedObject
  insert : p = insertForChunk ptr sizefn
  inserts : m'.inserts = Function.update m.inserts p ((m.inserts p).setAllocSite caller)

theorem genericMallocIndexInsert_eq_some {ptr size caller : Nat} {sizefn : Nat → Nat}
    (hrun : m.genericMallocIndexInsert env al ptr size caller sizefn = some (p, m')) :
    ∃ arena t1 t2, Insertion env al m ptr size caller sizefn p m' arena t1 t2 := by
  obtain ⟨⟨b, t1⟩, hlast, hrun⟩ := of_bind hrun
  obtain ⟨⟨arena, t2⟩, hfirst, hrun⟩ := of_bind hrun
  refine ⟨arena, t1, t2, ?_⟩
  -- whether the chunk is promoted makes a difference to the table and to one of the two maxima
  cases hp : shouldPromoteToBigalloc (sizefn ptr)
  all_goals
    simp only [hp, if_true, Bool.false_eq_true, if_false, ensureHasBitmapTo_mod, -Nat.reducePow]
      at hrun
    obtain ⟨t3, htable, hrun⟩ := of_bind hrun
    obtain ⟨info', hbit, hrun⟩ := of_bind hrun
    obtain ⟨rfl, rfl⟩ := Prod.mk.inj (Option.some.inj hrun)
    obtain ⟨rfl, hlt⟩ := Bitmap.writeBit_eq_some hbit
    simp only [ArenaBitmapInfo.bitOf, ensureHasBitmapTo_base] at hlt
    refine ⟨⟨b, hlast⟩, hfirst, ?_, ?_, hlt, rfl, ?_, ?_, ?_, rfl, rfl⟩
    · simpa [hp] using htable
    · simp [ArenaBitmapInfo.bitOf]
    · simp
    · simp [callerUsableSizeForChunk]
    · simp [hp, callerUsableSizeForChunk]

section

variable (h : Indexed al A m es) (hf : Fits m.table al A c)
include h hf

/-- A chunk apart from the promoted live ones is apart from what is under the arena. -/
theorem Indexed.apart_under (hd : ∀ d ∈ live es, d.promoted → c.Apart d) (hn : m.table.InUse n)
    (hup : m.table.up n = A) : (m.table n).end_ ≤ c.ptr ∨ c.ptr + c.usable ≤ (m.table n).begin := by
  by_cases hal : (m.table n).allocatedBy = some al
  · have hne : n ≠ A := by
      rintro rfl
      exact h.wellFormed.links.not_below_up hn (hup.symm ▸ Below.refl m.table.up n)
    obtain ⟨d, hdl, hdp, hb⟩ := h.only n hn ⟨1, hup⟩ hne hal
    have hsize := (h.fits d hdl).1.size
    rw [hb.begin_eq, hb.end_eq]
    rcases hd d hdl hdp with h' | h' <;> omega
  · exact hf.clear n hn hup hal

theorem Indexed.promote_cases (hpos : 0 < c.requested) (hd : ∀ d ∈ live es, d.promoted → c.Apart d)
    (hrun : promote env m.table A c.ptr c.requested = some t') :
    t'.WellFormed ∧ ∃ n, ¬ m.table.InUse n ∧ Frame al m.table {n} t' ∧ IsBigallocOf t' al A n c := by
  have hA := h.arena.inUse
  have hsize := hf.size
  have hr : m.table.ValidRequest
      { ptr := c.ptr, size := c.requested, maybeParent := A,
        allocatedBy := (m.table A).suballocator } A := by
    refine ⟨(Nat.pos_of_ne_zero hA.2.2.1).trans_le hf.begin_le, .inr rfl, ?_, fun _ =>
      ⟨hA, hf.begin_le, ?_⟩, fun n hn hup => ?_, fun h0 => absurd h0 hA.ne_zero⟩
    · show c.ptr < c.ptr + c.requested
      omega
    · have hle := hf.le_end
      show c.ptr + c.requested ≤ _
      omega
    · have hap := h.apart_under hf hd hn hup
      show _ ≤ c.ptr ∨ c.ptr + c.requested ≤ _
      omega
  simp only [MallocIndex.promote, if_neg hA.ne_zero, Option.bind_eq_bind, Option.pure_def,
    Option.bind_eq_some_iff, Option.some.injEq] at hrun
  obtain ⟨⟨n, t2⟩, hnew, rfl⟩ := hrun
  obtain ⟨hfree, hwf, t1, hadd, rfl⟩ := hr.newBigalloc_added h.wellFormed (if_pos hA.ne_zero) hnew
  have hal : (t1 n).allocatedBy = some al := by
    have := congrArg (·.allocatedBy) hadd.new
    exact this.trans h.arena.suballocator
  refine ⟨hwf, n, hfree, ⟨fun k hk => hadd.keep k hk,
    fun k hk => ?_, fun k hk _ => ?_⟩, hadd.inUse, hadd.up_eq, hal, hadd.begin_eq, hadd.end_eq⟩
  · rw [← (hadd.old hk).2.2]
    exact hadd.childless k
  · rw [Set.mem_singleton_iff.mp hk]
    exact hal

theorem Indexed.insert_cases (hpos : 0 < c.requested)
    (hrun : m.genericMallocIndexInsert env al c.ptr c.requested c.caller (fun _ => c.usable)
      = some (p, m')) :
    (if c.promoted then promote env m.table A c.ptr c.requested else some m.table) = some m'.table
      ∧ m'.info.bitmap = update m.info.bitmap (m.info.bitOf c.ptr) true
      ∧ m'.info.bitmapBaseAddr = m.info.bitmapBaseAddr
      ∧ m.info.nwords ≤ m'.info.nwords
      ∧ m.info.bitOf c.ptr < m'.info.nwords * bitmapWordNbits := by
  have hle := hf.le_end
  have hbegin := hf.begin_le
  have hsize := hf.size
  obtain ⟨hbm, -, hnw⟩ := Bitmap.ensureHasBitmapTo_eq h.covered (c.ptr + c.requested)
  have hfind : ∀ x, c.ptr ≤ x → x < c.ptr + c.usable →
      m.table.findBigallocFromTop env x al true = some (A, m.table) := fun x h1 h2 =>
    h.arena.find_suballocator h.wellFormed ⟨by omega, by omega⟩
  obtain ⟨arena, t1, t2, hi⟩ := genericMallocIndexInsert_eq_some hrun
  obtain ⟨b, hlast⟩ := hi.last
  have hfirst := hi.first
  have hend := h.arena.end_le.trans (Nat.sub_le _ _)
  rw [lastByte_eq (by omega) (by omega), hfind _ (by omega) (by omega)] at hlast
  obtain ⟨-, rfl⟩ := Prod.mk.inj (Option.some.inj hlast)
  rw [hfind _ le_rfl (by omega)] at hfirst
  obtain ⟨rfl, rfl⟩ := Prod.mk.inj (Option.some.inj hfirst)
  exact ⟨hi.table, hbm ▸ hi.bitmap, hi.base, hi.nwords ▸ hnw, hi.bit_lt⟩

theorem Indexed.base_le_ptr :
    m.info.bitmapBaseAddr ≤ c.ptr := h.base_le.trans hf.begin_le

end

theorem ptr_ne_of_apart (h : c.Apart d) (hc : Fits t al A c) (hd : Fits t' al A d) :
    c.ptr ≠ d.ptr := by
  have h1 := hc.size
  have h2 := hd.size
  simp only [sizeofInsert] at h1 h2
  rcases h with h | h <;> omega

section

variable (h : Indexed al A m es) (hf : Fits m.table al A c) (hpos : 0 < c.requested)

include h hf hpos

theorem Indexed.insert_table (hd : ∀ d ∈ live es, d.promoted → c.Apart d)
    (ht : (if c.promoted then promote env m.table A c.ptr c.requested else some m.table)
      = some t') :
    t'.WellFormed ∧ (c.promoted → ∃ n, IsBigallocOf t' al A n c) ∧
      ∃ s, Frame al m.table s t'
        ∧ ∀ n ∈ s, ¬ m.table.InUse n ∧ c.promoted ∧ IsBigallocOf t' al A n c := by
  split at ht
  · rename_i hp
    obtain ⟨hwf, n, hfree, hframe, hb⟩ := h.promote_cases hf hpos hd ht
    refine ⟨hwf, fun _ => ⟨n, hb⟩, {n}, hframe, fun k hk => ?_⟩
    rw [Set.mem_singleton_iff.mp hk]
    exact ⟨hfree, hp, hb⟩
  · rename_i hp
    obtain rfl := Option.some.inj ht
    exact ⟨h.wellFormed, fun hc => absurd hc hp, ∅,
      ⟨fun _ _ => rfl, fun _ _ => id, fun _ hk => absurd hk id⟩, fun _ hk => absurd hk id⟩

theorem Indexed.insert (hd : ∀ d ∈ live es, c.Apart d)
    (hrun : m.genericMallocIndexInsert env al c.ptr c.requested c.caller (fun _ => c.usable)
      = some (p, m')) : Indexed al A m' (.insert c :: es) := by
  obtain ⟨ht, hbm, hbase, hnw, hlt⟩ := h.insert_cases hf hpos hrun
  obtain ⟨hwf, hpro, s, hframe, hs⟩ := h.insert_table hf hpos (fun d hdl _ => hd d hdl) ht
  have hA : A ∉ s := fun hc => (hs A hc).1 h.arena.inUse
  have hbit := fun i => Bitmap.eq_bitOf_iff (i := i) h.base_dvd hf.aligned (h.base_le_ptr hf)
  refine ⟨hwf, hframe.isArena hA h.arena, ?_, hbase ▸ h.base_dvd, ?_, ?_, ?_, ?_, ?_, ?_, ?_⟩
  · rw [hbase, hframe.begin_eq hA]
    exact h.base_le
  · rintro d (rfl | hdl)
    · exact ⟨hframe.fits hA hf, hpos⟩
    · exact ⟨hframe.fits hA (h.fits d hdl).1, (h.fits d hdl).2⟩
  · exact Set.Pairwise.insert h.apart fun d hdl _ => ⟨hd d hdl, (hd d hdl).symm⟩
  · rintro d (rfl | hdl) hdp
    · exact hpro hdp
    · obtain ⟨n, hn⟩ := h.promoted d hdl hdp
      exact ⟨n, (hframe.isBigallocOf_iff fun hc => (hs n hc).1 hn.inUse).mpr hn⟩
  · intro n hn hb hne hal
    by_cases hns : n ∈ s
    · exact ⟨c, .inl rfl, (hs n hns).2⟩
    · obtain ⟨d, hdl, hdp, hdb⟩ := h.only n ((inUse_congr (hframe.keep n hns)).mp hn)
        ((hframe.below_iff hns).mp hb) hne (hframe.allocatedBy_eq hns ▸ hal)
      exact ⟨d, .inr hdl, hdp, (hframe.isBigallocOf_iff hns).mpr hdb⟩
  · rintro q ⟨hq, hne⟩
    obtain ⟨h1, h2, h3⟩ := h.stale_ptr q hq
    refine ⟨h1, hbase ▸ h2, ?_⟩
    rintro d (rfl | hdl)
    · exact fun hc => hne hc.symm
    · exact h3 d hdl
  · intro i
    rw [hbm, hbase, Function.update_apply]
    split
    · rename_i hi
      exact ⟨fun _ => .inl ⟨c, .inl rfl, (hbit i).mpr hi⟩, fun _ => rfl⟩
    · rename_i hi
      rw [h.bits i]
      constructor
      · rintro (⟨d, hdl, hdp⟩ | hq)
        · exact .inl ⟨d, .inr hdl, hdp⟩
        · exact .inr ⟨hq, fun hc => hi ((hbit i).mp hc.symm)⟩
      · rintro (⟨d, rfl | hdl, hdp⟩ | hq)
        · exact absurd ((hbit i).mp hdp) hi
        · exact .inl ⟨d, hdl, hdp⟩
        · exact .inr hq.1
  · intro i hi
    rw [hbm, Function.update_apply] at hi
    split at hi
    · rename_i hib
      exact hib ▸ hlt
    · exact (h.covered i hi).trans_le (Nat.mul_le_mul_right _ hnw)

end

/-! ### Deletion -/

theorem IsBigallocOf.unique (h : t.WellFormed) (hn : IsBigallocOf t al A n c)
    (hk : IsBigallocOf t al A k d) (hp : c.ptr = d.ptr) : n = k :=
  h.eq_of_begin hn.inUse hk.inUse (hn.up_eq.trans hk.up_eq.symm)
    (hn.begin_eq.trans (hp.trans hk.begin_eq.symm))

theorem Indexed.ptr_ne (h : Indexed al A m es) (hc : c ∈ live es) (hd : d ∈ live es) (hne : d ≠ c) :
    d.ptr ≠ c.ptr :=
  ptr_ne_of_apart (h.apart hd hc hne) (h.fits d hd).1 (h.fits c hc).1

theorem Indexed.find_promoted (env : Env) (h : Indexed al A m es) (hc : c ∈ live es)
    (hn : IsBigallocOf m.table al A n c) :
    m.table.findBigallocFromTop env c.ptr al false = some (n, m.table) := by
  have hpos := (h.fits c hc).2
  exact h.arena.find_own env h.wellFormed hn.inUse hn.up_eq hn.allocatedBy
    ⟨hn.begin_eq.le, by rw [hn.end_eq]; omega⟩

theorem Indexed.ptr_mem_arena (h : Indexed al A m es) (hc : c ∈ live es) :
    c.ptr ∈ m.table.addrs A := by
  obtain ⟨hf, hpos⟩ := h.fits c hc
  have hle := hf.le_end
  have hsize := hf.size
  exact ⟨hf.begin_le, by omega⟩

theorem Indexed.find_unpromoted (env : Env) (h : Indexed al A m es) (hc : c ∈ live es)
    (hp : ¬ c.promoted) : m.table.findBigallocFromTop env c.ptr al false = some (0, m.table) := by
  obtain ⟨hf, hpos⟩ := h.fits c hc
  have hsize := hf.size
  refine h.arena.find_none env h.wellFormed (h.ptr_mem_arena hc) ?_
  rintro n hn hup ⟨h1, h2⟩
  have hap := h.apart_under hf (fun d hd hdp => h.apart hc hd fun he => hp (he ▸ hdp)) hn hup
  omega

theorem Indexed.delete_frame (h : Indexed al A m es) (hk : IsBigallocOf m.table al A k c)
    (hr : m.table.Removed { n | Below m.table.up n k } t') :
    Frame al m.table { n | Below m.table.up n k } t' ∧ A ∉ { n | Below m.table.up n k } :=
  ⟨⟨hr.keep, hr.closed, fun n hn hu => absurd hu (hr.gone n hn)⟩,
    hk.up_eq ▸ h.wellFormed.links.not_below_up hk.inUse⟩

section

variable (h : Indexed al A m es) (hc : c ∈ live es)
include h hc

/-- What a deletion does: a promoted chunk's bigalloc goes, another's bit is cleared. -/
theorem Indexed.delete_cases (hrun : m.genericMallocIndexDelete env al c.ptr = some m') :
    (c.promoted ∧ m'.info = m.info ∧ m'.table.WellFormed ∧ ∃ n, IsBigallocOf m.table al A n c
        ∧ m.table.Removed { k | Below m.table.up k n } m'.table) ∨
      (¬ c.promoted ∧ m'.table = m.table ∧ m'.info = { m.info with
            bitmap := update m.info.bitmap (m.info.bitOf c.ptr) false }) := by
  have hA := h.arena.inUse
  by_cases hp : c.promoted
  · obtain ⟨n, hn⟩ := h.promoted c hc hp
    have hfind := h.find_promoted env hc hn
    have hstart : n ≠ m.table.start := by
      intro hs
      have h0 : m.table.start ≠ 0 := hs ▸ hn.inUse.ne_zero
      have hup : m.table.up m.table.start = 0 := (h.wellFormed.entered h0).2.1
      rw [← hs, hn.up_eq] at hup
      exact hA.ne_zero hup
    obtain ⟨d, hd⟩ := h.wellFormed.links.exists_depth hn.inUse
    simp only [genericMallocIndexDelete, hfind, hn.inUse.ne_zero, ne_eq, not_false_eq_true, if_true,
      hn.allocatedBy, deleteBigallocAt, Option.bind_eq_bind, Option.bind_some, if_false,
      Option.pure_def, Option.bind_eq_some_iff, Option.some.injEq] at hrun
    obtain ⟨⟨found, t1⟩, ⟨t2, hdel, heq⟩, rfl⟩ := hrun
    obtain ⟨-, rfl⟩ := Prod.mk.inj heq
    rcases bigallocDel_cases env nbigallocs h.wellFormed.links hn.inUse hd
      (by omega) (h.wellFormed.nested hn.inUse) with ⟨hnone, -⟩ | ⟨t3, hsome, -, hr, hpages⟩
    · simp [hnone] at hdel
    · obtain rfl : t3 = t2 := Option.some.inj (hsome.symm.trans hdel)
      exact Or.inl ⟨hp, rfl, h.wellFormed.removed hn.inUse hstart hr hpages, n, hn, hr⟩
  · simp only [genericMallocIndexDelete, h.find_unpromoted env hc hp, ne_eq, not_true_eq_false,
      if_false, h.arena.find_suballocator h.wellFormed (h.ptr_mem_arena hc), Option.bind_eq_bind,
      Option.bind_some, Option.pure_def, Option.bind_eq_some_iff, Option.some.injEq] at hrun
    obtain ⟨info', hinfo, rfl⟩ := hrun
    exact Or.inr ⟨hp, rfl, (Bitmap.writeBit_eq_some hinfo).1⟩

theorem Indexed.delete_promoted (hp : c.promoted) (hinfo : m'.info = m.info)
    (hwf : m'.table.WellFormed) (hk : IsBigallocOf m.table al A k c)
    (hr : m.table.Removed { n | Below m.table.up n k } m'.table) :
    Indexed al A m' (.delete c :: es) := by
  obtain ⟨hframe, hA⟩ := h.delete_frame hk hr
  have hother : ∀ d n, d ∈ live es → d ≠ c → IsBigallocOf m.table al A n d →
      n ∉ { n | Below m.table.up n k } := by
    intro d n hd hne hn hb
    obtain ⟨e, he⟩ := h.wellFormed.links.exists_depth hn.inUse
    obtain rfl := hb.eq_of_sibling h.wellFormed.links.up_zero he hk.inUse.ne_zero
      (hn.up_eq.trans hk.up_eq.symm)
    exact h.ptr_ne hc hd hne (hn.begin_eq.symm.trans hk.begin_eq)
  refine ⟨hwf, hframe.isArena hA h.arena, ?_, hinfo ▸ h.base_dvd, fun d hd => ?_,
    h.apart.mono Set.sdiff_subset, fun d hd hdp => ?_, fun n hn hb hne hal => ?_, fun q hq => ?_,
    fun i => ?_, hinfo ▸ h.covered⟩
  · rw [hinfo, hframe.begin_eq hA]
    exact h.base_le
  · exact ⟨hframe.fits hA (h.fits d hd.1).1, (h.fits d hd.1).2⟩
  · obtain ⟨n, hn⟩ := h.promoted d hd.1 hdp
    exact ⟨n, (hframe.isBigallocOf_iff (hother d n hd.1 hd.2 hn)).mpr hn⟩
  · obtain ⟨hu, hns⟩ := hr.inUse_iff.mp hn
    obtain ⟨d, hd, hdp, hdb⟩ := h.only n hu ((hframe.below_iff hns).mp hb) hne
      (hframe.allocatedBy_eq hns ▸ hal)
    refine ⟨d, ⟨hd, fun hdc => hns ?_⟩, hdp, (hframe.isBigallocOf_iff hns).mpr hdb⟩
    rw [hdb.unique h.wellFormed hk (congrArg Chunk.ptr hdc)]
    exact Below.refl _ k
  · rw [hinfo]
    simp only [stale, if_pos hp] at hq
    rcases hq with rfl | hq
    · obtain ⟨hf, -⟩ := h.fits c hc
      exact ⟨hf.aligned, h.base_le_ptr hf, fun d hd => h.ptr_ne hc hd.1 hd.2⟩
    · obtain ⟨h1, h2, h3⟩ := h.stale_ptr q hq
      exact ⟨h1, h2, fun d hd => h3 d hd.1⟩
  · rw [hinfo, h.bits i]
    simp only [stale, if_pos hp]
    constructor
    · rintro (⟨d, hd, hdp⟩ | hq)
      · by_cases hdc : d = c
        · exact .inr (.inl (hdc ▸ hdp.symm))
        · exact .inl ⟨d, ⟨hd, hdc⟩, hdp⟩
      · exact .inr (.inr hq)
    · rintro (⟨d, hd, hdp⟩ | hq | hq)
      · exact .inl ⟨d, hd.1, hdp⟩
      · exact .inl ⟨c, hc, hq.symm⟩
      · exact .inr hq

theorem Indexed.delete_unpromoted (hp : ¬ c.promoted) (ht : m'.table = m.table)
    (hinfo : m'.info = { m.info with
      bitmap := update m.info.bitmap (m.info.bitOf c.ptr) false }) :
    Indexed al A m' (.delete c :: es) := by
  obtain ⟨hf, -⟩ := h.fits c hc
  have hbase : m'.info.bitmapBaseAddr = m.info.bitmapBaseAddr := by rw [hinfo]
  have hbm : ∀ i, m'.info.bitmap i = true ↔ i ≠ m.info.bitOf c.ptr ∧ m.info.bitmap i = true := by
    intro i
    rw [hinfo]
    by_cases hi : i = m.info.bitOf c.ptr <;> simp [hi]
  have hbit := fun i => Bitmap.eq_bitOf_iff (i := i) h.base_dvd hf.aligned (h.base_le_ptr hf)
  have hst : stale (.delete c :: es) = stale es := if_neg hp
  refine ⟨ht ▸ h.wellFormed, ht ▸ h.arena, by rw [hbase, ht]; exact h.base_le, hbase ▸ h.base_dvd,
    fun d hd => ht ▸ h.fits d hd.1, h.apart.mono Set.sdiff_subset, fun d hd hdp => ?_,
    fun n hn hb hne hal => ?_, fun q hq => ?_, fun i => ?_, fun i hi => ?_⟩
  · rw [ht]
    exact h.promoted d hd.1 hdp
  · rw [ht] at hn hb hal ⊢
    obtain ⟨d, hd, hdp, hdb⟩ := h.only n hn hb hne hal
    exact ⟨d, ⟨hd, fun hdc => hp (hdc ▸ hdp)⟩, hdp, hdb⟩
  · obtain ⟨h1, h2, h3⟩ := h.stale_ptr q (hst ▸ hq)
    exact ⟨h1, hbase ▸ h2, fun d hd => h3 d hd.1⟩
  · rw [hbm, h.bits i, hbase, hst]
    constructor
    · rintro ⟨hi, ⟨d, hd, hdp⟩ | hq⟩
      · exact .inl ⟨d, ⟨hd, fun hdc => hi ((hbit i).mp (hdc ▸ hdp))⟩, hdp⟩
      · exact .inr hq
    · rintro (⟨d, hd, hdp⟩ | hq)
      · refine ⟨fun hi => ?_, .inl ⟨d, hd.1, hdp⟩⟩
        exact h.ptr_ne hc hd.1 hd.2 (hdp.trans ((hbit i).mpr hi).symm)
      · exact ⟨fun hi => (h.stale_ptr _ hq).2.2 c hc ((hbit i).mpr hi), .inr hq⟩
  · rw [hinfo]
    exact h.covered i ((hbm i).mp hi).2

theorem Indexed.delete (hrun : m.genericMallocIndexDelete env al c.ptr = some m') :
    Indexed al A m' (.delete c :: es) := by
  rcases h.delete_cases hc hrun with ⟨hp, hinfo, hwf, k, hk, hr⟩ | ⟨hp, ht, hinfo⟩
  · exact h.delete_promoted hc hp hinfo hwf hk hr
  · exact h.delete_unpromoted hc hp ht hinfo

end

/-! ### Runs -/

/-- The index of an arena that has no chunks yet. -/
structure Start (al : Allocator) (A : Nat) (m : MallocIndex) : Prop where
  wellFormed : m.table.WellFormed
  arena : IsArena m.table al A
  info : m.info = ArenaBitmapInfo.ensureArenaHasInfo (m.table.bigAllocations A).begin
  fresh : ∀ n, m.table.InUse n → Below m.table.up n A → n ≠ A →
    (m.table.bigAllocations n).allocatedBy ≠ some al

theorem Start.indexed (h : Start al A m) : Indexed al A m [] := by
  refine ⟨h.wellFormed, h.arena, ?_, ?_, fun c hc => absurd hc id, Set.pairwise_empty _,
    fun c hc => absurd hc id, fun n hn hb hne hal => absurd hal (h.fresh n hn hb hne),
    fun q hq => absurd hq id, fun i => ?_, fun i hi => ?_⟩
  · rw [h.info]
    exact Nat.div_mul_le_self _ _
  · rw [h.info]
    exact Dvd.intro_left _ rfl
  · rw [h.info]
    simp [ArenaBitmapInfo.ensureArenaHasInfo, live, stale]
  · rw [h.info] at hi
    simp [ArenaBitmapInfo.ensureArenaHasInfo] at hi

theorem Runs.indexed {m0 : MallocIndex} (h : Runs env al A m0 es m) (h0 : Start al A m0)
    (hreq : ∀ c, Event.insert c ∈ es → 0 < c.requested) : Indexed al A m es := by
  induction h with
  | start => exact h0.indexed
  | insert _ hfits hapart hrun ih =>
    exact (ih fun c hc => hreq c (.tail _ hc)).insert hfits (hreq _ (.head _)) hapart hrun
  | delete _ hc hrun ih =>
    exact (ih fun c hc => hreq c (.tail _ hc)).delete hc hrun

/-- The index is right about the live chunks: the bits are their starts, and the allocator's bigallocs
under the arena are those over the threshold. -/
structure Exact (al : Allocator) (A : Nat) (m : MallocIndex) (chunks : Set Chunk) : Prop where
  bitmap : ∀ i, m.info.bitmap i = true ↔
    ∃ c ∈ chunks, c.ptr = m.info.bitmapBaseAddr + mallocAlign * i
  bigallocs : ∀ n, m.table.InUse n → Below m.table.up n A → n ≠ A →
    (m.table.bigAllocations n).allocatedBy = some al →
    ∃! c, (c ∈ chunks ∧ c.promoted) ∧ IsBigallocOf m.table al A n c
  promoted : ∀ c ∈ chunks, c.promoted → ∃! n, IsBigallocOf m.table al A n c

theorem Indexed.bigalloc_unique (h : Indexed al A m es) (hc : c ∈ live es) (hd : d ∈ live es)
    (hnc : IsBigallocOf m.table al A n c) (hnd : IsBigallocOf m.table al A n d) : d = c := by
  by_contra hne
  exact h.ptr_ne hc hd hne (hnd.begin_eq.symm.trans hnc.begin_eq)

/-- **The index is exact just when no address is stale**: every address where a promoted chunk has
been deleted has had another insertion since. -/
theorem index_exact_iff (env : Env) (al : Allocator) (A : Nat) (m₀ m : MallocIndex)
    (es : List Event) (h₀ : Start al A m₀) (hrun : Runs env al A m₀ es m)
    (hreq : ∀ c, Event.insert c ∈ es → 0 < c.requested) :
    Exact al A m (live es) ↔ stale es = ∅ := by
  have h := hrun.indexed h₀ hreq
  constructor
  · intro hex
    refine Set.eq_empty_iff_forall_notMem.mpr fun q hq => ?_
    obtain ⟨h1, h2, h3⟩ := h.stale_ptr q hq
    have hbit := Bitmap.base_add_bitOf h.base_dvd h1 h2
    have hset := (h.bits (m.info.bitOf q)).mpr (.inr (hbit.symm ▸ hq))
    obtain ⟨c, hc, hptr⟩ := (hex.bitmap _).mp hset
    exact h3 c hc (hptr.trans hbit)
  · intro hst
    refine ⟨fun i => ?_, fun n hn hb hne hal => ?_, fun c hc hp => ?_⟩
    · simp [h.bits i, hst]
    · obtain ⟨c, hc, hp, hnc⟩ := h.only n hn hb hne hal
      exact ⟨c, ⟨⟨hc, hp⟩, hnc⟩, fun d hd => h.bigalloc_unique hc hd.1.1 hnc hd.2⟩
    · obtain ⟨n, hn⟩ := h.promoted c hc hp
      exact ⟨n, hn, fun k hk => hk.unique h.wellFormed hn rfl⟩

end

/-! ### Chunks of an arena -/

/-- What fits into the arena at the start fits into it after any run. -/
theorem Runs.fits {m₀ : MallocIndex} {es : List Event} (h : Runs env al A m₀ es m)
    (h0 : Start al A m₀) (hreq : ∀ c, Event.insert c ∈ es → 0 < c.requested)
    (hf : Fits m₀.table al A c) : Fits m.table al A c := by
  induction h with
  | start => exact hf
  | insert hrest hfits hapart hrun ih =>
    have hreq' := fun c hc => hreq c (.tail _ hc)
    have hi := hrest.indexed h0 hreq'
    obtain ⟨ht, -⟩ := hi.insert_cases hfits (hreq _ (.head _)) hrun
    obtain ⟨-, -, s, hframe, hs⟩ := hi.insert_table hfits (hreq _ (.head _))
      (fun d hd _ => hapart d hd) ht
    exact hframe.fits (fun hA => (hs A hA).1 hi.arena.inUse) (ih hreq')
  | delete hrest hc hrun ih =>
    have hreq' := fun c hc => hreq c (.tail _ hc)
    have hi := hrest.indexed h0 hreq'
    rcases hi.delete_cases hc hrun with ⟨-, -, -, k, hk, hr⟩ | ⟨-, ht, -⟩
    · obtain ⟨hframe, hA⟩ := hi.delete_frame hk hr
      exact hframe.fits hA (ih hreq')
    · rw [ht]
      exact ih hreq'

/-- The live chunks as a list. -/
def liveChunks : List Event → List Chunk
  | [] => []
  | .insert c :: es => c :: liveChunks es
  | .delete c :: es => (liveChunks es).filter (· ≠ c)

theorem mem_liveChunks {es : List Event} : c ∈ liveChunks es ↔ c ∈ live es := by
  induction es with
  | nil => simp [liveChunks, live]
  | cons e es ih => cases e <;> simp [liveChunks, live, ih]

/-- A mapping of a megabyte for the arena of the samples. -/
def sampleArenaRequest : NewRequest :=
  { ptr := 1048576, size := 1048576, allocatedBy := some .mmap }

/-- A chunk of 200,000 bytes at the beginning of the arena. -/
def sampleChunk : Chunk := { ptr := 1048576, requested := 200000, usable := 200016, caller := 0 }

/-- The mapping that a request makes, as an arena with an empty bitmap. -/
def arenaOf (r : NewRequest) : MallocIndex where
  table := ((newBigalloc sampleEnv {} r).map fun x =>
    x.2.modify 1 fun b => { b with suballocator := some .genericMalloc }).getD {}
  info := .ensureArenaHasInfo r.ptr

theorem arenaOf_wellFormed {r : NewRequest} (hv : ({} : Table).ValidRequest r 0)
    (hone : (newBigalloc sampleEnv {} r).map Prod.fst = some 1) :
    (arenaOf r).table.WellFormed ∧ ∀ n, (arenaOf r).table.InUse n ↔ n = 1 := by
  obtain ⟨⟨b, t⟩, ht, rfl⟩ := Option.map_eq_some_iff.mp hone
  obtain ⟨hwf, -, -, hin, -⟩ := hv.newBigalloc_wellFormed sample_empty.wellFormed
    sample_empty.toIdle ht
  have htable : (arenaOf r).table
      = t.modify 1 fun b => { b with suballocator := some .genericMalloc } := by
    simp [arenaOf, ht]
  have hshape : ∀ n, ((arenaOf r).table.bigAllocations n).shape = (t n).shape := by
    intro n
    rw [htable]
    by_cases hn : n = 1 <;> simp [Table.modify, hn, BigAllocation.shape]
  refine ⟨hwf.of_shape hshape (by simp [htable, Table.modify]) (by rw [htable]; rfl)
    (by rw [htable]; rfl), fun n => ?_⟩
  have hb := congrArg (·.begin) (hshape n)
  have he := congrArg (·.end_) (hshape n)
  simp only [BigAllocation.shape] at hb he
  rw [InUse, hb, he]
  exact (hin n).trans (by simp [sample_empty.not_inUse n])

theorem start_of_one (hwf : m.table.WellFormed) (hin : ∀ n, m.table.InUse n ↔ n = 1)
    (hup : m.table.up 1 = 0) (hend : (m.table 1).end_ ≤ 2 ^ 64 - mallocAlign * bitmapWordNbits)
    (hsub : (m.table 1).suballocator = some al)
    (hal : (m.table 1).allocatedBy ≠ some al)
    (hinfo : m.info = .ensureArenaHasInfo (m.table 1).begin) : Start al 1 m := by
  have hbelow : ∀ p, Below m.table.up 1 p → p = 1 ∨ p = 0 := by
    intro p hp
    rcases below_iff.mp hp with h | h
    · exact .inl h.symm
    · rw [hup] at h
      exact .inr (eq_null_of_below hwf.links.up_zero h)
  refine ⟨hwf, ⟨(hin 1).mpr rfl, hsub, fun p hp h1 h0 => ?_, fun p hp h0 => ?_, hend⟩, hinfo,
    fun n hn _ h1 => absurd ((hin n).mp hn) h1⟩
  · exact absurd ((hbelow p hp).resolve_left h1) h0
  · rw [(hbelow p hp).resolve_right h0]
    exact hal

theorem arenaOf_start {r : NewRequest}
    (hv : r.fits {} [] ∧ r.maybeParent = 0
      ∧ r.ptr + r.size ≤ 2 ^ 64 - mallocAlign * bitmapWordNbits)
    (hrec : (newBigalloc sampleEnv {} r).map Prod.fst = some 1
      ∧ ((arenaOf r).table.bigAllocations 1).begin = r.ptr
      ∧ ((arenaOf r).table.bigAllocations 1).end_ = r.ptr + r.size
      ∧ ((arenaOf r).table.bigAllocations 1).suballocator = some .genericMalloc
      ∧ ((arenaOf r).table.bigAllocations 1).allocatedBy ≠ some .genericMalloc
      ∧ (arenaOf r).table.up 1 = 0) :
    Start .genericMalloc 1 (arenaOf r) ∧ ∀ c : Chunk, mallocAlign ∣ c.ptr ∧ r.ptr ≤ c.ptr
      ∧ c.ptr + c.usable ≤ r.ptr + r.size ∧ c.requested + sizeofInsert ≤ c.usable →
        Fits (arenaOf r).table .genericMalloc 1 c := by
  obtain ⟨hone, hb, he, hsub, hal, hup⟩ := hrec
  obtain ⟨hwf, hin⟩ := arenaOf_wellFormed (hv.2.1 ▸ sample_empty.valid_of_fits hv.1) hone
  refine ⟨start_of_one hwf hin hup (he ▸ hv.2.2) hsub hal (by rw [hb]; rfl), fun c hc => ?_⟩
  refine ⟨hc.1, hb ▸ hc.2.1, he ▸ hc.2.2.1, hc.2.2.2, fun n hn hn1 => ?_⟩
  rw [(hin n).mp hn, hup] at hn1
  exact absurd hn1 (by decide)

/-- The arena of the samples. -/
def sampleArena : MallocIndex := arenaOf sampleArenaRequest

theorem sampleArena_started : Start .genericMalloc 1 sampleArena ∧ ∀ c : Chunk, mallocAlign ∣ c.ptr
    ∧ 1048576 ≤ c.ptr ∧ c.ptr + c.usable ≤ 2097152 ∧ c.requested + sizeofInsert ≤ c.usable →
      Fits sampleArena.table .genericMalloc 1 c :=
  arenaOf_start (r := sampleArenaRequest) (by decide) (by decide +kernel)

theorem sampleArena_start : Start .genericMalloc 1 sampleArena := sampleArena_started.1

theorem sampleArena_begin : (sampleArena.table 1).begin = 1048576 := by
  decide +kernel

theorem sampleArena_end : (sampleArena.table 1).end_ = 2097152 := by
  decide +kernel

/-- The chunk is one of the sample arena. -/
def InSampleArena (c : Chunk) : Prop :=
  mallocAlign ∣ c.ptr ∧ 1048576 ≤ c.ptr ∧ c.ptr + c.usable ≤ 2097152
    ∧ c.requested + sizeofInsert ≤ c.usable

instance (c : Chunk) : Decidable (InSampleArena c) :=
  inferInstanceAs (Decidable (_ ∧ _))

instance (c d : Chunk) : Decidable (c.Apart d) :=
  inferInstanceAs (Decidable (_ ∨ _))

/-- The events can happen in the sample arena. -/
def sampleFits : List Event → Bool
  | [] => true
  | .insert c :: es => sampleFits es && decide (InSampleArena c ∧ 0 < c.requested)
      && (liveChunks es).all fun d => decide (c.Apart d)
  | .delete c :: es => sampleFits es && decide (c ∈ liveChunks es)

/-- The index of the sample arena after the events. -/
def sampleAfter : List Event → Option MallocIndex
  | [] => some sampleArena
  | .insert c :: es => (sampleAfter es).bind fun m =>
      (m.genericMallocIndexInsert sampleEnv .genericMalloc c.ptr c.requested c.caller
        fun _ => c.usable).map Prod.snd
  | .delete c :: es => (sampleAfter es).bind fun m =>
      m.genericMallocIndexDelete sampleEnv .genericMalloc c.ptr

theorem sampleFits_requested {es : List Event} (h : sampleFits es = true) :
    ∀ c, Event.insert c ∈ es → 0 < c.requested := by
  induction es with
  | nil => simp
  | cons e es ih =>
    intro c hc
    cases e with
    | insert d =>
      simp only [sampleFits, Bool.and_eq_true, decide_eq_true_eq] at h
      rcases List.mem_cons.mp hc with hcd | hc
      · obtain rfl := Event.insert.inj hcd
        exact h.1.2.2
      · exact ih h.1.1 c hc
    | delete d =>
      simp only [sampleFits, Bool.and_eq_true, decide_eq_true_eq] at h
      exact ih h.1 c ((List.mem_cons.mp hc).resolve_left (by simp))

theorem sampleAfter_runs {es : List Event} (h : sampleFits es = true) (hm : sampleAfter es = some m) :
    Runs sampleEnv .genericMalloc 1 sampleArena es m := by
  induction es generalizing m with
  | nil =>
    obtain rfl := Option.some.inj hm
    exact .start
  | cons e es ih =>
    cases e with
    | insert c =>
      obtain ⟨m₁, hm₁, hm⟩ := Option.bind_eq_some_iff.mp hm
      simp only [sampleFits, Bool.and_eq_true, decide_eq_true_eq, List.all_eq_true] at h
      obtain ⟨⟨p, m'⟩, hins, rfl⟩ := Option.map_eq_some_iff.mp hm
      have hrun := ih h.1.1 hm₁
      refine .insert hrun (hrun.fits sampleArena_start (sampleFits_requested h.1.1)
        (sampleArena_started.2 c h.1.2.1)) (fun d hd => ?_) hins
      exact h.2 d (mem_liveChunks.mpr hd)
    | delete c =>
      obtain ⟨m₁, hm₁, hm⟩ := Option.bind_eq_some_iff.mp hm
      simp only [sampleFits, Bool.and_eq_true, decide_eq_true_eq] at h
      exact .delete (ih h.1 hm₁) (mem_liveChunks.mp h.2) hm

theorem exists_runs {l : List Event} {P : MallocIndex → Prop} (hl : sampleFits l = true)
    (h : ∃ m, sampleAfter l = some m ∧ P m) :
    ∃ m, Runs sampleEnv .genericMalloc 1 sampleArena l m ∧ P m := by
  obtain ⟨m, hm, hP⟩ := h
  exact ⟨m, sampleAfter_runs hl hm, hP⟩

/-- A small chunk at the beginning of the arena. -/
def sampleSmall : Chunk := { ptr := 1048576, requested := 100, usable := 120, caller := 4198400 }

/-- One like it, behind it. -/
def sampleNext : Chunk := { sampleSmall with ptr := 1048704 }

/-- A chunk of 200,000 bytes further up. -/
def sampleHigh : Chunk := { sampleChunk with ptr := 1310720 }

/-- Both small chunks and the big one are inserted, and the second small one is deleted. -/
def sampleEvents : List Event :=
  [.delete sampleNext, .insert sampleHigh, .insert sampleNext, .insert sampleSmall]

theorem mem_sampleEvents : c ∈ live sampleEvents ↔ c = sampleHigh ∨ c = sampleSmall := by
  rw [← mem_liveChunks]
  have hlive : liveChunks sampleEvents = [sampleHigh, sampleSmall] := by decide
  simp [hlive]

theorem sampleEvents_fits : sampleFits sampleEvents = true := by
  decide

theorem sampleEvents_requested : ∀ c, Event.insert c ∈ sampleEvents → 0 < c.requested :=
  sampleFits_requested sampleEvents_fits

theorem sampleEvents_stale : stale sampleEvents = ∅ := by
  have hnext : ¬ sampleNext.promoted := by decide
  simp [sampleEvents, stale, hnext]

theorem index_exact_iff_inserted : ∃ m,
    Runs sampleEnv .genericMalloc 1 sampleArena sampleEvents m
      ∧ Exact .genericMalloc 1 m (live sampleEvents) := by
  obtain ⟨m, hrun, -⟩ := exists_runs (P := fun _ => True) sampleEvents_fits (by decide +kernel)
  exact ⟨m, hrun, (index_exact_iff sampleEnv .genericMalloc 1 sampleArena m _ sampleArena_start hrun
    sampleEvents_requested).mpr sampleEvents_stale⟩

/-- Deleting the chunk deletes its bigalloc, and its bit stays set. -/
theorem index_delete_leaves_bit : ∃ m, Start .genericMalloc 1 sampleArena
    ∧ Runs sampleEnv .genericMalloc 1 sampleArena [.delete sampleChunk, .insert sampleChunk] m
    ∧ live [.delete sampleChunk, .insert sampleChunk] = ∅ ∧ m.info.bitmap 0 = true
    ∧ ¬ Exact .genericMalloc 1 m (live [.delete sampleChunk, .insert sampleChunk]) := by
  obtain ⟨m, hrun, hbit⟩ := exists_runs (l := [.delete sampleChunk, .insert sampleChunk])
    (P := fun m => m.info.bitmap 0 = true) (by decide) (by decide +kernel)
  have hlive : live [.delete sampleChunk, .insert sampleChunk] = ∅ := by
    simp [live]
  refine ⟨m, sampleArena_start, hrun, hlive, hbit, fun hex => ?_⟩
  obtain ⟨c, hc, -⟩ := (hex.bitmap 0).mp hbit
  rw [hlive] at hc
  exact hc

end Liballocs.MallocIndex
