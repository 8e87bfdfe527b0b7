/-
Queries about the chunks of an arena.

The last bit set at or below an address in a chunk is the chunk's own, unless a promoted chunk that
began inside it was deleted and left its bit (`stale`).  The search goes down as far as chunks that
were not promoted need, so a promoted chunk is not always found from its far end.  Its bigalloc has
the size that was requested, but its insert is where the chunk ends.
-/
import Liballocs.Proofs.ArenaBitmap
import Liballocs.Proofs.MallocMeta

namespace Liballocs.MallocIndex

open Forest

open Table

variable {env : Env} {al : Allocator} {A n p x u b ins : Nat} {c d : Chunk} {m m' m₀ : MallocIndex}
  {es : List Event} {info : ArenaBitmapInfo} {q : QueryEnv} {t : Table} {sizefn : Nat → Nat}

/-! ### The last bit that is set -/

section LastSet

open Bits

variable {bit : Nat → Bool} {i j h : Nat}

theorem lastSet_shift (hle : h ≤ i) :
    lastSet (fun k => bit (h + k)) (i - h) = ((lastSet bit i).filter (h ≤ ·)).map (· - h) := by
  cases hj : lastSet bit i with
  | none =>
    rw [lastSet_eq_none_iff] at hj
    exact lastSet_eq_none_iff.mpr fun k hk => hj (h + k) (by omega)
  | some j =>
    obtain ⟨hji, hset, hno⟩ := lastSet_eq_some_iff.mp hj
    by_cases hhj : h ≤ j
    · rw [Option.filter_some, if_pos (decide_eq_true hhj)]
      refine lastSet_eq_some_iff.mpr
        ⟨Nat.sub_le_sub_right hji h, ?_, fun k h1 h2 => hno (h + k) ?_ (by omega)⟩
      · rw [Nat.add_sub_cancel' hhj]
        exact hset
      · dsimp only at h1
        omega
    · rw [Option.filter_some, if_neg (by simpa using hhj)]
      exact lastSet_eq_none_iff.mpr fun k hk => hno (h + k) (by omega) (by omega)

theorem map_lastSet_shift {β : Type*} (f : Nat → β) (hle : h ≤ i) :
    (lastSet (fun k => bit (h + k)) (i - h)).map (fun j => f (j + h))
      = ((lastSet bit i).filter (h ≤ ·)).map f := by
  rw [lastSet_shift hle, Option.map_map]
  refine Option.map_congr fun j hj => ?_
  have hhj : h ≤ j := by simpa using (Option.mem_filter_iff.mp hj).2
  simp [Function.comp_apply, Nat.sub_add_cancel hhj]

end LastSet

/-! ### A lookup in the bitmap -/

theorem lastSet_of_unset {bit : Nat → Bool} {i j : Nat} (hij : i ≤ j)
    (hno : ∀ k, i < k → k ≤ j → bit k = false) :
    Bits.lastSet bit j = Bits.lastSet bit i := by
  induction j, hij using Nat.le_induction with
  | base => rfl
  | succ j hij ih =>
    rw [Bits.lastSet, hno (j + 1) (by omega) le_rfl, if_neg Bool.false_ne_true]
    exact ih fun k h1 h2 => hno k h1 (by omega)

/-- A lookup answers with the last bit set, if visible; from beyond the bitmap it starts at the end.
-/
theorem lookup_eq_lastSet (sizefn : Nat → Nat) (h32 : info.bitOf x < 2 ^ 32)
    (hcov : ∀ i, info.bitmap i = true → i < info.nwords * bitmapWordNbits)
    (hin : q.rfindClamps = true ∨ info.bitOf x < info.nwords * bitmapWordNbits)
    (hhid : info.nbitsHidden q x ≤ info.bitOf x) :
    info.lookupObjectInfoViaBitmap q x sizefn
      = some (((Bits.lastSet info.bitmap (info.bitOf x)).filter
          (info.nbitsHidden q x ≤ ·)).map (objectAt info sizefn)) := by
  obtain ⟨k, hk⟩ := nbitsHidden_eq info q x
  have hidx : sub64 (info.startIdx x) (info.nbitsHidden q x)
      = info.bitOf x - info.nbitsHidden q x := by
    rw [show info.startIdx x = info.bitOf x from Nat.mod_eq_of_lt h32, sub64, if_pos hhid]
  have hnbits : (info.nwords - k) * bitmapWordNbits
      = info.nwords * bitmapWordNbits - info.nbitsHidden q x := by
    rw [hk, Nat.sub_mul]
  rw [lookupObjectInfoViaBitmap_eq, hidx, hk, Nat.mul_div_cancel _ (by decide), ← hk]
  unfold ArenaBitmapInfo.bitmapRfindFirstSetLeq
  simp only [Bits.Searches.lastLeq_eq, hnbits, ← hk]
  by_cases hnw : info.bitOf x < info.nwords * bitmapWordNbits
  · rw [if_pos (by omega)]
    exact congrArg some (map_lastSet_shift (objectAt info sizefn) hhid)
  rw [if_neg (by omega), if_pos (hin.resolve_right hnw), Option.map_some]
  refine congrArg some ?_
  by_cases hnone : info.nwords * bitmapWordNbits ≤ info.nbitsHidden q x
  · rw [if_pos (by omega), Option.map_none]
    cases hj : Bits.lastSet info.bitmap (info.bitOf x) with
    | none => rfl
    | some j =>
      have hlt := hcov j (Bits.lastSet_eq_some_iff.mp hj).2.1
      have hhidden : ¬ info.nbitsHidden q x ≤ j := by omega
      rw [Option.filter_some, if_neg (by simpa using hhidden), Option.map_none]
  · have hsame := lastSet_of_unset (i := info.nwords * bitmapWordNbits - 1)
      (j := info.bitOf x) (by omega) fun i h1 _ => by
        by_contra hset
        have := hcov i (Bool.of_not_eq_false hset)
        omega
    rw [if_neg (by omega), Nat.sub_right_comm, hsame]
    exact map_lastSet_shift (objectAt info sizefn) (by omega)

theorem nbitsHidden_le (hb : wordBytes ∣ info.bitmapBaseAddr)
    (hbig : info.biggestUnpromotedObject ≤ x) (hp : info.bitmapBaseAddr ≤ p)
    (hnear : x ≤ p + info.biggestUnpromotedObject) : info.nbitsHidden q x ≤ info.bitOf p := by
  unfold ArenaBitmapInfo.nbitsHidden
  dsimp only
  rw [sub64, if_pos hbig]
  split
  · split
    · obtain ⟨k, hk⟩ := hb
      simp only [ArenaBitmapInfo.bitOf, roundDown, wordBytes, mallocAlign, bitmapWordNbits] at *
      omega
    · exact Nat.zero_le _
  · exact Nat.zero_le _

/-! ### What queries need to know about the state -/

/-- What the index says about live chunks beyond their bits: the bitmap reaches over the request, the
biggest unpromoted chunk is on record, and no bigalloc is inside a promoted chunk's. -/
structure Sized (al : Allocator) (A : Nat) (m : MallocIndex) (es : List Event) : Prop where
  reach : ∀ c ∈ live es, m.info.bitOf (c.ptr + c.requested - 1) < m.info.nwords * bitmapWordNbits
  biggest : ∀ c ∈ live es, ¬ c.promoted → c.usable ≤ m.info.biggestUnpromotedObject + sizeofInsert
  bounded : m.info.biggestUnpromotedObject + sizeofInsert ≤ 131072
  childless : ∀ c ∈ live es, ∀ n, IsBigallocOf m.table al A n c →
    ∀ k, m.table.InUse k → m.table.up k ≠ n

theorem callerUsableSize_eq (h : sizeofInsert ≤ u) :
    callerUsableSizeForChunkAndUsableSize u = u - sizeofInsert := by
  rw [callerUsableSizeForChunkAndUsableSize, sub64, if_pos h]

/-- Taking an insert's size off twice keeps the law if there is room for two. -/
theorem callerUsableSize_lawful_iff {r : Nat} (hsize : r + sizeofInsert ≤ u) (hu : u ≤ 131072) :
    (r ≤ callerUsableSizeForChunkAndUsableSize (u - sizeofInsert)
        ∧ callerUsableSizeForChunkAndUsableSize (u - sizeofInsert) + sizeofInsert ≤ u)
      ↔ r + 2 * sizeofInsert ≤ u := by
  by_cases hle : sizeofInsert ≤ u - sizeofInsert
  · rw [callerUsableSize_eq hle]
    omega
  · rw [callerUsableSizeForChunkAndUsableSize, sub64, if_neg hle]
    omega

theorem usable_le_of_not_promoted (h : ¬ c.promoted) : c.usable ≤ 131072 := by
  unfold Chunk.promoted shouldPromoteToBigalloc at h
  simpa using h

/-- The recorded maximum is good for the live chunks that were not promoted. -/
structure Biggest (m : MallocIndex) (es : List Event) : Prop where
  biggest : ∀ c ∈ live es, ¬ c.promoted → c.usable ≤ m.info.biggestUnpromotedObject + sizeofInsert
  bounded : m.info.biggestUnpromotedObject + sizeofInsert ≤ 131072

theorem Biggest.insert (h : Biggest m es) (hsize : sizeofInsert ≤ c.usable)
    (hi : Inserted m c p m') : Biggest m' (.insert c :: es) := by
  have hbig := hi.biggest
  have hbounded := h.bounded
  rw [callerUsableSize_eq hsize] at hbig
  simp only [sizeofInsert] at hsize hbig hbounded
  refine ⟨?_, ?_⟩
  · intro d hd hp
    simp only [sizeofInsert]
    rcases hd with rfl | hd
    · rw [if_neg hp] at hbig
      omega
    · have hle := h.biggest d hd hp
      simp only [sizeofInsert] at hle
      split at hbig <;> omega
  · simp only [sizeofInsert]
    by_cases hp : c.promoted
    · rw [if_pos hp] at hbig
      omega
    · have hle := usable_le_of_not_promoted hp
      rw [if_neg hp] at hbig
      omega

theorem Biggest.delete (h : Biggest m es) (hrun : m.genericMallocIndexDelete env al p = some m') :
    Biggest m' (.delete c :: es) := by
  obtain ⟨-, -, hbig⟩ := genericMallocIndexDelete_info hrun
  refine ⟨?_, ?_⟩
  · intro d hd hp
    rw [hbig]
    exact h.biggest d hd.1 hp
  · rw [hbig]
    exact h.bounded

theorem Sized.toBiggest (hz : Sized al A m es) : Biggest m es := ⟨hz.biggest, hz.bounded⟩

theorem Sized.insert (hz : Sized al A m es) (h : Indexed al A m es) (hf : Fits m.table al A c)
    (hpos : 0 < c.requested) (hd : ∀ d ∈ live es, c.Apart d)
    (hrun : m.genericMallocIndexInsert env al c.ptr c.requested c.caller (fun _ => c.usable)
      = some (p, m')) : Sized al A m' (.insert c :: es) := by
  have hi := genericMallocIndexInsert_inserted hrun
  have hbiggest := hz.toBiggest.insert (Nat.le_of_add_left_le hf.size) hi
  refine ⟨fun d hdl => ?_, hbiggest.biggest, hbiggest.bounded, ?_⟩
  · rw [ArenaBitmapInfo.bitOf, hi.base]
    rcases hdl with rfl | hdl
    · have hbase := h.base_le_ptr hf
      have hsize := hf.size
      have hend := hf.le_end.trans h.arena.end_le
      have hnw := hi.nwords
      rw [ensureHasBitmapTo_nwords, sub64_roundUp (hbase.trans (Nat.le_add_right _ _))
        ((Nat.add_le_add_left (Nat.le_of_add_right_le hsize) _).trans hend)] at hnw
      obtain ⟨k, hk⟩ := h.base_dvd
      refine Nat.lt_of_lt_of_le ?_ (Nat.mul_le_mul_right _ (hnw ▸ Nat.le_max_right _ _))
      simp only [roundUp, wordBytes, mallocAlign, bitmapWordNbits] at hk ⊢
      omega
    · exact Nat.lt_of_lt_of_le (hz.reach d hdl) (Nat.mul_le_mul_right _ hi.nwords_le)
  · intro d hdl n hn k hk hup
    obtain ⟨ht, -⟩ := h.insert_cases hf hpos hrun
    obtain ⟨-, -, s, hframe, hs⟩ := h.insert_table hf hpos (fun d hdl _ => hd d hdl) ht
    have hwf := (h.insert hf hpos hd hrun).wellFormed
    by_cases hks : k ∈ s
    · obtain ⟨-, -, hkb⟩ := hs k hks
      have hnA : n = A := hup.symm.trans hkb.up_eq
      exact hwf.links.up_ne_self hn.inUse (hn.up_eq.trans hnA.symm)
    · have hk' : m.table.InUse k := (inUse_congr (hframe.keep k hks)).mp hk
      have hup' : m.table.up k = n := (up_congr (hframe.keep k hks)).symm.trans hup
      have hns : n ∉ s := hup' ▸ hframe.closed k hks
      have hn' := (hframe.isBigallocOf_iff hns).mp hn
      rcases hdl with rfl | hdl
      · -- the bigalloc would have been there before, as another chunk's
        have hA : A ≠ n := fun hc => hwf.links.up_ne_self hn.inUse (hn.up_eq.trans hc)
        obtain ⟨e, he, -, heb⟩ := h.only n hn'.inUse ⟨1, hn'.up_eq⟩ hA.symm hn'.allocatedBy
        exact ptr_ne_of_apart (hd e he) hf (h.fits e he).1 (hn'.begin_eq.symm.trans heb.begin_eq)
      · exact hz.childless d hdl n hn' k hk' hup'

theorem Sized.delete (hz : Sized al A m es) (h : Indexed al A m es) (hc : c ∈ live es)
    (hrun : m.genericMallocIndexDelete env al c.ptr = some m') : Sized al A m' (.delete c :: es) := by
  obtain ⟨hnw, hbase, -⟩ := genericMallocIndexDelete_info hrun
  have hbiggest : Biggest m' (.delete c :: es) := hz.toBiggest.delete hrun
  refine ⟨fun d hd => ?_, hbiggest.biggest, hbiggest.bounded, fun d hd n hn k hk hup => ?_⟩
  · rw [ArenaBitmapInfo.bitOf, hbase, hnw]
    exact hz.reach d hd.1
  · rcases h.delete_cases hc hrun with ⟨-, -, -, b, -, hr⟩ | ⟨-, ht, -⟩
    · have hframe : Frame al m.table { k | Below m.table.up k b } m'.table :=
        ⟨hr.keep, hr.closed, fun n hn hu => absurd hu (hr.gone n hn)⟩
      obtain ⟨hk', hks⟩ := hr.inUse_iff.mp hk
      obtain ⟨-, hns⟩ := hr.inUse_iff.mp hn.inUse
      exact hz.childless d hd.1 n ((hframe.isBigallocOf_iff hns).mp hn) k hk'
        ((up_congr (hr.keep k hks)).symm.trans hup)
    · rw [ht] at hn hk hup
      exact hz.childless d hd.1 n hn k hk hup

theorem Runs.sized (h : Runs env al A m₀ es m) (h0 : Start al A m₀)
    (hreq : ∀ c, Event.insert c ∈ es → 0 < c.requested) : Sized al A m es := by
  induction h with
  | start =>
    refine ⟨fun c hc => absurd hc id, fun c hc => absurd hc id, ?_, fun c hc => absurd hc id⟩
    rw [h0.info]
    show 0 + sizeofInsert ≤ 131072
    decide
  | insert hr hfits hapart hrun ih =>
    have hreq' := fun c hc => hreq c (.tail _ hc)
    exact (ih hreq').insert (hr.indexed h0 hreq') hfits (hreq _ (.head _)) hapart hrun
  | delete hr hc hrun ih =>
    have hreq' := fun c hc => hreq c (.tail _ hc)
    exact (ih hreq').delete (hr.indexed h0 hreq') hc hrun

theorem bitOf_mono (h : p ≤ n) : info.bitOf p ≤ info.bitOf n :=
  Nat.div_le_div_right (Nat.sub_le_sub_right h _)

theorem objectAt_bitOf (sizefn : Nat → Nat)
    (hp : info.bitmapBaseAddr + mallocAlign * info.bitOf p = p) :
    objectAt info sizefn (info.bitOf p) = (insertForChunk p sizefn, p, usersize p sizefn) := by
  unfold objectAt
  simp [hp]

theorem lookup_eq_of_lastSet (sizefn : Nat → Nat)
    (hp : info.bitmapBaseAddr + mallocAlign * info.bitOf p = p)
    (hlast : Bits.lastSet info.bitmap (info.bitOf x) = some (info.bitOf p))
    (hlook : info.lookupObjectInfoViaBitmap q x sizefn
      = some (((Bits.lastSet info.bitmap (info.bitOf x)).filter
          (info.nbitsHidden q x ≤ ·)).map (objectAt info sizefn))) :
    info.lookupObjectInfoViaBitmap q x sizefn = some (if info.nbitsHidden q x ≤ info.bitOf p then
      some (insertForChunk p sizefn, p, usersize p sizefn) else none) := by
  rw [hlook, hlast, Option.filter_some]
  by_cases hle : info.nbitsHidden q x ≤ info.bitOf p
  · rw [if_pos hle, if_pos (decide_eq_true hle), Option.map_some, objectAt_bitOf sizefn hp]
  · rw [if_neg hle, if_neg (by simpa using hle), Option.map_none]

theorem getInfoLocate_promoted (hn : IsBigallocOf m.table al A n c) (sizefn : Nat → Nat) :
    m.getInfoLocate env al q sizefn x n
      = some (some (c.ptr + (c.requested + sizeofInsert), c.ptr, c.requested), m) := by
  unfold getInfoLocate
  dsimp only
  rw [if_pos ⟨hn.inUse.ne_zero, hn.allocatedBy⟩, hn.begin_eq, hn.end_eq, Nat.add_sub_cancel_left]
  rfl

/-! ### The bigalloc that a query is given -/

section

variable (h : Indexed al A m es)

include h

theorem Indexed.leafBigallocFor_arena (hc : c ∈ live es) (hp : ¬ c.promoted) (h1 : c.ptr ≤ x)
    (h2 : x < c.ptr + c.usable) : m.table.leafBigallocFor x = some A := by
  obtain ⟨hf, -⟩ := h.fits c hc
  have hxA : x ∈ m.table.addrs A := ⟨hf.begin_le.trans h1, h2.trans_le hf.le_end⟩
  refine h.wellFormed.leafBigallocFor_eq (h.wellFormed.laminar_addrs.deepest_of_no_child
    h.arena.inUse hxA fun k hk hup hxk => ?_)
  have hap := h.apart_under hf (fun d hd hdp => h.apart hc hd fun he => hp (he ▸ hdp)) hk hup
  simp only [addrs, Set.mem_ofPred_eq] at hxk
  omega

theorem Sized.leafBigallocFor_promoted (hz : Sized al A m es) (hc : c ∈ live es)
    (hn : IsBigallocOf m.table al A n c) (h1 : c.ptr ≤ x)
    (h2 : x < c.ptr + c.requested) : m.table.leafBigallocFor x = some n := by
  have hxn : x ∈ m.table.addrs n := ⟨hn.begin_eq ▸ h1, hn.end_eq ▸ h2⟩
  exact h.wellFormed.leafBigallocFor_eq (h.wellFormed.laminar_addrs.deepest_of_no_child hn.inUse hxn
    fun k hk hup => absurd hup (hz.childless c hc n hn k hk))

/-! ### The bit that a query finds -/

/-- No stale bit is between the start of the chunk and the address. -/
def NoStale (es : List Event) (c : Chunk) (x : Nat) : Prop :=
  ∀ p ∈ stale es, ¬ (c.ptr < p ∧ p ≤ x)

/-- A bit says that an object begins there: a live chunk, or a deleted promoted one. -/
def Begins (es : List Event) (p : Nat) : Prop := (∃ c ∈ live es, c.ptr = p) ∨ p ∈ stale es

theorem Indexed.base_add_bitOf_begins (hp : Begins es p) :
    m.info.bitmapBaseAddr + mallocAlign * m.info.bitOf p = p := by
  rcases hp with ⟨c, hc, rfl⟩ | hst
  · obtain ⟨hf, -⟩ := h.fits c hc
    exact Bitmap.base_add_bitOf h.base_dvd hf.aligned (h.base_le_ptr hf)
  · obtain ⟨h16, hle, -⟩ := h.stale_ptr p hst
    exact Bitmap.base_add_bitOf h.base_dvd h16 hle

theorem Indexed.bitmap_bitOf_begins (hp : Begins es p) :
    m.info.bitmap (m.info.bitOf p) = true := by
  rw [h.bits, h.base_add_bitOf_begins hp]
  exact hp

/-- The last object that begins at or below an address. -/
structure LastBegin (es : List Event) (x p : Nat) : Prop where
  begins : Begins es p
  le : p ≤ x
  last : ∀ p', Begins es p' → p' ≤ x → p' ≤ p

/-- The last bit set is that of the last object at or below the address. -/
theorem Indexed.lastSet_cases (hx : m.info.bitmapBaseAddr ≤ x) :
    (Bits.lastSet m.info.bitmap (m.info.bitOf x) = none ∧ ∀ p, Begins es p → ¬ p ≤ x)
      ∨ ∃ p, LastBegin es x p
        ∧ Bits.lastSet m.info.bitmap (m.info.bitOf x) = some (m.info.bitOf p) := by
  cases hj : Bits.lastSet m.info.bitmap (m.info.bitOf x) with
  | none =>
    refine .inl ⟨rfl, fun p hp hpx => ?_⟩
    have hset := h.bitmap_bitOf_begins hp
    rw [Bits.lastSet_eq_none_iff.mp hj _ (bitOf_mono hpx)] at hset
    cases hset
  | some j =>
    obtain ⟨hjx, hset, hno⟩ := Bits.lastSet_eq_some_iff.mp hj
    have hbit : m.info.bitOf (m.info.bitmapBaseAddr + mallocAlign * j) = j := by
      simp only [ArenaBitmapInfo.bitOf, mallocAlign]
      omega
    refine .inr ⟨_, ⟨(h.bits j).mp hset, ?_, fun p hp hpx => ?_⟩, congrArg some hbit.symm⟩
    · simp only [ArenaBitmapInfo.bitOf, mallocAlign] at hjx ⊢
      omega
    · by_contra hlt
      have heq := h.base_add_bitOf_begins hp
      have hset := h.bitmap_bitOf_begins hp
      simp only [mallocAlign] at hlt heq
      rw [hno _ (by omega) (bitOf_mono hpx)] at hset
      cases hset

/-- From an address of a live chunk it is the chunk, or what a deletion left in it. -/
theorem LastBegin.eq_ptr (hn : LastBegin es x p) (hc : c ∈ live es)
    (h1 : c.ptr ≤ x) (h2 : x < c.ptr + c.usable) :
    (p = c.ptr ∧ NoStale es c x) ∨ (p ∈ stale es ∧ c.ptr < p ∧ p ≤ x) := by
  have hle := hn.last c.ptr (.inl ⟨c, hc, rfl⟩) h1
  have hpx := hn.le
  rcases hn.begins with ⟨d, hd, rfl⟩ | hst
  · by_cases hdc : d = c
    · subst hdc
      exact .inl ⟨rfl, fun p hst hp => (hn.last p (Or.inr hst) hp.2).not_gt hp.1⟩
    · have hsize := (h.fits d hd).1.size
      simp only [sizeofInsert] at hsize
      rcases h.apart hd hc hdc with hap | hap <;> omega
  · exact .inr ⟨hst, hle.lt_of_ne ((h.stale_ptr p hst).2.2 c hc), hpx⟩

/-- The arena is not in the lowest addresses. -/
def UserSpace (t : Table) (A : Nat) : Prop := 131072 ≤ (t.bigAllocations A).begin

/-! ### Base and size -/

theorem Indexed.mem_addrs_arena (hc : c ∈ live es) (h1 : c.ptr ≤ x)
    (h2 : x < c.ptr + c.requested) : x ∈ m.table.addrs A := by
  obtain ⟨hf, -⟩ := h.fits c hc
  have hsize := hf.size
  have hend := hf.le_end
  exact ⟨hf.begin_le.trans h1, by omega⟩

theorem Indexed.arenaForUserptr_eq (env : Env) (hx : x ∈ m.table.addrs A) :
    m.arenaForUserptr env al x = some (A, m) := by
  unfold arenaForUserptr
  rw [h.arena.find_suballocator h.wellFormed hx]
  simp [h.arena.inUse.ne_zero]

theorem Indexed.getInfoLocate_arena (hx : x ∈ m.table.addrs A)
    (sizefn : Nat → Nat) : m.getInfoLocate env al q sizefn x A
      = (m.info.lookupObjectInfoViaBitmap q x sizefn).map fun found =>
        (found.map fun o => (o.1, o.2.1, callerUsableSizeForChunkAndUsableSize o.2.2), m) := by
  unfold getInfoLocate
  have hA : (m.table A).allocatedBy ≠ some al :=
    h.arena.above A (Below.refl _ A) h.arena.inUse.ne_zero
  dsimp only
  rw [if_neg fun hc => hA hc.2, h.arenaForUserptr_eq env hx]
  simp only [Option.bind_eq_bind, Option.bind_some]
  cases m.info.lookupObjectInfoViaBitmap q x sizefn with
  | none => rw [Option.map_none, Option.bind_none]
  | some found => rw [Option.map_some, Option.bind_some, Option.pure_def]

variable (hz : Sized al A m es) (hu : UserSpace m.table A) (hc : c ∈ live es)
  (h1 : c.ptr ≤ x) (h2 : x < c.ptr + c.requested)

include hz hu hc h1 h2

/-- What a lookup from an address of a live chunk answers: the chunk, or an object at a stale bit
inside it, or nothing if that is hidden. -/
theorem Indexed.lookup_cases (q : QueryEnv) (h32 : m.info.bitOf x < 2 ^ 32) :
    ∃ p, ((p = c.ptr ∧ NoStale es c x) ∨ (p ∈ stale es ∧ c.ptr < p ∧ p ≤ x))
      ∧ ∀ sizefn, m.info.lookupObjectInfoViaBitmap q x sizefn
        = some (if m.info.nbitsHidden q x ≤ m.info.bitOf p then
          some (insertForChunk p sizefn, p, usersize p sizefn) else none) := by
  obtain ⟨hf, -⟩ := h.fits c hc
  have hbounded := hz.bounded
  have hbegin := hf.begin_le
  have hsize := hf.size
  have hbase := h.base_le_ptr hf
  unfold UserSpace at hu
  have hhid : m.info.nbitsHidden q x ≤ m.info.bitOf x :=
    nbitsHidden_le h.base_dvd (by omega) (by omega) (Nat.le_add_right _ _)
  have hin : m.info.bitOf x < m.info.nwords * bitmapWordNbits :=
    (bitOf_mono (by omega)).trans_lt (hz.reach c hc)
  rcases h.lastSet_cases (hbase.trans h1) with ⟨-, hno⟩ | ⟨p, hp, hlast⟩
  · exact absurd h1 (hno c.ptr (.inl ⟨c, hc, rfl⟩))
  · refine ⟨p, hp.eq_ptr h hc h1 (by omega), fun sizefn => ?_⟩
    exact lookup_eq_of_lastSet sizefn (h.base_add_bitOf_begins hp.begins) hlast
      (lookup_eq_lastSet sizefn h32 h.covered (.inr hin) hhid)

/-- From any address of a chunk that was not promoted, its start is not hidden. -/
theorem Indexed.nbitsHidden_le_ptr (hp : ¬ c.promoted) :
    m.info.nbitsHidden q x ≤ m.info.bitOf c.ptr := by
  obtain ⟨hf, -⟩ := h.fits c hc
  have hbounded := hz.bounded
  have hbiggest := hz.biggest c hc hp
  unfold UserSpace at hu
  have hbegin := hf.begin_le
  have hsize := hf.size
  exact nbitsHidden_le h.base_dvd (by omega) (h.base_le_ptr hf) (by omega)

/-- What the query finds out about an unpromoted chunk: the chunk itself, or an object at a stale bit
inside it. -/
theorem Indexed.getInfoLocate_unpromoted (env : Env) (q : QueryEnv) (hp : ¬ c.promoted)
    (h32 : m.info.bitOf x < 2 ^ 32) :
    ∃ p, ((p = c.ptr ∧ NoStale es c x) ∨ (p ∈ stale es ∧ c.ptr < p ∧ p ≤ x))
      ∧ ∀ sizefn, m.getInfoLocate env al q sizefn x A = some (some (insertForChunk p sizefn, p,
        callerUsableSizeForChunkAndUsableSize (usersize p sizefn)), m) := by
  have hhid := h.nbitsHidden_le_ptr (q := q) hz hu hc h1 h2 hp
  obtain ⟨p, hcases, hlook⟩ := h.lookup_cases hz hu hc h1 h2 q h32
  have hle : c.ptr ≤ p := by
    rcases hcases with ⟨rfl, -⟩ | ⟨-, hlt, -⟩
    · exact le_rfl
    · exact hlt.le
  refine ⟨p, hcases, fun sizefn => ?_⟩
  rw [h.getInfoLocate_arena (h.mem_addrs_arena hc h1 h2), hlook,
    if_pos (hhid.trans (bitOf_mono hle)), Option.map_some, Option.map_some]

end

theorem genericMallocGetInfo_located {base size : Nat}
    (hloc : m.getInfoLocate env al q sizefn x b = some (some (ins, base, size), m'))
    (typeOrSite : Bool) : ∃ o m'', m.genericMallocGetInfo env al q sizefn x b typeOrSite = some (o, m'')
      ∧ o.outBase = base ∧ o.outSize = size := by
  unfold genericMallocGetInfo
  rw [hloc]
  cases typeOrSite with
  | false =>
    exact ⟨_, _, rfl, rfl, rfl⟩
  | true =>
    exact ⟨_, _, rfl, rfl, rfl⟩

theorem genericMallocGetInfo_type {base size : Nat}
    (hloc : m.getInfoLocate env al q sizefn x b = some (some (ins, base, size), m')) :
    ∃ o m'', m.genericMallocGetInfo env al q sizefn x b true = some (o, m'')
      ∧ o.err = (extractAndOutputAllocSiteAndType q (m'.inserts ins)).err
      ∧ o.outType = (extractAndOutputAllocSiteAndType q (m'.inserts ins)).outType := by
  unfold genericMallocGetInfo
  rw [hloc]
  exact ⟨_, _, rfl, rfl, rfl⟩

/-- `__generic_malloc_get_info`, with the bigalloc of its callers, reports the start of the chunk and
a size by the law of `generic_malloc_index.h`: it covers the request and leaves room for an insert. -/
def ReportsLawfully (env : Env) (al : Allocator) (q : QueryEnv) (m : MallocIndex)
    (sizefn : Nat → Nat) (c : Chunk) (x : Nat) : Prop :=
  ∃ b, m.table.leafBigallocFor x = some b
    ∧ ∀ typeOrSite, ∃ o m', m.genericMallocGetInfo env al q sizefn x b typeOrSite = some (o, m')
      ∧ o.outBase = c.ptr ∧ c.requested ≤ o.outSize ∧ o.outSize + sizeofInsert ≤ c.usable

theorem reportsLawfully_iff {base size : Nat} (hleaf : m.table.leafBigallocFor x = some b)
    (hloc : m.getInfoLocate env al q sizefn x b = some (some (ins, base, size), m')) :
    ReportsLawfully env al q m sizefn c x
      ↔ base = c.ptr ∧ c.requested ≤ size ∧ size + sizeofInsert ≤ c.usable := by
  constructor
  · rintro ⟨b', hb', hall⟩
    obtain rfl := Option.mem_unique hleaf hb'
    obtain ⟨o, m1, hrun, ho⟩ := hall false
    obtain ⟨o', m2, hrun', rfl, rfl⟩ := genericMallocGetInfo_located hloc false
    obtain rfl : o = o' := congrArg Prod.fst (Option.mem_unique hrun hrun')
    exact ho
  · intro ho
    refine ⟨b, hleaf, fun typeOrSite => ?_⟩
    obtain ⟨o, m1, hrun, rfl, rfl⟩ := genericMallocGetInfo_located hloc typeOrSite
    exact ⟨o, m1, hrun, ho⟩

/-- **A query keeps the law exactly for promoted chunks, and for others when there is room for two
inserts behind the request and no stale bit in the way.** -/
theorem getInfo_lawful_iff (env : Env) (al : Allocator) (A : Nat) (m₀ m : MallocIndex)
    (es : List Event) (q : QueryEnv) (sizefn : Nat → Nat) (c : Chunk) (x : Nat) (h₀ : Start al A m₀)
    (hrun : Runs env al A m₀ es m) (hreq : ∀ c, Event.insert c ∈ es → 0 < c.requested)
    (hspace : UserSpace m.table A) (hsizefn : ∀ d ∈ live es, sizefn d.ptr = d.usable)
    (hc : c ∈ live es) (hx : c.ptr ≤ x ∧ x < c.ptr + c.requested)
    (h32 : ¬ c.promoted → m.info.bitOf x < 2 ^ 32) :
    ReportsLawfully env al q m sizefn c x
      ↔ c.promoted ∨ (c.requested + 2 * sizeofInsert ≤ c.usable ∧ NoStale es c x) := by
  have h := hrun.indexed h₀ hreq
  have hz := hrun.sized h₀ hreq
  obtain ⟨hf, hpos⟩ := h.fits c hc
  have hsize := hf.size
  by_cases hp : c.promoted
  · obtain ⟨n, hn⟩ := h.promoted c hc hp
    rw [reportsLawfully_iff (hz.leafBigallocFor_promoted h hc hn hx.1 hx.2)
      (getInfoLocate_promoted hn sizefn)]
    exact ⟨fun _ => .inl hp, fun _ => ⟨rfl, le_rfl, hsize⟩⟩
  · have hle := usable_le_of_not_promoted hp
    have hleaf := h.leafBigallocFor_arena hc hp hx.1 (by omega)
    obtain ⟨p, hcases, hloc⟩ := h.getInfoLocate_unpromoted hz hspace hc hx.1 hx.2 env q hp (h32 hp)
    rw [reportsLawfully_iff hleaf (hloc sizefn)]
    rcases hcases with ⟨rfl, hno⟩ | ⟨hst, hbetween⟩
    · -- the size of the insert is taken off twice
      have husersize : usersize c.ptr sizefn = c.usable - sizeofInsert := by
        rw [usersize, hsizefn c hc]
        exact callerUsableSize_eq (Nat.le_of_add_left_le hsize)
      rw [husersize, callerUsableSize_lawful_iff hsize hle]
      constructor
      · rintro ⟨-, hroom⟩
        exact .inr ⟨hroom, hno⟩
      · rintro (hc' | ⟨hroom, -⟩)
        · exact absurd hc' hp
        · exact ⟨rfl, hroom⟩
    · constructor
      · rintro ⟨rfl, -⟩
        exact absurd hbetween.1 (Nat.lt_irrefl _)
      · rintro (hc' | ⟨-, hno⟩)
        · exact absurd hc' hp
        · exact absurd hbetween (hno p hst)

/-- The usable sizes of the live chunks of the sample run. -/
def sampleSizes (ptr : Nat) : Nat := if ptr = 1048576 then 120 else 200016

theorem sampleSizes_eq (hd : d ∈ live sampleEvents) : sampleSizes d.ptr = d.usable := by
  rcases mem_sampleEvents.mp hd with rfl | rfl <;> rfl

/-- A query about the small chunk of the sample arena, with another live. -/
theorem getInfo_lawful_sample : ∃ m,
    Runs sampleEnv .genericMalloc 1 sampleArena sampleEvents m
      ∧ ReportsLawfully sampleEnv .genericMalloc {} m sampleSizes sampleSmall 1048600 := by
  obtain ⟨m, hrun, hspace, h32⟩ := exists_runs
    (P := fun m => 131072 ≤ (m.table 1).begin ∧ m.info.bitOf 1048600 < 2 ^ 32)
    sampleEvents_fits (by decide +kernel)
  refine ⟨m, hrun, (getInfo_lawful_iff sampleEnv .genericMalloc 1 sampleArena m _ {} _ sampleSmall
    1048600 sampleArena_start hrun sampleEvents_requested hspace (fun d hd => sampleSizes_eq hd)
    (mem_sampleEvents.mpr (.inr rfl)) (by decide) fun _ => h32).mpr
      (.inr ⟨by decide, fun p hp => ?_⟩)⟩
  simp [sampleEvents_stale] at hp

/-- A chunk whose usable bytes are just the request and the insert. -/
def sampleTight : Chunk := { ptr := 1048576, requested := 100, usable := 108, caller := 4198400 }

/-- Its size comes out as 92 bytes, less than the 100 that were requested. -/
theorem getInfo_unlawful : ∃ m o m',
    Runs sampleEnv .genericMalloc 1 sampleArena [.insert sampleTight] m
      ∧ m.table.leafBigallocFor 1048600 = some 1
      ∧ m.genericMallocGetInfo sampleEnv .genericMalloc {} (fun _ => 108) 1048600 1 false = some (o, m')
      ∧ o.outBase = 1048576 ∧ o.outSize = 92 := by
  obtain ⟨m, hrun, hleaf, o, m', hget⟩ := exists_runs (l := [.insert sampleTight]) (P := fun m =>
    m.table.leafBigallocFor 1048600 = some 1 ∧ ∃ o m',
      m.genericMallocGetInfo sampleEnv .genericMalloc {} (fun _ => 108) 1048600 1 false = some (o, m')
      ∧ o.outBase = 1048576 ∧ o.outSize = 92) (by decide) (by decide +kernel)
  exact ⟨m, o, m', hrun, hleaf, hget⟩

/-! ### The insert -/

/-- Where an insertion puts the insert of a chunk. -/
def insertAddr (c : Chunk) : Nat :=
  insertForChunkAndCallerUsableSize c.ptr (callerUsableSizeForChunkAndUsableSize c.usable)

theorem insertAddr_eq (h : sizeofInsert ≤ c.usable) : insertAddr c = c.ptr + (c.usable - sizeofInsert) := by
  rw [insertAddr, callerUsableSize_eq h]
  rfl

theorem insertForChunk_live (h : sizefn c.ptr = c.usable) :
    insertForChunk c.ptr sizefn = insertAddr c := by
  rw [insertForChunk, callerUsableSizeForChunk, h]
  rfl

/-- `__generic_malloc_get_info` reads, and `__generic_malloc_set_type` rewrites, the insert of the
insertion. -/
def SameInsert (env : Env) (al : Allocator) (q : QueryEnv) (m : MallocIndex) (sizefn : Nat → Nat)
    (c : Chunk) (x : Nat) : Prop :=
  (∃ b base size m', m.table.leafBigallocFor x = some b
      ∧ m.getInfoLocate env al q sizefn x b = some (some (insertAddr c, base, size), m'))
    ∧ ∃ start size m', m.setTypeLocate env al q x sizefn
      = some (some (insertAddr c, start, size), m')

section

variable (h : Indexed al A m es) (hx : x ∈ m.table.addrs A)

include h hx

theorem Indexed.setTypeLocate_eq (hone : (m.table 1).begin ≠ 0) (sizefn : Nat → Nat) :
    m.setTypeLocate env al q x sizefn
      = (m.info.lookupObjectInfoViaBitmap q x sizefn).map fun found => (found, m) := by
  unfold setTypeLocate
  rw [h.arenaForUserptr_eq env hx]
  simp only [Option.bind_eq_bind, Option.bind_some]
  unfold lookupObjectInfo
  rw [if_neg hone, h.arena.suballocator]
  simp only [Option.bind_eq_bind, Option.bind_some]
  rw [h.arenaForUserptr_eq env hx]
  simp only [Option.bind_some]
  cases m.info.lookupObjectInfoViaBitmap q x sizefn with
  | none => rw [Option.map_none, Option.bind_none]
  | some found => rw [Option.map_some, Option.bind_some, Option.pure_def]

theorem Indexed.setTypeLocate_none (hone : (m.table 1).begin = 0) (sizefn : Nat → Nat) :
    m.setTypeLocate env al q x sizefn = some (none, m) := by
  unfold setTypeLocate
  rw [h.arenaForUserptr_eq env hx]
  simp only [some_bind]
  unfold lookupObjectInfo
  rw [if_pos hone, Option.pure_def]

end

theorem Indexed.exists_sizefn (h : Indexed al A m es) (s : Nat) : ∃ sizefn : Nat → Nat,
    (∀ d ∈ live es, sizefn d.ptr = d.usable) ∧ ∀ p, (∀ d ∈ live es, d.ptr ≠ p) → sizefn p = s := by
  classical
  refine ⟨fun p => if hp : ∃ d ∈ live es, d.ptr = p then hp.choose.usable else s,
    fun d hd => ?_, fun p hp => ?_⟩
  · have hex : ∃ e ∈ live es, e.ptr = d.ptr := ⟨d, hd, rfl⟩
    have heq : hex.choose = d := by
      by_contra hne
      exact h.ptr_ne hd hex.choose_spec.1 hne hex.choose_spec.2
    dsimp only
    rw [dif_pos hex, heq]
  · have hno : ¬ ∃ d ∈ live es, d.ptr = p := fun ⟨d, hd, hdp⟩ => hp d hd hdp
    dsimp only
    rw [dif_neg hno]

/-- The condition under which all three agree on the insert. -/
structure InsertAgreed (q : QueryEnv) (m : MallocIndex) (es : List Event) (c : Chunk) (x : Nat) :
    Prop where
  started : (m.table.bigAllocations 1).begin ≠ 0
  noStale : NoStale es c x
  room : c.promoted → c.usable = c.requested + 2 * sizeofInsert
  visible : c.promoted → m.info.nbitsHidden q x ≤ m.info.bitOf c.ptr

theorem Indexed.of_inserts (h : Indexed al A m es) (f : Nat → Insert) :
    Indexed al A { m with inserts := f } es :=
  ⟨h.wellFormed, h.arena, h.base_le, h.base_dvd, h.fits, h.apart, h.promoted, h.only, h.stale_ptr,
    h.bits, h.covered⟩

theorem Sized.of_inserts (hz : Sized al A m es) (f : Nat → Insert) :
    Sized al A { m with inserts := f } es := ⟨hz.reach, hz.biggest, hz.bounded, hz.childless⟩

section

variable (env : Env) (ha : InsertAgreed q m es c x) (h : Indexed al A m es) (hz : Sized al A m es)
  (hu : UserSpace m.table A) (hc : c ∈ live es) (h1 : c.ptr ≤ x) (h2 : x < c.ptr + c.requested)
  (h32 : m.info.bitOf x < 2 ^ 32) (hsizefn : sizefn c.ptr = c.usable)

include ha h hz hu hc h1 h2 h32 hsizefn

theorem InsertAgreed.getInfo :
    ∃ b base size, m.table.leafBigallocFor x = some b
      ∧ m.getInfoLocate env al q sizefn x b = some (some (insertAddr c, base, size), m) := by
  obtain ⟨hf, -⟩ := h.fits c hc
  have hsize := hf.size
  by_cases hp : c.promoted
  · obtain ⟨n, hn⟩ := h.promoted c hc hp
    refine ⟨n, c.ptr, c.requested, hz.leafBigallocFor_promoted h hc hn h1 h2, ?_⟩
    rw [getInfoLocate_promoted hn sizefn, insertAddr_eq (Nat.le_of_add_left_le hsize), ha.room hp]
    have hroom : c.requested + 2 * sizeofInsert - sizeofInsert = c.requested + sizeofInsert := by
      omega
    rw [hroom]
  · obtain ⟨p, hcases, hloc⟩ := h.getInfoLocate_unpromoted hz hu hc h1 h2 env q hp h32
    rcases hcases with ⟨rfl, -⟩ | ⟨hst, hbetween⟩
    · exact ⟨A, _, _, h.leafBigallocFor_arena hc hp h1 (by omega),
        insertForChunk_live hsizefn ▸ hloc sizefn⟩
    · exact absurd hbetween (ha.noStale p hst)

theorem InsertAgreed.setType :
    ∃ start size, m.setTypeLocate env al q x sizefn
      = some (some (insertAddr c, start, size), m) := by
  have hvisible : m.info.nbitsHidden q x ≤ m.info.bitOf c.ptr := by
    by_cases hp : c.promoted
    · exact ha.visible hp
    · exact h.nbitsHidden_le_ptr hz hu hc h1 h2 hp
  obtain ⟨p, hcases, hlook⟩ := h.lookup_cases hz hu hc h1 h2 q h32
  rcases hcases with ⟨rfl, -⟩ | ⟨hst, hbetween⟩
  · refine ⟨c.ptr, usersize c.ptr sizefn, ?_⟩
    rw [h.setTypeLocate_eq (h.mem_addrs_arena hc h1 h2) ha.started, hlook, if_pos hvisible,
      Option.map_some, insertForChunk_live hsizefn]
  · exact absurd hbetween (ha.noStale p hst)

end

/-- **The insert that an insertion writes is the one that queries read and rewrite, exactly when
`InsertAgreed` holds**, whatever the size function says about addresses that are no chunks.  Then a
type that is set, if an insert can hold it, is what the next query reports. -/
theorem sameInsert_iff (env : Env) (al : Allocator) (A : Nat) (m₀ m : MallocIndex)
    (es : List Event) (q : QueryEnv) (c : Chunk) (x : Nat) (h₀ : Start al A m₀)
    (hrun : Runs env al A m₀ es m) (hreq : ∀ c, Event.insert c ∈ es → 0 < c.requested)
    (hspace : UserSpace m.table A) (hc : c ∈ live es) (hx : c.ptr ≤ x ∧ x < c.ptr + c.requested)
    (h32 : m.info.bitOf x < 2 ^ 32) :
    ((∀ sizefn, (∀ d ∈ live es, sizefn d.ptr = d.usable) → SameInsert env al q m sizefn c x)
        ↔ InsertAgreed q m es c x)
      ∧ (InsertAgreed q m es c x → ∀ sizefn, (∀ d ∈ live es, sizefn d.ptr = d.usable) →
        ∀ u, 8 ∣ u → 2 ^ 35 ≤ u → u < 2 ^ 47 →
          ∃ m₁ b o m₂, m.genericMallocSetType env al q x u sizefn = some (none, m₁)
            ∧ m₁.table.leafBigallocFor x = some b
            ∧ m₁.genericMallocGetInfo env al q sizefn x b true = some (o, m₂)
            ∧ o.err = none ∧ o.outType = u) := by
  have h := hrun.indexed h₀ hreq
  have hz := hrun.sized h₀ hreq
  obtain ⟨hf, hpos⟩ := h.fits c hc
  have hsize := hf.size
  have hxA := h.mem_addrs_arena hc hx.1 hx.2
  refine ⟨⟨fun hall => ?_, fun ha sizefn hsizefn => ⟨?_, ?_⟩⟩, fun ha sizefn hsizefn u h8 h35 hu => ?_⟩
  · obtain ⟨sizefn, hlive, helse⟩ := h.exists_sizefn sizeofInsert
    obtain ⟨⟨b, base, size, m₁, hleaf, hget⟩, start, size', m₂, hset⟩ := hall sizefn hlive
    have hone : (m.table 1).begin ≠ 0 := by
      intro hone
      rw [h.setTypeLocate_none hxA hone sizefn] at hset
      cases hset
    -- the bit that `set_type` comes upon is visible and leads to the insert of the chunk
    obtain ⟨p, hcases, hlook⟩ := h.lookup_cases hz hspace hc hx.1 hx.2 q h32
    rw [h.setTypeLocate_eq hxA hone, hlook, Option.map_some] at hset
    have hfound := congrArg Prod.fst (Option.some.inj hset)
    split at hfound
    · rename_i hvisible
      have hins : insertForChunk p sizefn = insertAddr c :=
        congrArg Prod.fst (Option.some.inj hfound)
      rcases hcases with ⟨rfl, hno⟩ | ⟨hst, hbetween⟩
      · refine ⟨hone, hno, fun hp => ?_, fun _ => hvisible⟩
        obtain ⟨n, hn⟩ := h.promoted c hc hp
        obtain rfl : n = b := Option.some.inj
          ((hz.leafBigallocFor_promoted h hc hn hx.1 hx.2).symm.trans hleaf)
        rw [getInfoLocate_promoted hn sizefn] at hget
        have hget' := congrArg Prod.fst (Option.some.inj (congrArg Prod.fst (Option.some.inj hget)))
        rw [insertAddr_eq (Nat.le_of_add_left_le hsize)] at hget'
        omega
      · exfalso
        have hp8 := helse p fun d hd => (h.stale_ptr p hst).2.2 d hd
        rw [insertForChunk, callerUsableSizeForChunk, hp8, callerUsableSize_eq le_rfl,
          insertAddr_eq (Nat.le_of_add_left_le hsize), insertForChunkAndCallerUsableSize] at hins
        omega
    · cases hfound
  · obtain ⟨b, base, size, hleaf, hloc⟩ := ha.getInfo env h hz hspace hc hx.1 hx.2 h32
      (hsizefn c hc)
    exact ⟨b, base, size, m, hleaf, hloc⟩
  · obtain ⟨start, size, hloc⟩ := ha.setType env h hz hspace hc hx.1 hx.2 h32 (hsizefn c hc)
    exact ⟨start, size, m, hloc⟩
  · obtain ⟨start, size, hloc⟩ := ha.setType env h hz hspace hc hx.1 hx.2 h32 (hsizefn c hc)
    have hset : m.genericMallocSetType env al q x u sizefn = some (none, { m with
        inserts := Function.update m.inserts (insertAddr c)
          ((m.inserts (insertAddr c)).setType q u) }) := by
      unfold genericMallocSetType
      rw [hloc]
      simp [some_bind, Option.pure_def]
    generalize hf' : Function.update m.inserts (insertAddr c)
      ((m.inserts (insertAddr c)).setType q u) = f at hset
    have hread : f (insertAddr c) = (m.inserts (insertAddr c)).setType q u := by
      rw [← hf', Function.update_self]
    have ha' : InsertAgreed q { m with inserts := f } es c x :=
      ⟨ha.started, ha.noStale, ha.room, ha.visible⟩
    obtain ⟨b, base, size, hleaf, hloc'⟩ := ha'.getInfo env (h.of_inserts f) (hz.of_inserts f)
      hspace hc hx.1 hx.2 h32 (hsizefn c hc)
    obtain ⟨o, m₂, hget, herr, htype⟩ := genericMallocGetInfo_type hloc'
    dsimp only at herr htype
    rw [hread, Insert.setType, Insert.extract_typed _ h8 h35 hu] at herr htype
    exact ⟨_, b, o, m₂, hset, hleaf, hget, herr, htype⟩

/-- The small chunk again. -/
theorem sameInsert_sample : ∃ m,
    Runs sampleEnv .genericMalloc 1 sampleArena sampleEvents m
      ∧ SameInsert sampleEnv .genericMalloc {} m sampleSizes sampleSmall 1048600 := by
  obtain ⟨m, hrun, hspace, h32⟩ := exists_runs
    (P := fun m => 131072 ≤ (m.table 1).begin ∧ m.info.bitOf 1048600 < 2 ^ 32)
    sampleEvents_fits (by decide +kernel)
  refine ⟨m, hrun, (sameInsert_iff sampleEnv .genericMalloc 1 sampleArena m _ {} sampleSmall 1048600
    sampleArena_start hrun sampleEvents_requested hspace (mem_sampleEvents.mpr (.inr rfl)) (by decide)
    h32).1.mpr
      ⟨by omega, fun p hp => ?_, fun hp => absurd hp (by decide), fun hp => absurd hp (by decide)⟩
      _ fun d hd => sampleSizes_eq hd⟩
  simp [sampleEvents_stale] at hp

/-- The chunk of 200,000 bytes with sixteen more behind the insert. -/
def samplePadded : Chunk := { sampleChunk with usable := 200032 }

/-- Its insert is at 1248600.  A query reads the one at 1248584, and setting its type from far inside
finds none. -/
theorem sameInsert_fails : ∃ m m₁ m₂,
    Runs sampleEnv .genericMalloc 1 sampleArena [.insert samplePadded] m
      ∧ insertAddr samplePadded = 1248600 ∧ m.table.leafBigallocFor 1200000 = some 2
      ∧ m.getInfoLocate sampleEnv .genericMalloc {} (fun _ => 200032) 1200000 2
        = some (some (1248584, 1048576, 200000), m₁)
      ∧ m.genericMallocSetType sampleEnv .genericMalloc {} 1200000 (2 ^ 40) (fun _ => 200032)
        = some (some .unindexedHeapObject, m₂) := by
  obtain ⟨m, hrun, hleaf, ⟨_, m₁, hget, rfl⟩, _, m₂, hset, rfl⟩ := exists_runs
    (l := [.insert samplePadded]) (P := fun m => m.table.leafBigallocFor 1200000 = some 2
      ∧ (∃ found m₁, m.getInfoLocate sampleEnv .genericMalloc {} (fun _ => 200032) 1200000 2
        = some (found, m₁) ∧ found = some (1248584, 1048576, 200000))
      ∧ ∃ err m₂, m.genericMallocSetType sampleEnv .genericMalloc {} 1200000 (2 ^ 40)
        (fun _ => 200032) = some (err, m₂) ∧ err = some .unindexedHeapObject)
    (by decide) (by decide +kernel)
  exact ⟨m, m₁, m₂, hrun, by decide, hleaf, hget, hset⟩

end Liballocs.MallocIndex
