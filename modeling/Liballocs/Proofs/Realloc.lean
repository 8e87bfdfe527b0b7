/-
What the hooks around a reallocation do to the index.

The second hook inserts the chunk with the request rounded up to words.  If the chunk has not moved
and has shrunk, it also cuts the new bigalloc to the size that the heap was asked for.  This shows for
promoted chunks only, since the index keeps no other sizes.
-/
import Liballocs.Proofs.MallocHooks

namespace Liballocs.MallocIndex

open Forest

open Table

variable {env : Env} {al : Allocator} {ctx : AllocContext} {A n p ptr r caller e b : Nat}
  {c c' d : Chunk} {m m' m₁ : MallocIndex} {es : List Event} {sizefn : Nat → Nat} {t : Table}

/-! ### The two hooks -/

theorem reallocHooks_eq_some_iff {size old new : Nat} (hnew : new = 0 ∨ new = ptr) :
    m.reallocHooks env al ctx ptr size old caller new sizefn = some (p, m') ↔
      ∃ m₁ m2 b t, m.genericMallocIndexDelete env al ptr = some m₁
        ∧ m₁.genericMallocIndexInsert env al ptr (requestedSizeAfterRealloc ctx (preAlloc size))
          (ctx.siteOr caller) sizefn = some (p, m2)
        ∧ m2.table.findBigallocFromTop env ptr al false = some (b, t)
        ∧ (if new = ptr ∧ preAlloc size < old ∧ b ≠ 0 then
            t.truncateBigallocAtEnd env b (ptr + preAlloc size) else some t) = some m'.table
        ∧ m' = { m2 with table := m'.table } := by
  have hstay : ¬ (new ≠ 0 ∧ new ≠ ptr) := by
    rintro ⟨h1, h2⟩
    exact hnew.elim h1 h2
  unfold reallocHooks preNonnullNonzeroRealloc postNonnullNonzeroRealloc
    genericMallocIndexReinsertAfterResize lookupBigallocFromRoot
  simp only [if_neg hstay, Option.bind_eq_bind, Option.bind_eq_some_iff, Prod.exists]
  constructor
  · rintro ⟨m₁, hdel, ins, m2, hins, b, t, hfind, hrest⟩
    split at hrest
    · rename_i hcond
      obtain ⟨t', htr, hrest⟩ := of_bind hrest
      obtain ⟨rfl, rfl⟩ := Prod.mk.inj (Option.some.inj hrest)
      exact ⟨m₁, m2, b, t, hdel, hins, hfind, by rw [if_pos hcond]; exact htr, rfl⟩
    · rename_i hcond
      obtain ⟨rfl, rfl⟩ := Prod.mk.inj (Option.some.inj hrest)
      exact ⟨m₁, m2, b, t, hdel, hins, hfind, by rw [if_neg hcond], rfl⟩
  · rintro ⟨m₁, m2, b, t, hdel, hins, hfind, htable, hm'⟩
    refine ⟨m₁, hdel, p, m2, hins, b, t, hfind, ?_⟩
    split at htable
    · rename_i hcond
      rw [if_pos hcond, htable, hm']
      rfl
    · rename_i hcond
      rw [if_neg hcond, Option.some.inj htable, hm']
      rfl

section

variable (hr : r + 16 ≤ 2 ^ 64) (hctx : ctx.currentAllocsz = 0 ∨ ctx.currentAllocsz = r)
include hr hctx

theorem requestedSizeAfterRealloc_eq :
    requestedSizeAfterRealloc ctx (preAlloc r)
      = if ctx.currentAllocsz ≠ 0 then r else (r + 7) / 8 * 8 := by
  unfold requestedSizeAfterRealloc
  split
  · rename_i h0
    exact hctx.resolve_left h0
  · exact LinearMalloc.reallocSize_eq hr

theorem requestedSizeAfterRealloc_bounds :
    r ≤ requestedSizeAfterRealloc ctx (preAlloc r)
      ∧ requestedSizeAfterRealloc ctx (preAlloc r) + 8 ≤ preAlloc r := by
  rw [requestedSizeAfterRealloc_eq hr hctx, preAlloc_eq hr]
  split <;> omega

/-- It is the requested size for instrumented callers and for whole words. -/
theorem requestedSizeAfterRealloc_eq_iff :
    requestedSizeAfterRealloc ctx (preAlloc r) = r ↔ ctx.currentAllocsz ≠ 0 ∨ 8 ∣ r := by
  rw [requestedSizeAfterRealloc_eq hr hctx]
  split <;> omega

end

/-! ### Inserting the chunk again -/

theorem Indexed.fits_deleted (h : Indexed al A m es) (hc : c ∈ live es)
    (hdel : m.genericMallocIndexDelete env al c.ptr = some m₁) (hf : Fits m.table al A d) :
    Fits m₁.table al A d := by
  rcases h.delete_cases hc hdel with ⟨-, -, -, k, hk, hr⟩ | ⟨-, ht, -⟩
  · obtain ⟨hframe, hA⟩ := h.delete_frame hk hr
    exact hframe.fits hA hf
  · rw [ht]
    exact hf

theorem ensureHasBitmapTo_congr {info : ArenaBitmapInfo} {e' : Nat}
    (h : roundUp e wordBytes = roundUp e' wordBytes) :
    info.ensureHasBitmapTo e = info.ensureHasBitmapTo e' := by
  unfold wordBytes at h
  unfold ArenaBitmapInfo.ensureHasBitmapTo
  simp [h]

/-- Under the threshold, the requested size only says how far the bitmap has to reach. -/
theorem Indexed.insert_congr {r' : Nat} (h : Indexed al A m es)
    (hin : ∀ x, ptr ≤ x → x < ptr + sizefn ptr → x ∈ m.table.addrs A) (hpos : 0 < r) (hle : r ≤ r')
    (hle' : r' ≤ sizefn ptr) (hround : roundUp (ptr + r) wordBytes = roundUp (ptr + r') wordBytes)
    (hp : shouldPromoteToBigalloc (sizefn ptr) = false) :
    m.genericMallocIndexInsert env al ptr r caller sizefn
      = m.genericMallocIndexInsert env al ptr r' caller sizefn := by
  have hfind : ∀ x, ptr ≤ x → x < ptr + sizefn ptr →
      m.table.findBigallocFromTop env x al true = some (A, m.table) := by
    intro x h1 h2
    exact h.arena.find_suballocator h.wellFormed (hin x h1 h2)
  have hend : ptr + sizefn ptr ≤ 2 ^ 64 := by
    have hlast := (hin (ptr + sizefn ptr - 1) (by omega) (by omega)).2
    have hle := h.arena.end_le.trans (Nat.sub_le _ _)
    omega
  unfold genericMallocIndexInsert
  dsimp only
  rw [lastByte_eq (by omega) (by omega), lastByte_eq (by omega) (by omega), hfind _ (by omega)
    (by omega), hfind (ptr + r' - 1) (by omega) (by omega), ensureHasBitmapTo_mod,
    ensureHasBitmapTo_mod, ensureHasBitmapTo_congr hround]
  simp [some_bind, hp, Bool.false_eq_true]

theorem truncateBigallocAtEnd_record {t' : Table} (h : t.truncateBigallocAtEnd env b e = some t') :
    (t' b).end_ = e ∧ (t' b).begin = (t b).begin ∧ t'.up b = t.up b := by
  obtain ⟨pages, -, h⟩ := of_bind h
  obtain rfl := Option.some.inj h
  simp [Table.modify, up]

/-- What begins right under the arena with a promoted chunk is its bigalloc. -/
theorem Indexed.end_of_begin (h : Indexed al A m es) (hc : c ∈ live es) (hp : c.promoted)
    (hn : m.table.InUse n) (hup : m.table.up n = A)
    (hbegin : (m.table n).begin = c.ptr) : (m.table n).end_ = c.ptr + c.requested := by
  obtain ⟨k, hk⟩ := h.promoted c hc hp
  rw [h.wellFormed.eq_of_begin hn hk.inUse (hup.trans hk.up_eq.symm)
    (hbegin.trans hk.begin_eq.symm), hk.end_eq]

/-! ### A reallocation in place -/

/-- The second hook leaves a promoted chunk as an insertion does only if it has the right size and has
cut nothing. -/
theorem Indexed.hooks_promoted (h : Indexed al A m₁ es) (hf : Fits m₁.table al A c)
    (hap : ∀ d ∈ live es, c.Apart d) (hp : c.promoted) (hi : Indexed al A m' (.insert c :: es))
    {m2 : MallocIndex} {old size req : Nat} (hreq : 0 < req) (hroom : req + 8 ≤ c.usable)
    (hsize : c.requested < size)
    (hins : m₁.genericMallocIndexInsert env al c.ptr req c.caller (fun _ => c.usable) = some (p, m2))
    (hfind : m2.table.findBigallocFromTop env c.ptr al false = some (b, t))
    (htable : (if size < old ∧ b ≠ 0 then t.truncateBigallocAtEnd env b (c.ptr + size) else some t)
      = some m'.table) : req = c.requested ∧ old ≤ size := by
  have hi2 := h.insert (c := ⟨c.ptr, req, c.usable, c.caller⟩) ⟨hf.aligned, hf.begin_le, hf.le_end,
    hroom, hf.clear⟩ hreq hap hins
  obtain ⟨k, hk⟩ := hi2.promoted _ (.inl rfl) hp
  have hfind' := hi2.find_promoted env (.inl rfl) hk
  obtain ⟨rfl, rfl⟩ := Prod.mk.inj (Option.mem_unique hfind hfind')
  obtain ⟨hu, hup, -, hbegin, hend⟩ := hk
  split at htable
  · obtain ⟨hend', hbegin', hup'⟩ := truncateBigallocAtEnd_record htable
    rw [hbegin] at hbegin'
    have hptr := hu.2.2.1
    have hu' : m'.table.InUse b := by
      refine ⟨hu.1, hu.2.1, ?_, ?_⟩
      · rw [hbegin', ← hbegin]
        exact hptr
      · rw [hend']
        omega
    have := hi.end_of_begin (.inl rfl) hp hu' (hup'.trans hup) hbegin'
    omega
  · rename_i hno
    rw [Option.some.inj htable] at hu hup hbegin hend
    have := hi.end_of_begin (.inl rfl) hp hu hup hbegin
    dsimp only at hend
    exact ⟨by omega, Nat.le_of_not_lt fun hlt => hno ⟨hlt, hu.ne_zero⟩⟩

/-- **The hooks around a reallocation in place do the same as a deletion and an insertion exactly if**
the new chunk is under the threshold, or the second hook knows the requested size and no less was
asked for than was usable before. -/
theorem reallocHooks_in_place_iff (env : Env) (al : Allocator) (A : Nat) (ctx : AllocContext)
    (m m₁ m' : MallocIndex) (es : List Event) (c c' : Chunk) (caller p : Nat)
    (h : Indexed al A m es) (hc : c ∈ live es) (hptr : c'.ptr = c.ptr) (hfits : Fits m.table al A c')
    (hpos : 0 < c'.requested) (hapart : ∀ d ∈ live es, d ≠ c → c'.Apart d)
    (haddr : c'.ptr + c'.usable ≤ 2 ^ 64) (hroom : preAlloc c'.requested ≤ c'.usable)
    (hcaller : c'.caller = ctx.siteOr caller)
    (hctx : ctx.currentAllocsz = 0 ∨ ctx.currentAllocsz = c'.requested)
    (hdel : m.genericMallocIndexDelete env al c.ptr = some m₁)
    (hins : m₁.genericMallocIndexInsert env al c'.ptr c'.requested c'.caller (fun _ => c'.usable)
      = some (p, m')) :
    m.reallocHooks env al ctx c.ptr c'.requested c.usable caller c.ptr (fun _ => c'.usable)
        = some (p, m')
      ↔ ¬ c'.promoted
        ∨ (ctx.currentAllocsz ≠ 0 ∨ 8 ∣ c'.requested) ∧ c.usable ≤ preAlloc c'.requested := by
  have hd := h.delete hc hdel
  have hf := h.fits_deleted hc hdel hfits
  have hap : ∀ d ∈ live (.delete c :: es), c'.Apart d := fun d hd => hapart d hd.1 hd.2
  have hi := hd.insert hf hpos hap hins
  have h16 := hfits.aligned
  simp only [mallocAlign] at h16
  have hr : c'.requested + 16 ≤ 2 ^ 64 := by
    have h1 := h.arena.inUse.2.2.1
    have h2 := hfits.begin_le
    have h3 := hfits.size
    omega
  obtain ⟨hle, hle8⟩ := requestedSizeAfterRealloc_bounds hr hctx
  rw [reallocHooks_eq_some_iff (.inr rfl), ← hptr, ← hcaller,
    ← requestedSizeAfterRealloc_eq_iff hr hctx]
  simp only [true_and]
  constructor
  · intro hhooks
    obtain ⟨m1', m2, b, t, hdel', hins', hfind, htable, -⟩ := hhooks
    rw [hptr] at hdel'
    obtain rfl := Option.mem_unique hdel hdel'
    by_cases hp : c'.promoted
    · exact .inr (hd.hooks_promoted hf hap hp hi (by omega) (by omega) (by omega) hins' hfind
        htable)
    · exact .inl hp
  · intro hcond
    refine ⟨m₁, m', ?_⟩
    rw [hptr]
    by_cases hp : c'.promoted
    · obtain ⟨hsize, hold⟩ := hcond.resolve_left (not_not.mpr hp)
      obtain ⟨n, hn⟩ := hi.promoted c' (.inl rfl) hp
      refine ⟨n, m'.table, hdel, by rw [hsize, ← hptr]; exact hins, ?_, ?_, rfl⟩
      · rw [← hptr]
        exact hi.find_promoted env (.inl rfl) hn
      · rw [if_neg fun hlt => hold.not_gt hlt.1]
    · refine ⟨0, m'.table, hdel, ?_, ?_, ?_, rfl⟩
      · rw [← hptr, ← hins]
        refine (hd.insert_congr (fun x h1 h2 => ⟨hf.begin_le.trans h1, Nat.lt_of_lt_of_le h2
          hf.le_end⟩) hpos hle (by omega) ?_ ?_).symm
        · rw [requestedSizeAfterRealloc_eq hr hctx]
          simp only [roundUp, wordBytes, mallocAlign, bitmapWordNbits]
          split <;> omega
        · simpa [Chunk.promoted] using hp
      · rw [← hptr]
        exact hi.find_unpromoted env (.inl rfl) hp
      · rw [if_neg fun h0 => h0.2 rfl]

/-- The promoted chunk of the samples made bigger. -/
def sampleGrown : Chunk := { sampleChunk with requested := 300000, usable := 300016 }

/-- A small chunk above it. -/
def sampleAbove : Chunk := { sampleSmall with ptr := 1572864 }

/-- The promoted chunk and two small ones above it, of which the second is deleted. -/
def reallocEvents : List Event :=
  [.delete { sampleAbove with ptr := 1572992 }, .insert { sampleAbove with ptr := 1572992 },
    .insert sampleAbove, .insert sampleChunk]

theorem mem_reallocEvents : c ∈ live reallocEvents ↔ c = sampleAbove ∨ c = sampleChunk := by
  rw [← mem_liveChunks]
  have hlive : liveChunks reallocEvents = [sampleAbove, sampleChunk] := by decide
  simp [hlive]

theorem reallocHooks_grown : ∃ m m₁ m' p,
    Runs sampleEnv .genericMalloc 1 sampleArena reallocEvents m
      ∧ m.genericMallocIndexDelete sampleEnv .genericMalloc 1048576 = some m₁
      ∧ m₁.genericMallocIndexInsert sampleEnv .genericMalloc 1048576 300000 0 (fun _ => 300016)
        = some (p, m')
      ∧ m.reallocHooks sampleEnv .genericMalloc {} 1048576 300000 200016 0 1048576 (fun _ => 300016)
        = some (p, m') := by
  have hes : sampleFits reallocEvents = true := by decide
  obtain ⟨m, hrun, m₁, hdel, p, m', hins, -⟩ := exists_runs (l := reallocEvents) (P := fun m =>
    ∃ m₁, m.genericMallocIndexDelete sampleEnv .genericMalloc 1048576 = some m₁
      ∧ ∃ p m', m₁.genericMallocIndexInsert sampleEnv .genericMalloc 1048576 300000 0 (fun _ => 300016)
        = some (p, m') ∧ True) hes (by decide +kernel)
  have hreq := sampleFits_requested hes
  have h := hrun.indexed sampleArena_start hreq
  have hfits := hrun.fits sampleArena_start hreq (sampleArena_started.2 sampleGrown (by decide))
  refine ⟨m, m₁, m', p, hrun, hdel, hins, (reallocHooks_in_place_iff sampleEnv .genericMalloc 1 {} m
    m₁ m' _ sampleChunk sampleGrown 0 p h (mem_reallocEvents.mpr (.inr rfl)) rfl hfits (by decide) ?_
    (by decide) (by decide) rfl (.inl rfl) hdel hins).mpr (.inr ⟨.inr (by decide), by decide⟩)⟩
  intro d hd hne
  obtain rfl := (mem_reallocEvents.mp hd).resolve_right hne
  decide

/-- When the chunk shrinks, its bigalloc ends with the insert, not with the request. -/
theorem reallocHooks_shrunk : ∃ m m₁ m' m'' p,
    Runs sampleEnv .genericMalloc 1 sampleArena [.insert sampleChunk] m
      ∧ m.genericMallocIndexDelete sampleEnv .genericMalloc 1048576 = some m₁
      ∧ m₁.genericMallocIndexInsert sampleEnv .genericMalloc 1048576 150000 0 (fun _ => 150016)
        = some (p, m')
      ∧ m.reallocHooks sampleEnv .genericMalloc {} 1048576 150000 200016 0 1048576 (fun _ => 150016)
        = some (p, m'')
      ∧ (m'.table.bigAllocations 2).begin = 1048576
      ∧ (m'.table.bigAllocations 2).end_ = 1048576 + 150000
      ∧ (m''.table.bigAllocations 2).begin = 1048576
      ∧ (m''.table.bigAllocations 2).end_ = 1048576 + 150008 := by
  obtain ⟨m, hrun, m₁, hdel, ⟨p, m'⟩, hins, ⟨p', m''⟩, hhooks, hp, hends⟩ := exists_runs
    (l := [.insert sampleChunk]) (P := fun m =>
      ∃ m₁, m.genericMallocIndexDelete sampleEnv .genericMalloc 1048576 = some m₁
      ∧ ∃ y, m₁.genericMallocIndexInsert sampleEnv .genericMalloc 1048576 150000 0 (fun _ => 150016)
        = some y
      ∧ ∃ z, m.reallocHooks sampleEnv .genericMalloc {} 1048576 150000 200016 0 1048576
        (fun _ => 150016) = some z
      ∧ z.1 = y.1 ∧ (y.2.table.bigAllocations 2).begin = 1048576
      ∧ (y.2.table.bigAllocations 2).end_ = 1048576 + 150000
      ∧ (z.2.table.bigAllocations 2).begin = 1048576
      ∧ (z.2.table.bigAllocations 2).end_ = 1048576 + 150008) (by decide) (by decide +kernel)
  obtain rfl : p' = p := hp
  exact ⟨m, m₁, m', m'', p', hrun, hdel, hins, hhooks, hends⟩

end Liballocs.MallocIndex
