/-
The room that the hooks make for the insert of a chunk.

The hook asks for eight bytes more, rounded up to words, and the insert goes into the last eight.  For
the fifteen largest requests the sum wraps around, and the insert lies inside the caller's bytes.
-/
import Liballocs.MallocHooks
import Liballocs.Proofs.ArenaBitmap
import Liballocs.Proofs.LinearMallocIndex

namespace Liballocs

variable {r : Nat}

/-! ### The size that is asked for -/

theorem preAlloc_eq (h : r + 16 ≤ 2 ^ 64) : preAlloc r = (r + 7) / 8 * 8 + 8 := by
  unfold preAlloc chunkSizeWithTrailer padToAlign sizeofInsert
  rw [Nat.mod_eq_of_lt (show r + 8 < 2 ^ 64 by omega)]
  split
  · omega
  · omega

theorem preAlloc_wraps (h : 2 ^ 64 < r + 16) (hr : r < 2 ^ 64) : preAlloc r ≤ 8 := by
  unfold preAlloc chunkSizeWithTrailer padToAlign sizeofInsert
  split
  · omega
  · omega

namespace MallocIndex

open Table

/-! ### The insert -/

/-- Whatever chunk the heap gives for a request of `r` bytes through the hook, the insert is written
inside the chunk and behind the first `r` bytes, and nowhere else. -/
def InsertsBehind (r : Nat) : Prop :=
  ∀ (env : Env) (al : Allocator) (m m' : MallocIndex) (ptr caller p : Nat) (sizefn : Nat → Nat),
    0 < ptr → ptr + sizefn ptr ≤ 2 ^ 64 → preAlloc r ≤ sizefn ptr →
    m.genericMallocIndexInsert env al ptr r caller sizefn = some (p, m') →
    (∀ x, x ≠ p → m'.inserts x = m.inserts x)
      ∧ ptr + r ≤ p ∧ p + sizeofInsert ≤ ptr + sizefn ptr

/-- **Inserts are clear of the requested bytes exactly if the size does not wrap around.** -/
theorem insertsBehind_iff (r : Nat) (hr : r < 2 ^ 64) : InsertsBehind r ↔ r + 16 ≤ 2 ^ 64 := by
  constructor
  · intro h
    by_contra hbig
    have hbig : 2 ^ 64 < r + 16 := Nat.lt_of_not_le hbig
    -- a chunk of 24 bytes behind the small one of the samples, whose word of the bitmap is there
    obtain ⟨m, -, hreturns⟩ : ∃ m, sampleAfter [.insert sampleSmall] = some m
        ∧ ∀ k < 16, (m.genericMallocIndexInsert sampleEnv .genericMalloc 1048704 (2 ^ 64 - k) 0
          fun _ => 24).isSome := by
      decide +kernel
    have hsome := hreturns (2 ^ 64 - r) (by omega)
    rw [Nat.sub_sub_self hr.le] at hsome
    obtain ⟨⟨p, m'⟩, hrun⟩ := Option.isSome_iff_exists.mp hsome
    have hasked := preAlloc_wraps hbig hr
    obtain ⟨-, h1, h2⟩ := h _ _ _ m' 1048704 0 p _ (by omega) (by omega) (by omega) hrun
    omega
  · intro h env al m m' ptr caller p sizefn _ _ hasked hrun
    obtain ⟨_, _, _, hi⟩ := genericMallocIndexInsert_eq_some hrun
    rw [preAlloc_eq h] at hasked
    have hpos : p = ptr + (sizefn ptr - 8) := by
      rw [hi.insert, insertForChunk, insertForChunkAndCallerUsableSize, callerUsableSizeForChunk,
        callerUsableSizeForChunkAndUsableSize, sub64, sizeofInsert, if_pos (by omega)]
    refine ⟨?_, ?_, ?_⟩
    · intro x hx
      rw [hi.inserts, Function.update_of_ne hx]
    · omega
    · rw [sizeofInsert]
      omega

theorem insertsBehind_hundred : InsertsBehind 100 :=
  (insertsBehind_iff 100 (by decide)).mpr (by decide)

/-- For a request of 2^64 - 8 bytes the heap is asked for none.  It gives 24 bytes, behind a chunk that
is there, and the insert goes into the last eight, which the caller asked for. -/
theorem insert_inside_request : preAlloc (2 ^ 64 - 8) = 0
    ∧ (∃ m, Runs sampleEnv .genericMalloc 1 sampleArena [.insert sampleSmall] m
      ∧ (m.genericMallocIndexInsert sampleEnv .genericMalloc 1048704 (2 ^ 64 - 8) 0
        fun _ => 24).map Prod.fst = some (1048704 + 16))
    ∧ 1048704 + 16 < 1048704 + (2 ^ 64 - 8) :=
  ⟨by decide, exists_runs (by decide) (by decide +kernel), by decide⟩

end MallocIndex

end Liballocs
