/-
When the private heap's bitmap has its live chunks.

It goes wrong at a request that fails to resize a chunk, whose bit has been cleared, and at
`posix_memalign`, which tests the result the wrong way round.  Freeing null looks for the heap at zero.
-/
import Liballocs.PrivateMalloc
import Mathlib.Tactic.Common

namespace Liballocs.PrivateHeap

variable {s : PrivateHeap} {i p : Nat} {call : PrivateCall}

/-- Where the chunk of a bit starts. -/
def addr (s : PrivateHeap) (i : Nat) : Nat := s.begin + i * privateMallocAlign

/-- The address may be that of a chunk. -/
def IsChunk (s : PrivateHeap) (p : Nat) : Prop := 0 < p ∧ p < s.end_ ∧ ∃ i, s.addr i = p

/-- The bits that are set are those of the live chunks. -/
structure Exact (s : PrivateHeap) : Prop where
  live : s.live = s.bitmap.image s.addr
  chunk : ∀ p ∈ s.live, s.IsChunk p

/-- The wrapped functions take live chunks or null, and return a chunk or null. -/
def Valid (s : PrivateHeap) : PrivateCall → Prop
  | .dlmalloc ret | .dlcalloc ret | .dlmemalign ret => ret ≠ 0 → s.IsChunk ret
  | .dlfree ptr => ptr = 0 ∨ ptr ∈ s.live
  | .dlrealloc ptr _ ret => (ptr = 0 ∨ ptr ∈ s.live) ∧ (ret ≠ 0 → s.IsChunk ret)
  | .dlposixMemalign memptr ret => ret = 0 → s.IsChunk memptr

/-- Null is not freed, no resizing fails, and `posix_memalign` fails with a live chunk at its pointer.
-/
def Harmless (s : PrivateHeap) : PrivateCall → Prop
  | .dlfree ptr => ptr ≠ 0
  | .dlrealloc ptr size ret => ptr ≠ 0 → size ≠ 0 → ret ≠ 0
  | .dlposixMemalign memptr ret => ret ≠ 0 ∧ memptr ∈ s.live
  | _ => True

/-- All calls of a run are such, each in the state it is made in. -/
def Allowed : PrivateHeap → List PrivateCall → Prop
  | _, [] => True
  | s, call :: calls => s.Valid call ∧ s.Harmless call ∧ ∀ s' ∈ s.step call, s'.Allowed calls

theorem addr_injective (s : PrivateHeap) : Function.Injective s.addr := fun i j h => by
  unfold addr privateMallocAlign at h
  omega

theorem IsChunk.bitOf_eq (h : s.IsChunk p) : ∃ i, s.addr i = p ∧ s.bitOf p = some i := by
  obtain ⟨-, hlt, i, rfl⟩ := h
  refine ⟨i, rfl, (if_pos ⟨Nat.le_add_right _ _, hlt⟩).trans (congrArg some ?_)⟩
  rw [addr, Nat.add_sub_cancel_left, Nat.mul_div_cancel i (by decide)]

theorem Exact.allocated (h : s.Exact) (hret : p ≠ 0 → s.IsChunk p) :
    ∃ s', s.allocated p = some s' ∧ s'.Exact := by
  unfold PrivateHeap.allocated
  split
  · next hp =>
    have hchunk := hret hp
    obtain ⟨i, rfl, hbit⟩ := hchunk.bitOf_eq
    refine ⟨{ s with bitmap := insert i s.bitmap, live := insert (s.addr i) s.live }, ?_, ?_,
      Finset.forall_mem_insert _ _ _ |>.mpr ⟨hchunk, h.chunk⟩⟩
    · have hbit : bitOf { s with live := insert (s.addr i) s.live } (s.addr i) = some i := hbit
      rw [setMetadata, hbit]
      rfl
    · exact (congrArg _ h.live).trans (Finset.image_insert _ _ _).symm
  · exact ⟨s, rfl, h⟩

/-- The bit of a live chunk is cleared, and the chunk goes. -/
theorem Exact.cleared (h : s.Exact) (hp : p ∈ s.live) :
    ∃ bitmap, s.clearMetadata p = some { s with bitmap := bitmap }
      ∧ ({ s with bitmap := bitmap, live := s.live.erase p } : PrivateHeap).Exact := by
  obtain ⟨i, rfl, hbit⟩ := (h.chunk p hp).bitOf_eq
  refine ⟨s.bitmap.erase i, by rw [clearMetadata, hbit]; rfl, ?_,
    fun q hq => h.chunk q (Finset.mem_of_mem_erase hq)⟩
  rw [h.live]
  exact (Finset.image_erase s.addr_injective _ _).symm

theorem Exact.step (h : s.Exact) (hv : s.Valid call) (hh : s.Harmless call) :
    ∃ s', s.step call = some s' ∧ s'.Exact := by
  cases call with
  | dlmalloc ret => exact h.allocated hv
  | dlcalloc ret => exact h.allocated hv
  | dlmemalign ret => exact h.allocated hv
  | dlfree ptr =>
    obtain ⟨bitmap, hclear, hexact⟩ := h.cleared (hv.resolve_left hh)
    exact ⟨_, by rw [PrivateHeap.step, hclear]; rfl, hexact⟩
  | dlposixMemalign memptr ret =>
    obtain ⟨s', hs', hexact⟩ := h.allocated fun _ => h.chunk memptr hh.2
    rw [PrivateHeap.allocated, if_pos (h.chunk memptr hh.2).1.ne', Finset.insert_eq_of_mem hh.2] at hs'
    exact ⟨s', (if_pos hh.1).trans hs', hexact⟩
  | dlrealloc ptr size ret =>
    by_cases hptr : ptr = 0
    · subst hptr
      have hzero : s.live.erase 0 = s.live :=
        Finset.erase_eq_of_notMem fun h0 => (h.chunk 0 h0).1.ne' rfl
      by_cases hsize : size = 0
      · exact ⟨s, by simp [PrivateHeap.step, hsize, hzero], h⟩
      · by_cases hret : ret = 0
        · exact ⟨s, by simp [PrivateHeap.step, hsize, hret], h⟩
        · simpa [PrivateHeap.step, hsize, hret, hzero] using h.allocated hv.2
    · obtain ⟨bitmap, hclear, hexact⟩ := h.cleared (hv.1.resolve_left hptr)
      by_cases hsize : size = 0
      · exact ⟨_, by simp [PrivateHeap.step, hptr, hclear, hsize], hexact⟩
      · simpa [PrivateHeap.step, hptr, hclear, hsize, hh hptr hsize] using hexact.allocated hv.2

/-- **The bitmap is exact after every run** in which null is not freed, no resizing fails, and every
`posix_memalign` fails with a live chunk at its pointer. -/
theorem run_exact (s : PrivateHeap) (calls : List PrivateCall) (h : s.Exact)
    (hcalls : s.Allowed calls) : ∃ s', s.run calls = some s' ∧ s'.Exact := by
  induction calls generalizing s with
  | nil => exact ⟨s, rfl, h⟩
  | cons call calls ih =>
    obtain ⟨hv, hh, hrest⟩ := hcalls
    obtain ⟨s₁, hs₁, h₁⟩ := h.step hv hh
    obtain ⟨s', hs', h'⟩ := ih s₁ h₁ (hrest s₁ hs₁)
    exact ⟨s', by rw [run, hs₁]; exact hs', h'⟩

/-- A heap of one page. -/
def emptyHeap : PrivateHeap := ⟨0x1000, 0x2000, ∅, ∅⟩

theorem run_exact_sample :
    ∃ s', emptyHeap.run [.dlcalloc 0x1010, .dlrealloc 0x1010 64 0x1010] = some s' ∧ s'.Exact := by
  have hchunk : emptyHeap.IsChunk 0x1010 := ⟨by decide, by decide, 1, rfl⟩
  refine run_exact _ _ ⟨rfl, by simp [emptyHeap]⟩ ⟨fun _ => hchunk, trivial, ?_⟩
  rintro _ ⟨⟩
  exact ⟨⟨.inr (by decide), fun _ => hchunk⟩, by simp [Harmless], fun _ _ => trivial⟩

/-- **A failed resizing hides a chunk**, and so does `posix_memalign` when it succeeds: the chunk is
live and no bit is set.  Freeing null does not find the heap. -/
theorem run_inexact :
    ((emptyHeap.run [.dlmalloc 0x1010, .dlrealloc 0x1010 64 0]).map fun s => (s.live, s.bitmap))
      = some ({0x1010}, ∅)
    ∧ ((emptyHeap.run [.dlposixMemalign 0x1010 0]).map fun s => (s.live, s.bitmap))
      = some ({0x1010}, ∅)
    ∧ (emptyHeap.run [.dlfree 0]).isNone := by decide

end Liballocs.PrivateHeap
