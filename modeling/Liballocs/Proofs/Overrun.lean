/-
Requests that run past the end of a mapping sequence.

`do_mmap` hands `augment_sequence` such a mapping and takes it that the sequence then ends where the
mapping does.  But the overlap branch never touches the sequence's end, and splitting an entry that
ends before the request leaves one that begins behind its own end.
-/
import Liballocs.Proofs.Affected

namespace Liballocs.MappingSequence

open Segments

variable {s s' : MappingSequence} {r : Mapping} {objectBelow : Nat → Nat}

/-- What `do_mmap` relies on after a request that runs past the end. -/
structure Overran (s : MappingSequence) (r : Mapping) (s' : MappingSequence) : Prop where
  sane : s'.Sane
  begin_eq : s'.begin = s.begin
  end_eq : s'.end_ = r.end_
  inside : ∀ a, r.begin ≤ a → a < r.end_ → s'.findEntry a = some r.entry
  below : ∀ a < r.begin, (s'.findEntry a).map MappingEntry.attributes
    = (s.findEntry a).map MappingEntry.attributes

/-- Does a request past the end pass the tests of `augment_sequence`?  The last entry is always the
last affected one, and counts as partly overlapped. -/
def admitsOverrun (objectBelow : Nat → Nat) (s : MappingSequence) (r : Mapping) : Bool :=
  let beginPartial := s.begin != r.begin
  decide (s.nused + beginPartial.toNat + 1 ≤ mappingSequenceMaxLen)
    && (s.firstOverlapped r).any fun first =>
      s.overlapFilenameIsConsistent objectBelow r first (s.nused - 1) beginPartial true

/-- The first affected entry begins before the request unless both begin with the sequence. -/
theorem Divides.begin_bne {pre mid post : List MappingEntry} {x y : MappingEntry}
    (h : Divides s r pre mid post x y) (hs : s.Sane) :
    (x.begin != r.begin) = (s.begin != r.begin) := by
  obtain ⟨ms, rfl⟩ := List.head?_eq_some_iff.mp h.head
  have hc := hs.contig
  rw [h.entries] at hc
  obtain ⟨m, hpre, hxm, -, -⟩ := contig_append.mp hc
  have hxm : x.begin = m := hxm
  cases pre with
  | nil =>
    have hm : s.begin = m := hpre
    rw [hxm, hm]
  | cons a l =>
    have hle : s.begin ≤ a.begin ∧ a.begin < a.end_ := by
      have hb := hpre.mem_bounds (List.mem_cons_self (a := a) (l := l))
      exact ⟨hb.1, hb.2.1⟩
    have hlt : a.end_ < r.begin := h.pre_lt a List.mem_cons_self
    have hxlt : x.begin ≠ r.begin := by
      obtain ⟨b, hb⟩ : ∃ b, (a :: l).getLast? = some b := ⟨_, List.getLast?_cons⟩
      obtain ⟨init, hinit⟩ := List.getLast?_eq_some_iff.mp hb
      rw [hinit] at hpre
      obtain ⟨k, -, -, -, hbm⟩ := contig_append.mp hpre
      have hbm : b.end_ = m := hbm
      have hbr := h.pre_lt b (List.mem_of_getLast? hb)
      omega
    have hslt : s.begin ≠ r.begin := by omega
    rw [bne_iff_ne.mpr hxlt, bne_iff_ne.mpr hslt]

/-- The call, for a request that runs past the end. -/
theorem Sane.augmentSequence_overrun (hs : s.Sane) (objectBelow : Nat → Nat)
    (hb : s.begin ≤ r.begin) (hlt : r.begin < s.end_) (hgt : s.end_ < r.end_) :
    if s.admitsOverrun objectBelow r = true then
      ∃ s', s.augmentSequence objectBelow r = some (true, s') ∧ s'.header = s.header
    else s.augmentSequence objectBelow r = some (false, s) := by
  obtain ⟨pre, mid, post, x, y, hd, -⟩ := hs.exists_divides hb hlt (by omega)
  obtain ⟨hf, hfx⟩ := hd.firstOverlapped hs.le
  obtain ⟨last, hl, hlast, hly⟩ := hd.lastOverlapped
  obtain ⟨-, hye, rfl⟩ := hd.overrun hs hgt
  obtain rfl : last = s.nused - 1 := by
    have hlen := congrArg List.length hd.entries
    simp only [length_entries, List.length_append, List.length_nil] at hlen
    omega
  have hep : (y.end_ != r.end_) = true := by
    rw [bne_iff_ne]
    omega
  have hclean : (s.end_ == 0 || s.end_ == r.begin) = false := by
    rw [Bool.or_eq_false_iff, beq_eq_false_iff_ne, beq_eq_false_iff_ne]
    omega
  have hov : overlaps s.begin s.end_ r.begin r.end_ = true := by
    rw [overlaps, Bool.and_eq_true, decide_eq_true_iff, decide_eq_true_iff]
    omega
  unfold augmentSequence admitsOverrun
  simp only [hclean, hov, hf, hl, hfx, hly, hd.begin_bne hs, hep, Bool.false_or,
    Bool.false_eq_true, if_false, Option.bind_eq_bind, Option.bind_some, Option.any_some,
    Bool.and_eq_true, decide_eq_true_iff, ge_iff_le, true_and, hb, Bool.toNat_true]
  by_cases hroom : s.nused + (s.begin != r.begin).toNat + 1 ≤ mappingSequenceMaxLen
  · have hmany : s.nused ≠ mappingSequenceMaxLen := by omega
    have hspare : ¬ mappingSequenceMaxLen - s.nused < (s.begin != r.begin).toNat + 1 := by omega
    simp only [hroom, hmany, hspare, true_and, ne_eq, not_false_eq_true, if_true, if_false]
    cases s.overlapFilenameIsConsistent objectBelow r pre.length (s.nused - 1)
        (s.begin != r.begin) true with
    | true =>
      refine ⟨_, rfl, ?_⟩
      exact header_overwrite ..
    | false => rfl
  · have hspare : mappingSequenceMaxLen - s.nused < (s.begin != r.begin).toNat + 1 := by omega
    simp only [hroom, hspare, false_and, if_false, if_true]
    split
    · split <;> rfl
    · rfl

/-- **A request past the end is handled only when it is turned down.**  Every accepted one leaves the
sequence with the end it had. -/
theorem augmentSequence_overran_iff (objectBelow : Nat → Nat) (s : MappingSequence) (r : Mapping)
    (hs : s.Sane) (hb : s.begin ≤ r.begin) (hlt : r.begin < s.end_) (hgt : s.end_ < r.end_) :
    (∀ s', s.augmentSequence objectBelow r = some (true, s') → Overran s r s')
      ↔ s.admitsOverrun objectBelow r = false := by
  have hcall := hs.augmentSequence_overrun objectBelow hb hlt hgt
  cases hadm : s.admitsOverrun objectBelow r with
  | true =>
    rw [if_pos hadm] at hcall
    obtain ⟨s', hcall, hheader⟩ := hcall
    refine iff_of_false ?_ Bool.true_eq_false.mp
    intro h
    have hend : s'.end_ = s.end_ := (Prod.mk.inj (Prod.mk.inj hheader).2).1
    have hnew := (h s' hcall).end_eq
    omega
  | false =>
    rw [if_neg (by rw [hadm]; exact Bool.false_ne_true)] at hcall
    refine iff_of_true ?_ rfl
    intro s' h
    rw [hcall] at h
    cases h

/-- Two pages, and a mapping of two pages from their middle: the sequence keeps its end, and its last
entry is left backwards. -/
theorem augmentSequence_overrun_keeps_end :
    let s : MappingSequence := extend {} ⟨4096, 12288, 3, 2, 0, none, 0⟩
    let r : Mapping := ⟨8192, 16384, 3, 2, 0, none, 0⟩
    s.Sane ∧ ∃ s', s.augmentSequence id r = some (true, s') ∧ s'.end_ = 12288
      ∧ s'.entries.map (fun e => (e.begin, e.end_)) = [(4096, 8192), (8192, 16384), (16384, 12288)]
      ∧ ¬ Overran s r s' := by
  intro s r
  refine ⟨⟨by decide, by decide, by decide, by decide⟩, _, rfl, rfl, rfl, ?_⟩
  intro h
  have hend : (12288 : Nat) = 16384 := h.end_eq
  omega

/-- Of a sequence of one file, a mapping of another one is turned down. -/
theorem augmentSequence_overran_other_file :
    let s : MappingSequence := extend {} ⟨4096, 12288, 3, 2, 0, some "a", 0⟩
    let r : Mapping := ⟨8192, 16384, 3, 2, 0, some "b", 0⟩
    ∀ s', s.augmentSequence id r = some (true, s') → Overran s r s' := by
  intro s r
  exact (augmentSequence_overran_iff id s r ⟨by decide, by decide, by decide, by decide⟩
    (by decide) (by decide) (by decide)).mpr (by decide)

end Liballocs.MappingSequence
