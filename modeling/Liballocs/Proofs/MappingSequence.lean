/-
Mapping sequences as lists.

The live part of the array is read off as a list, and each in-place operation becomes a list operation.
A sequence is *sane* when its entries tile its bounds, as `check_mapping_sequence_sanity` asserts.
-/
import Liballocs.MappingSequence

namespace Liballocs

open Segments

instance : Ranged MappingEntry Nat where
  lo := MappingEntry.begin
  hi := MappingEntry.end_
  withLo a e := { e with begin := a }
  withHi a e := { e with end_ := a }
  lo_withLo _ _ := rfl
  hi_withLo _ _ := rfl
  lo_withHi _ _ := rfl
  hi_withHi _ _ := rfl
  withLo_lo _ := rfl
  withHi_hi _ := rfl

/-- What an entry says about each of its addresses. -/
def MappingEntry.attributes (e : MappingEntry) : Nat × Nat × Bool × Nat :=
  (e.prot, e.flags, e.isAnon, e.caller)

namespace MappingSequence

variable {s : MappingSequence} {pre post p q : List MappingEntry} {x : MappingEntry} {n : Nat}
  {r : Mapping}

/-- The entries in use. -/
def entries (s : MappingSequence) : List MappingEntry := (List.range s.nused).map s.mappings

@[simp] theorem length_entries (s : MappingSequence) : s.entries.length = s.nused := by
  simp [entries]

theorem entries_eq_iff {l : List MappingEntry} :
    s.entries = l ↔ s.nused = l.length ∧ ∀ i < l.length, l[i]? = some (s.mappings i) := by
  constructor
  · rintro rfl
    refine ⟨by simp, fun i hi => ?_⟩
    have hi' : i < s.nused := by simpa using hi
    simp [entries, hi']
  · rintro ⟨hn, hl⟩
    refine List.ext_getElem? fun i => ?_
    by_cases hi : i < l.length
    · rw [hl i hi]
      simp [entries, hn, hi]
    · have h1 : l.length ≤ i := Nat.le_of_not_lt hi
      simp [entries, hn, h1]

theorem mappings_eq (h : s.entries = p ++ x :: q) (hn : n = p.length) : s.mappings n = x := by
  subst hn
  have := (entries_eq_iff.mp h).2 p.length (by simp)
  simpa using this.symm

/-! ### Array operations -/

theorem entries_setMapping (h : s.entries = pre ++ x :: post) (hn : n = pre.length)
    (y : MappingEntry) : (s.setMapping n y).entries = pre ++ y :: post := by
  subst hn
  obtain ⟨hn, hl⟩ := entries_eq_iff.mp h
  refine entries_eq_iff.mpr ⟨by simpa [setMapping] using hn, fun i hi => ?_⟩
  rcases lt_trichotomy i pre.length with hlt | rfl | hgt
  · have hthis := hl i (by simp; omega)
    rw [List.getElem?_append_left hlt] at hthis ⊢
    simpa [setMapping, Function.update_of_ne hlt.ne] using hthis
  · simp [setMapping]
  · have hthis := hl i (by simpa using hi)
    obtain ⟨k, rfl⟩ : ∃ k, i = pre.length + 1 + k := ⟨i - pre.length - 1, by omega⟩
    rw [List.getElem?_append_right (by omega)] at hthis ⊢
    rw [show pre.length + 1 + k - pre.length = k + 1 by omega] at hthis ⊢
    simpa [setMapping, Function.update_of_ne hgt.ne'] using hthis

theorem entries_setMappingBegin (h : s.entries = p ++ x :: q) (hn : n = p.length)
    (a : Nat) : (s.setMappingBegin n a).entries = p ++ { x with begin := a } :: q := by
  rw [setMappingBegin, mappings_eq h hn]
  exact entries_setMapping h hn _

theorem entries_setMappingEnd (h : s.entries = p ++ x :: q) (hn : n = p.length)
    (a : Nat) : (s.setMappingEnd n a).entries = p ++ { x with end_ := a } :: q := by
  rw [setMappingEnd, mappings_eq h hn]
  exact entries_setMapping h hn _

theorem entries_copyAllRight (h : s.entries = pre ++ x :: post) (hn : n = pre.length) :
    (s.copyAllRightFromBy n 1).entries = pre ++ x :: x :: post := by
  subst hn
  obtain ⟨hn, hl⟩ := entries_eq_iff.mp h
  refine entries_eq_iff.mpr ⟨by simp [copyAllRightFromBy, hn]; omega, fun i hi => ?_⟩
  simp only [List.length_append, List.length_cons] at hi hn
  simp only [copyAllRightFromBy, memmove]
  by_cases hle : i ≤ pre.length
  · rw [if_neg (by omega), ← hl i (by simp; omega)]
    rcases Nat.lt_or_eq_of_le hle with hlt | rfl
    · rw [List.getElem?_append_left hlt, List.getElem?_append_left hlt]
    · simp
  · rw [if_pos (by omega), ← hl _ (by simp; omega)]
    obtain ⟨k, rfl⟩ : ∃ k, i = pre.length + 1 + k := ⟨i - pre.length - 1, by omega⟩
    rw [List.getElem?_append_right (by omega), List.getElem?_append_right (by omega)]
    rw [show pre.length + 1 + k - pre.length = k + 1 by omega,
      show pre.length + (pre.length + 1 + k - (pre.length + 1)) - pre.length = k by omega]
    simp

theorem entries_copyAllLeft {m : List MappingEntry}
    (h : s.entries = p ++ (m ++ q)) (hn : n = p.length + m.length) :
    (s.copyAllLeftFromBy n m.length).entries = p ++ q := by
  subst hn
  obtain ⟨hn, hl⟩ := entries_eq_iff.mp h
  refine entries_eq_iff.mpr ⟨by simp [copyAllLeftFromBy, hn]; omega, fun i hi => ?_⟩
  simp only [List.length_append] at hi hn
  simp only [copyAllLeftFromBy, memmove]
  by_cases hlt : i < p.length
  · rw [if_neg (by omega), ← hl i (by simp; omega), List.getElem?_append_left hlt,
      List.getElem?_append_left hlt]
  · rw [if_pos (by omega), ← hl _ (by simp; omega), List.getElem?_append_right (by omega),
      List.getElem?_append_right (by omega), List.getElem?_append_right (by omega)]
    congr 1
    omega

theorem entries_extend (s : MappingSequence) (r : Mapping) :
    (s.extend r).entries = s.entries ++ [r.entry] := by
  obtain ⟨hn, hl⟩ := entries_eq_iff.mp (rfl : s.entries = s.entries)
  refine entries_eq_iff.mpr ⟨by simp [extend], fun i hi => ?_⟩
  simp only [List.length_append, length_entries, List.length_cons, List.length_nil] at hi
  rcases Nat.lt_or_eq_of_le (Nat.le_of_lt_succ hi) with hlt | rfl
  · rw [List.getElem?_append_left (by simpa using hlt), hl i (by simpa using hlt)]
    simp [extend, Function.update_of_ne hlt.ne]
  · rw [List.getElem?_append_right (by simp)]
    simp [extend]

theorem findEntry_eq_at? (s : MappingSequence) (a : Nat) : s.findEntry a = at? a s.entries := rfl

/-! ### Sanity -/

/-- What `check_mapping_sequence_sanity` asserts of a sequence in use: its entries are not empty,
follow each other and reach from its begin, not null, to its end. -/
structure Sane (s : MappingSequence) : Prop where
  pos : 0 < s.nused
  le : s.nused ≤ mappingSequenceMaxLen
  begin_pos : 0 < s.begin
  contig : Contig s.begin s.end_ s.entries

theorem Sane.begin_lt_end (h : s.Sane) : s.begin < s.end_ := by
  have hc := h.contig
  have hpos := h.pos
  rw [← length_entries] at hpos
  cases hE : s.entries with
  | nil => simp [hE] at hpos
  | cons a l =>
    rw [hE] at hc
    exact lt_of_lt_of_le hc.2.1 hc.2.2.le

theorem Sane.extend (h : s.Sane)
    (hroom : s.nused < mappingSequenceMaxLen) (hb : s.end_ = r.begin) (hne : r.begin < r.end_) :
    (s.extend r).Sane ∧ (s.extend r).begin = s.begin := by
  have hbegin : (s.extend r).begin = s.begin := if_neg h.begin_pos.ne'
  refine ⟨⟨Nat.succ_pos _, hroom, hbegin ▸ h.begin_pos, ?_⟩, hbegin⟩
  rw [hbegin, entries_extend]
  exact contig_append.mpr ⟨s.end_, h.contig, hb.symm, hb ▸ hne, rfl⟩

theorem findEntry_extend (h : s.Sane) (hb : s.end_ = r.begin) (a : Nat) :
    (s.extend r).findEntry a
      = if r.begin ≤ a ∧ a < r.end_ then some r.entry else s.findEntry a := by
  rw [findEntry_eq_at?, findEntry_eq_at?, entries_extend, at?_append, at?_cons, at?_nil]
  show (at? a s.entries).or (if r.begin ≤ a ∧ a < r.end_ then some r.entry else none) = _
  split
  · rename_i ha
    have hnone : at? a s.entries = none := by
      rw [← Option.not_isSome_iff_eq_none, h.contig.at?_isSome]
      omega
    rw [hnone, Option.none_or]
  · exact Option.or_none

end MappingSequence

end Liballocs
