/-
What a call of `augment_sequence` that succeeds has done, to any sequence.

The first and the last entry that the request meets decide: what is before and after them is kept, the
two may leave a piece, and the request's entry replaces the rest.  A piece keeps all that its entry
says but one of its bounds.
-/
import Liballocs.Proofs.Augment

namespace Liballocs

/-- The entry meets the request, or touches its begin. -/
def MappingEntry.Meets (e : MappingEntry) (r : Mapping) : Prop :=
  e.begin < r.end_ ∧ r.begin ≤ e.end_

instance (e : MappingEntry) (r : Mapping) : Decidable (e.Meets r) :=
  inferInstanceAs (Decidable (_ ∧ _))

namespace MappingSequence

variable {s s' : MappingSequence} {r : Mapping} {objectBelow : Nat → Nat}
  {pre mid post : List MappingEntry} {x y e : MappingEntry}

/-- `is_clean_extension`. -/
def CleanExtension (s : MappingSequence) (r : Mapping) : Prop := s.end_ = 0 ∨ s.end_ = r.begin

instance (s : MappingSequence) (r : Mapping) : Decidable (s.CleanExtension r) :=
  inferInstanceAs (Decidable (_ ∨ _))

/-! ### The two searches -/

theorem overlapsAt_iff (i : Nat) : s.overlapsAt r i = true ↔ (s.mappings i).Meets r := by
  simp [overlapsAt, overlaps, Bool.and_eq_true, decide_eq_true_eq, MappingEntry.Meets]

theorem firstOverlapped_spec {i : Nat} (h : s.firstOverlapped r = some i) :
    (s.mappings i).Meets r ∧ ∀ j < i, ¬ (s.mappings j).Meets r := by
  rw [firstOverlapped, List.find?_range_eq_some] at h
  obtain ⟨hi, -, hlt⟩ := h
  refine ⟨(overlapsAt_iff i).mp hi, ?_⟩
  intro j hj hc
  have hno := hlt j hj
  rw [(overlapsAt_iff j).mpr hc] at hno
  cases hno

theorem lastOverlapped_spec {i : Nat} (h : s.lastOverlapped r = some i) :
    i < s.nused ∧ (s.mappings i).Meets r ∧ ∀ j, i < j → j < s.nused → ¬ (s.mappings j).Meets r := by
  obtain ⟨hi, hp, hgt⟩ := find?_range_reverse_eq_some.mp h
  refine ⟨hi, (overlapsAt_iff i).mp hp, ?_⟩
  intro j hij hj hc
  have hno := hgt j hij hj
  rw [(overlapsAt_iff j).mpr hc] at hno
  cases hno

/-! ### The affected stretch -/

/-- `mid` is the affected stretch, from `x`, the first entry that the request meets, to the last, `y`.
-/
structure Affected (s : MappingSequence) (r : Mapping) (pre mid post : List MappingEntry)
    (x y : MappingEntry) : Prop where
  entries : s.entries = pre ++ (mid ++ post)
  head : mid.head? = some x
  getLast : mid.getLast? = some y
  first : s.firstOverlapped r = some pre.length
  last : s.lastOverlapped r = some (pre.length + mid.length - 1)
  head_meets : x.Meets r
  getLast_meets : y.Meets r
  pre_apart : ∀ a ∈ pre, ¬ a.Meets r
  post_apart : ∀ a ∈ post, ¬ a.Meets r

theorem exists_affected {i j : Nat} (hi : s.firstOverlapped r = some i)
    (hj : s.lastOverlapped r = some j) :
    ∃ pre mid post, i = pre.length ∧ j = pre.length + mid.length - 1
      ∧ Affected s r pre mid post (s.mappings i) (s.mappings j) := by
  obtain ⟨hmi, hbefore⟩ := firstOverlapped_spec hi
  obtain ⟨hlt, hmj, hbehind⟩ := lastOverlapped_spec hj
  have hle : i ≤ j := by
    by_contra hc
    exact hbefore j (Nat.lt_of_not_le hc) hmj
  have hlen : s.entries.length = s.nused := length_entries s
  have hget : ∀ k < s.nused, s.entries[k]? = some (s.mappings k) := by
    intro k hk
    exact (entries_eq_iff.mp rfl).2 k (by omega)
  have hpre : (s.entries.take i).length = i := by
    rw [List.length_take]
    omega
  have hmid : ((s.entries.drop i).take (j + 1 - i)).length = j + 1 - i := by
    rw [List.length_take, List.length_drop]
    omega
  have hsplit : s.entries = s.entries.take i
      ++ ((s.entries.drop i).take (j + 1 - i) ++ s.entries.drop (j + 1)) := by
    have hdrop : s.entries.drop (j + 1) = (s.entries.drop i).drop (j + 1 - i) := by
      rw [List.drop_drop]
      congr 1
      omega
    rw [hdrop, List.take_append_drop, List.take_append_drop]
  refine ⟨s.entries.take i, (s.entries.drop i).take (j + 1 - i), s.entries.drop (j + 1), hpre.symm,
    by omega, ⟨hsplit, ?_, ?_, by rw [hpre]; exact hi, ?_, hmi, hmj, ?_, ?_⟩⟩
  · rw [List.head?_eq_getElem?, List.getElem?_take_of_lt (by omega), List.getElem?_drop]
    exact hget i (by omega)
  · rw [List.getLast?_eq_getElem?, hmid, List.getElem?_take_of_lt (by omega), List.getElem?_drop,
      show i + (j + 1 - i - 1) = j by omega]
    exact hget j hlt
  · rw [hpre, hmid, show i + (j + 1 - i) - 1 = j by omega]
    exact hj
  · intro a ha
    obtain ⟨k, hk⟩ := List.mem_iff_getElem?.mp ha
    have hki : k < i := by
      have := (List.getElem?_eq_some_iff.mp hk).1
      omega
    rw [List.getElem?_take_of_lt hki, hget k (by omega)] at hk
    obtain rfl := Option.some.inj hk
    exact hbefore k hki
  · intro a ha
    obtain ⟨k, hk⟩ := List.mem_iff_getElem?.mp ha
    rw [List.getElem?_drop] at hk
    have hkn : j + 1 + k < s.nused := by
      have := (List.getElem?_eq_some_iff.mp hk).1
      omega
    rw [hget _ hkn] at hk
    obtain rfl := Option.some.inj hk
    exact hbehind _ (by omega) hkn

section

variable (h : Affected s r pre mid post x y)
include h

theorem Affected.mid_length_pos : 0 < mid.length := by
  have hhead := h.head
  cases mid with
  | nil => cases hhead
  | cons a l => exact Nat.succ_pos _

theorem Affected.mappings_first : s.mappings pre.length = x := by
  obtain ⟨ms, rfl⟩ := List.head?_eq_some_iff.mp h.head
  exact mappings_eq (p := pre) (q := ms ++ post) (by simpa using h.entries) rfl

theorem Affected.mappings_last : s.mappings (pre.length + mid.length - 1) = y := by
  obtain ⟨init, rfl, hE⟩ := exists_init h.entries h.getLast
  refine mappings_eq hE ?_
  simp only [List.length_append, List.length_cons, List.length_nil]
  omega

theorem Affected.mem_head : x ∈ s.entries := by
  rw [h.entries]
  exact List.mem_append_right _ (List.mem_append_left _ (List.mem_of_mem_head? h.head))

theorem Affected.mem_getLast : y ∈ s.entries := by
  rw [h.entries]
  exact List.mem_append_right _ (List.mem_append_left _ (List.mem_of_getLast? h.getLast))

theorem Affected.mem_pre (he : e ∈ pre) : e ∈ s.entries := by
  rw [h.entries]
  exact List.mem_append_left _ he

theorem Affected.mem_post (he : e ∈ post) : e ∈ s.entries := by
  rw [h.entries]
  exact List.mem_append_right _ (List.mem_append_right _ he)

end

/-! ### A successful call -/

/-- What a successful overlapping call has done: the tests passed, the entries left. -/
structure Overlapped (objectBelow : Nat → Nat) (s : MappingSequence) (r : Mapping)
    (s' : MappingSequence) (pre mid post : List MappingEntry) (x y : MappingEntry) : Prop where
  affected : Affected s r pre mid post x y
  consistent : s.overlapFilenameIsConsistent objectBelow r pre.length (pre.length + mid.length - 1)
    (x.begin != r.begin) (y.end_ != r.end_) = true
  room : s.nused + ((x.begin != r.begin).toNat + (y.end_ != r.end_).toNat) ≤ mappingSequenceMaxLen
  header : s'.header = s.header
  left : s'.entries = (pre ++ if x.begin != r.begin then [{ x with end_ := r.begin }] else [])
    ++ r.entry :: ((if y.end_ != r.end_ then [{ y with begin := r.end_ }] else []) ++ post)

/-- What a successful `augment_sequence` can have made of a sequence: either the mapping is put
behind its end, or the entries that it overlaps are trimmed and replaced. -/
inductive Augmented (objectBelow : Nat → Nat) (s : MappingSequence) (r : Mapping) :
    MappingSequence → Prop
  | extended (hclean : s.CleanExtension r) (hbegin : s.begin ≤ r.begin)
      (hroom : s.nused ≠ mappingSequenceMaxLen)
      (hname : s.extensionFilenameIsConsistent objectBelow r = true) :
      Augmented objectBelow s r (s.extend r)
  | overlapped {s' : MappingSequence} {pre mid post : List MappingEntry} {x y : MappingEntry}
      (hclean : ¬ s.CleanExtension r) (hbegin : s.begin ≤ r.begin)
      (h : Overlapped objectBelow s r s' pre mid post x y) : Augmented objectBelow s r s'

theorem augmentSequence_augmented (hle : s.nused ≤ mappingSequenceMaxLen)
    (h : s.augmentSequence objectBelow r = some (true, s')) : Augmented objectBelow s r s' := by
  have hclean : (s.end_ == 0 || s.end_ == r.begin) = decide (s.CleanExtension r) := by
    rw [Bool.eq_iff_iff, decide_eq_true_iff]
    simp [CleanExtension]
  unfold augmentSequence at h
  simp only [hclean] at h
  split at h
  · rename_i hcond
    obtain ⟨-, hbegin, hmany⟩ := hcond
    by_cases hc : s.CleanExtension r
    · simp only [hc, decide_true, if_true] at h
      split at h
      · rename_i hname
        obtain rfl : s.extend r = s' := (Prod.mk.inj (Option.some.inj h)).2
        exact .extended hc hbegin hmany hname
      · cases h
    · simp only [hc, decide_false, Bool.false_eq_true, if_false] at h
      obtain ⟨i, hi, h⟩ := Option.bind_eq_some_iff.mp h
      obtain ⟨j, hj, h⟩ := Option.bind_eq_some_iff.mp h
      obtain ⟨pre, mid, post, rfl, rfl, ha⟩ := exists_affected hi hj
      split at h
      · cases h
      · rename_i hname
        split at h
        · cases h
        · rename_i hroom
          obtain rfl := (Prod.mk.inj (Option.some.inj h)).2
          have hpos := ha.mid_length_pos
          refine .overlapped hc hbegin ⟨ha, by simpa using hname, by omega, header_overwrite .., ?_⟩
          exact entries_overwrite ha.entries ha.head ha.getLast (by omega)
  · cases h

theorem augmentSequence_false (h : s.augmentSequence objectBelow r = some (false, s')) : s' = s := by
  unfold augmentSequence at h
  simp only [Option.bind_eq_bind] at h
  split at h
  · split at h
    · split at h
      · cases h
      · exact (Prod.mk.inj (Option.some.inj h)).2.symm
    · obtain ⟨i, hi, h⟩ := Option.bind_eq_some_iff.mp h
      obtain ⟨j, hj, h⟩ := Option.bind_eq_some_iff.mp h
      split at h
      · exact (Prod.mk.inj (Option.some.inj h)).2.symm
      · split at h
        · exact (Prod.mk.inj (Option.some.inj h)).2.symm
        · cases h
  · exact (Prod.mk.inj (Option.some.inj h)).2.symm

theorem Augmented.nused_le (h : Augmented objectBelow s r s')
    (hle : s.nused ≤ mappingSequenceMaxLen) : s'.nused ≤ mappingSequenceMaxLen := by
  cases h with
  | extended hclean hbegin hroom hname =>
    show s.nused + 1 ≤ mappingSequenceMaxLen
    omega
  | overlapped hclean hbegin ho =>
    have hroom := ho.room
    have hpos := ho.affected.mid_length_pos
    have hlen := congrArg List.length ho.affected.entries
    have hlen' := congrArg List.length ho.left
    simp only [length_entries, List.length_append, List.length_cons, length_ite_singleton]
      at hlen hlen'
    omega

end MappingSequence

end Liballocs
