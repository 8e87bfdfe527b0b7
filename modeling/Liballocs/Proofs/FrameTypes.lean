/-
Which members of a frame's type lie inside it.

The size of the type is the end of the element that starts last.  So no member starts outside, but one
that starts lower and is longer may end beyond the type.
-/
import Liballocs.FrameTypes
import Mathlib.Tactic.Common

namespace Liballocs

variable {s : Subprogram} {i : FrameInterval} {e : FrameElement} {x : Int}

theorem toSigned_eq (hlo : -2 ^ 31 ≤ x) (hhi : x < 2 ^ 31) : toSigned x = x :=
  Int.bmod_eq_of_le (by omega) (by omega)

theorem le_toSigned (x : Int) : -2 ^ 31 ≤ toSigned x := Int.le_bmod (by decide)

theorem toSigned_lt (x : Int) : toSigned x < 2 ^ 31 := Int.bmod_lt (by decide)

theorem toUnsigned_lt (x : Int) : toUnsigned x < 2 ^ 32 := by
  unfold toUnsigned
  omega

theorem toUnsigned_eq (hlo : 0 ≤ x) (hhi : x < 2 ^ 32) : (toUnsigned x : Int) = x := by
  unfold toUnsigned
  omega

/-- The offset at which an element ends. -/
def FrameElement.endOff (e : FrameElement) : Int := e.off + (e.size.getD 0 : Nat)

/-- The element is where 32 bits reach. -/
def FrameElement.InRange (e : FrameElement) : Prop := -2 ^ 31 ≤ e.off ∧ e.endOff < 2 ^ 31

/-! ### The bounds of an interval -/

theorem FrameInterval.minoff_le (he : e ∈ i.elements) (h : ∀ e ∈ i.elements, e.InRange) :
    i.minoff ≤ e.off := by
  obtain ⟨first, rest, hels⟩ := List.exists_cons_of_ne_nil (List.ne_nil_of_mem he)
  have hmin : i.minoff ≤ first.off := by
    obtain ⟨hlo, hhi⟩ := h first (by simp [hels])
    unfold FrameElement.endOff at hhi
    simp only [minoff, hels, List.head?_cons, toSigned_eq hlo (by omega)]
    split <;> omega
  rcases List.mem_cons.mp (hels ▸ he) with rfl | hrest
  · exact hmin
  · exact hmin.trans ((List.pairwise_cons.mp (hels ▸ i.sorted)).1 e hrest)

theorem FrameInterval.maxoff_eq {last : FrameElement} (hlast : last ∈ i.elements.getLast?)
    (h : last.InRange) : (i.maxoff : Int) = max 0 last.endOff := by
  obtain ⟨hlo, hhi⟩ := h
  unfold FrameElement.endOff at hhi ⊢
  have hsize : (toUnsigned (last.size.getD 0 : Nat) : Int) = (last.size.getD 0 : Nat) :=
    toUnsigned_eq (by omega) (by omega)
  simp only [maxoff, Option.mem_def.mp hlast, hsize, toSigned_eq (by omega) hhi]
  split <;> omega

/-! ### The offset that is added to all -/

theorem Subprogram.foldl_minoff (is : List FrameInterval) {m : Int} (hm : -2 ^ 31 ≤ m) :
    let overall := is.foldl (fun overall i => if i.minoff < overall then i.minoff else overall) m
    (-2 ^ 31 ≤ overall) ∧ overall ≤ m ∧ ∀ i ∈ is, overall ≤ i.minoff := by
  induction is generalizing m with
  | nil => exact ⟨hm, le_rfl, fun i hi => by cases hi⟩
  | cons j is ih =>
    have hj : -2 ^ 31 ≤ j.minoff := by
      unfold FrameInterval.minoff
      split
      · decide
      · split
        · decide
        · exact le_toSigned _
    have hstep : -2 ^ 31 ≤ if j.minoff < m then j.minoff else m := by split <;> assumption
    obtain ⟨hlo, hle, hall⟩ := ih hstep
    refine ⟨hlo, ?_, ?_⟩
    · refine hle.trans ?_
      split <;> omega
    · intro i hi
      rcases List.mem_cons.mp hi with rfl | hi
      · refine hle.trans ?_
        split <;> omega
      · exact hall i hi

/-- The offset is no larger than 32 bits allow, and covers the least one. -/
theorem Subprogram.offsetToAll_le (s : Subprogram) :
    s.offsetToAll ≤ 2 ^ 31 ∧ -s.overallFrameMinoff ≤ s.offsetToAll := by
  have hlo : -2 ^ 31 ≤ s.overallFrameMinoff := (foldl_minoff s.intervals (m := 0) (by decide)).1
  simp only [offsetToAll]
  split
  · split <;> omega
  · omega

/-- The offset is large enough for every element. -/
theorem Subprogram.offsetToAll_bounds (hi : i ∈ s.intervals) (h : ∀ e ∈ i.elements, e.InRange) :
    ∀ e ∈ i.elements, 0 ≤ e.off + s.offsetToAll := by
  intro e he
  obtain ⟨-, -, hall⟩ := foldl_minoff s.intervals (m := 0) (by decide)
  have hround := s.offsetToAll_le.2
  have hmin : s.overallFrameMinoff ≤ e.off := (hall i hi).trans (FrameInterval.minoff_le he h)
  omega

/-- A member of the type of an interval: where it is put, and where it ends. -/
structure Subprogram.Inside (s : Subprogram) (i : FrameInterval) (m : Nat × FrameElement) : Prop where
  offset : (m.1 : Int) = m.2.off + s.offsetToAll
  within : m.1 + m.2.size.getD 0 ≤ (s.composite i).posMaxoff

theorem FrameInterval.maxoff_lt (i : FrameInterval) : (i.maxoff : Int) < 2 ^ 31 := by
  unfold maxoff
  split
  · decide
  · have hlt := toSigned_lt
    simp only
    split
    · decide
    · rw [Int.toNat_of_nonneg (by omega)]
      exact hlt _

/-- The size of the type does not wrap around. -/
theorem Subprogram.composite_posMaxoff (s : Subprogram) (i : FrameInterval) :
    ((s.composite i).posMaxoff : Int) = i.maxoff + s.offsetToAll := by
  have hmax := i.maxoff_lt
  have hle := s.offsetToAll_le.1
  exact toUnsigned_eq (x := i.maxoff + s.offsetToAll) (by omega) (by omega)

/-- A member inside the type is where 32 bits reach. -/
theorem Subprogram.Inside.inRange {m : Nat} (h : s.Inside i (m, e)) (hm : m < 2 ^ 32) :
    e.InRange := by
  obtain ⟨hoff, hwithin⟩ := h
  have hmax := i.maxoff_lt
  have hle := s.offsetToAll_le.1
  have hsize := s.composite_posMaxoff i
  unfold FrameElement.InRange FrameElement.endOff
  simp only at hoff hwithin
  omega

/-- In the range of 32 bits a member is inside exactly if it does not end beyond the last one to start
and beyond the frame base. -/
theorem Subprogram.inside_iff {last : FrameElement} (hi : i ∈ s.intervals)
    (hrange : ∀ e ∈ i.elements, e.InRange) (hlast : last ∈ i.elements.getLast?)
    (he : e ∈ i.elements) :
    s.Inside i (toUnsigned (e.off + s.offsetToAll), e) ↔ e.endOff ≤ max 0 last.endOff := by
  have hle := s.offsetToAll_le.1
  have hend := (hrange e he).2
  have hsize := s.composite_posMaxoff i
  rw [FrameInterval.maxoff_eq hlast (hrange last (List.mem_of_getLast? hlast))] at hsize
  unfold FrameElement.endOff at hend hsize ⊢
  have hplace : (toUnsigned (e.off + s.offsetToAll) : Int) = e.off + s.offsetToAll :=
    toUnsigned_eq (offsetToAll_bounds hi hrange e he) (by omega)
  constructor
  · intro hin
    have hwithin := hin.within
    simp only at hwithin
    omega
  · intro hle
    refine ⟨hplace, ?_⟩
    simp only
    omega

/-- **All members lie inside** the type of an interval exactly if each is where 32 bits reach and none
ends beyond the last one to start and beyond the frame base. -/
theorem composite_inside_iff (s : Subprogram) (i : FrameInterval) (hi : i ∈ s.intervals) :
    (∀ m ∈ (s.composite i).members, s.Inside i m)
      ↔ (∀ e ∈ i.elements, e.InRange)
        ∧ ∀ last ∈ i.elements.getLast?, ∀ e ∈ i.elements, e.endOff ≤ max 0 last.endOff := by
  constructor
  · intro hall
    have hin : ∀ e ∈ i.elements, s.Inside i (toUnsigned (e.off + s.offsetToAll), e) := fun e he =>
      hall _ (List.mem_map_of_mem he)
    have hrange : ∀ e ∈ i.elements, e.InRange := fun e he => (hin e he).inRange (toUnsigned_lt _)
    exact ⟨hrange, fun last hlast e he => (s.inside_iff hi hrange hlast he).mp (hin e he)⟩
  · rintro ⟨hrange, hend⟩ m hm
    obtain ⟨e, he, rfl⟩ := List.mem_map.mp hm
    have hlast := List.getLast?_eq_some_getLast (List.ne_nil_of_mem he)
    exact (s.inside_iff hi hrange hlast he).mpr (hend _ hlast e he)

/-- An interval with the elements of the given offsets and sizes. -/
def sampleInterval (lower upper : Nat) (els : List (Int × Nat)) (hlt : lower < upper)
    (h : els.Pairwise (·.1 ≤ ·.1)) : FrameInterval where
  lower := lower
  upper := upper
  elements := els.map fun e => ⟨e.1, some e.2⟩
  lower_lt := hlt
  sorted := List.pairwise_map.mpr h

/-- Two locals below the frame base and a parameter above. -/
theorem composite_inside_sample :
    let i := sampleInterval 0x100 0x120 [(-24, 16), (-8, 4), (16, 8)] (by decide) (by decide)
    ∀ m ∈ (Subprogram.composite ⟨0, [i]⟩ i).members, Subprogram.Inside ⟨0, [i]⟩ i m :=
  (composite_inside_iff _ _ (List.mem_singleton_self _)).mpr
    ⟨by unfold FrameElement.InRange; decide, by decide⟩

/-- **A longer element that starts lower ends beyond the type**: of its 12 bytes, a member at zero
takes 16. -/
theorem composite_not_inside :
    let i := sampleInterval 0x100 0x120 [(0, 16), (8, 4)] (by decide) (by decide)
    (Subprogram.composite ⟨0, [i]⟩ i).posMaxoff = 12
    ∧ (0, ⟨0, some 16⟩) ∈ (Subprogram.composite ⟨0, [i]⟩ i).members
    ∧ ¬ Subprogram.Inside ⟨0, [i]⟩ i (0, ⟨0, some 16⟩) :=
  ⟨by decide, by decide, fun h => absurd h.within (by decide)⟩

end Liballocs
