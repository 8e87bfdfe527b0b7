/-
Contiguous lists of ranged records.

A `Ranged` record has a half-open range whose ends can be read and moved.  `Contig b e l` says that the
records of `l` tile the range from `b` up to `e`, none of them empty.

`below c` keeps what lies under `c` and `above c` the rest; a record across the cut is shortened.
Replacing a stretch is `below b l ++ r :: above e l`, and `at?_below` and `at?_above` settle what is
found in it.
-/
import Mathlib.Order.Basic
import Mathlib.Order.Lattice
import Mathlib.Tactic.Common

namespace Segments

/-- A type whose values carry a half-open range `[lo, hi)` that can be moved. -/
class Ranged (α : Type*) (ι : outParam Type*) where
  lo : α → ι
  hi : α → ι
  withLo : ι → α → α
  withHi : ι → α → α
  lo_withLo : ∀ i a, lo (withLo i a) = i
  hi_withLo : ∀ i a, hi (withLo i a) = hi a
  lo_withHi : ∀ i a, lo (withHi i a) = lo a
  hi_withHi : ∀ i a, hi (withHi i a) = i
  withLo_lo : ∀ a, withLo (lo a) a = a
  withHi_hi : ∀ a, withHi (hi a) a = a

open Ranged

attribute [simp] lo_withLo hi_withLo lo_withHi hi_withHi withLo_lo withHi_hi

variable {α : Type*} {ι : Type*} [LinearOrder ι] [Ranged α ι] {b e x c : ι} {a : α} {l : List α}

/-- The records of `l` tile `[b, e)` in order, none of them empty. -/
def Contig (b e : ι) : List α → Prop
  | [] => b = e
  | a :: l => lo a = b ∧ b < hi a ∧ Contig (hi a) e l

instance decidableContig (b e : ι) : (l : List α) → Decidable (Contig b e l)
  | [] => inferInstanceAs (Decidable (b = e))
  | a :: l =>
    have := decidableContig (hi a) e l
    inferInstanceAs (Decidable (lo a = b ∧ b < hi a ∧ Contig (hi a) e l))

@[simp] theorem contig_nil : Contig b e ([] : List α) ↔ b = e := Iff.rfl

@[simp] theorem contig_cons :
    Contig b e (a :: l) ↔ lo a = b ∧ b < hi a ∧ Contig (hi a) e l := Iff.rfl

theorem contig_append {l1 l2 : List α} :
    Contig b e (l1 ++ l2) ↔ ∃ m, Contig b m l1 ∧ Contig m e l2 := by
  induction l1 generalizing b with
  | nil => simp
  | cons a l ih =>
    simp only [List.cons_append, contig_cons, ih]
    constructor
    · rintro ⟨h1, h2, m, h3, h4⟩
      exact ⟨m, ⟨h1, h2, h3⟩, h4⟩
    · rintro ⟨m, ⟨h1, h2, h3⟩, h4⟩
      exact ⟨h1, h2, m, h3, h4⟩

section

variable (h : Contig b e l)

include h

theorem Contig.le : b ≤ e := by
  induction l generalizing b with
  | nil => exact le_of_eq h
  | cons a l ih => exact le_of_lt (lt_of_lt_of_le h.2.1 (ih h.2.2))

theorem Contig.mem_bounds (ha : a ∈ l) : b ≤ lo a ∧ lo a < hi a ∧ hi a ≤ e := by
  induction l generalizing b with
  | nil => cases ha
  | cons c l ih =>
    obtain ⟨hlo, hlt, hrest⟩ := h
    rcases List.mem_cons.mp ha with rfl | hmem
    · exact ⟨le_of_eq hlo.symm, hlo ▸ hlt, hrest.le⟩
    · obtain ⟨h1, h2, h3⟩ := ih hrest hmem
      exact ⟨le_trans (le_of_lt hlt) h1, h2, h3⟩

theorem Contig.end_le (hb : b ≤ x) (hl : ∀ a ∈ l, hi a ≤ x) : e ≤ x := by
  induction l generalizing b with
  | nil => exact h ▸ hb
  | cons a l ih => exact ih h.2.2 (hl a (by simp)) fun c hc => hl c (by simp [hc])

/-- Any point of the records splits the list, the start and the end among them. -/
theorem Contig.span (f : α → ι) (hf : ∀ a ∈ l, lo a ≤ f a ∧ f a ≤ hi a) (x : ι) :
    ∃ pre post, l = pre ++ post ∧ (∀ a ∈ pre, f a < x) ∧ ∀ a ∈ post, x ≤ f a := by
  induction l generalizing b with
  | nil => exact ⟨[], [], by simp⟩
  | cons a l ih =>
    obtain ⟨-, -, hrest⟩ := h
    by_cases ha : f a < x
    · obtain ⟨pre, post, rfl, hpre, hpost⟩ := ih hrest fun c hc => hf c (by simp [hc])
      exact ⟨a :: pre, post, rfl, by simpa [ha] using hpre, hpost⟩
    · refine ⟨[], a :: l, rfl, by simp, ?_⟩
      intro c hc
      rcases List.mem_cons.mp hc with rfl | hmem
      · exact not_lt.mp ha
      · calc x ≤ f a := not_lt.mp ha
          _ ≤ hi a := (hf a (by simp)).2
          _ ≤ lo c := (hrest.mem_bounds hmem).1
          _ ≤ f c := (hf c hc).1

end

/-! ### Looking an address up -/

/-- The first record whose range holds `x`. -/
def at? (x : ι) (l : List α) : Option α := l.find? fun a => lo a ≤ x && x < hi a

@[simp] theorem at?_nil (x : ι) : at? x ([] : List α) = none := rfl

theorem at?_cons (x : ι) (a : α) (l : List α) :
    at? x (a :: l) = if lo a ≤ x ∧ x < hi a then some a else at? x l := by
  by_cases h : lo a ≤ x ∧ x < hi a
  · simp [at?, h]
  · have hb : (decide (lo a ≤ x) && decide (x < hi a)) = false := by
      simpa [Bool.and_eq_false_iff, not_and_or] using h
    simp [at?, hb, if_neg h]

theorem at?_append (x : ι) (l1 l2 : List α) : at? x (l1 ++ l2) = (at? x l1).or (at? x l2) := by
  simp [at?, List.find?_append]

theorem mem_of_at? (h : at? x l = some a) : a ∈ l ∧ lo a ≤ x ∧ x < hi a := by
  refine ⟨List.mem_of_find?_eq_some h, ?_⟩
  simpa using List.find?_some h

theorem Contig.at?_eq_some (h : Contig b e l) (ha : a ∈ l) (h1 : lo a ≤ x)
    (h2 : x < hi a) : at? x l = some a := by
  induction l generalizing b with
  | nil => cases ha
  | cons c l ih =>
    obtain ⟨-, -, hrest⟩ := h
    rw [at?_cons]
    rcases List.mem_cons.mp ha with rfl | hmem
    · exact if_pos ⟨h1, h2⟩
    · have hge : hi c ≤ x := le_trans (hrest.mem_bounds hmem).1 h1
      rw [if_neg fun hx => not_lt.mpr hge hx.2]
      exact ih hrest hmem

theorem Contig.at?_isSome (h : Contig b e l) (x : ι) : (at? x l).isSome ↔ b ≤ x ∧ x < e := by
  induction l generalizing b with
  | nil =>
    obtain rfl := h
    simp
  | cons a l ih =>
    obtain ⟨hlo, hlt, hrest⟩ := h
    rw [at?_cons]
    by_cases hx : lo a ≤ x ∧ x < hi a
    · simp only [if_pos hx, Option.isSome_some, true_iff]
      exact ⟨hlo ▸ hx.1, lt_of_lt_of_le hx.2 hrest.le⟩
    · rw [if_neg hx, ih hrest]
      rw [not_and_or, not_le, not_lt] at hx
      constructor
      · rintro ⟨h1, h2⟩
        exact ⟨le_trans (le_of_lt hlt) h1, h2⟩
      · rintro ⟨h1, h2⟩
        rcases hx with hx | hx
        · exact absurd (hlo ▸ h1) (not_le.mpr hx)
        · exact ⟨hx, h2⟩

/-! ### Cutting -/

/-- `a` cut off at `c` from above. -/
def clipHi (c : ι) (a : α) : α := if hi a ≤ c then a else withHi c a

/-- `a` cut off at `c` from below. -/
def clipLo (c : ι) (a : α) : α := if c ≤ lo a then a else withLo c a

@[simp] theorem lo_clipHi (c : ι) (a : α) : lo (clipHi c a) = lo a := by
  unfold clipHi; split <;> simp

@[simp] theorem hi_clipHi (c : ι) (a : α) : hi (clipHi c a) = min (hi a) c := by
  unfold clipHi
  split
  · rename_i h; simp [h]
  · rename_i h; simp [le_of_lt (not_le.mp h)]

@[simp] theorem hi_clipLo (c : ι) (a : α) : hi (clipLo c a) = hi a := by
  unfold clipLo; split <;> simp

@[simp] theorem lo_clipLo (c : ι) (a : α) : lo (clipLo c a) = max (lo a) c := by
  unfold clipLo
  split
  · rename_i h; simp [h]
  · rename_i h; simp [le_of_lt (not_le.mp h)]

/-- What of `l` lies under `c`. -/
def below (c : ι) (l : List α) : List α := (l.filter fun a => lo a < c).map (clipHi c)

/-- What of `l` lies from `c` on. -/
def above (c : ι) (l : List α) : List α := (l.filter fun a => c < hi a).map (clipLo c)

theorem below_cons (c : ι) (a : α) (l : List α) :
    below c (a :: l) = if lo a < c then clipHi c a :: below c l else below c l := by
  by_cases h : lo a < c <;> simp [below, h]

theorem above_cons (c : ι) (a : α) (l : List α) :
    above c (a :: l) = if c < hi a then clipLo c a :: above c l else above c l := by
  by_cases h : c < hi a <;> simp [above, h]

theorem below_append (c : ι) (l1 l2 : List α) : below c (l1 ++ l2) = below c l1 ++ below c l2 := by
  simp [below]

theorem above_append (c : ι) (l1 l2 : List α) : above c (l1 ++ l2) = above c l1 ++ above c l2 := by
  simp [above]

theorem below_eq_nil (h : ∀ a ∈ l, c ≤ lo a) : below c l = [] := by
  simp only [below, List.map_eq_nil_iff, List.filter_eq_nil_iff, decide_eq_true_eq, not_lt]
  exact h

theorem above_eq_nil (h : ∀ a ∈ l, hi a ≤ c) : above c l = [] := by
  simp only [above, List.map_eq_nil_iff, List.filter_eq_nil_iff, decide_eq_true_eq, not_lt]
  exact h

theorem below_eq_self (h : ∀ a ∈ l, lo a < hi a ∧ hi a ≤ c) : below c l = l := by
  induction l with
  | nil => rfl
  | cons a l ih =>
    obtain ⟨h1, h2⟩ := h a (by simp)
    rw [below_cons, if_pos (lt_of_lt_of_le h1 h2), ih fun x hx => h x (by simp [hx])]
    simp [clipHi, h2]

theorem above_eq_self (h : ∀ a ∈ l, lo a < hi a ∧ c ≤ lo a) : above c l = l := by
  induction l with
  | nil => rfl
  | cons a l ih =>
    obtain ⟨h1, h2⟩ := h a (by simp)
    rw [above_cons, if_pos (lt_of_le_of_lt h2 h1), ih fun x hx => h x (by simp [hx])]
    simp [clipLo, h2]

theorem Contig.below (h : Contig b e l) (hbc : b ≤ c) (hce : c ≤ e) : Contig b c (below c l) := by
  induction l generalizing b with
  | nil =>
    obtain rfl := h
    exact le_antisymm hbc hce
  | cons a l ih =>
    obtain ⟨hlo, hlt, hrest⟩ := h
    rcases eq_or_lt_of_le hbc with rfl | hbc
    · rw [below_eq_nil]
      · rfl
      · intro x hx
        exact (Contig.mem_bounds (l := a :: l) ⟨hlo, hlt, hrest⟩ hx).1
    · rw [below_cons, if_pos (hlo ▸ hbc)]
      rcases le_total (hi a) c with hac | hac
      · refine ⟨by simpa using hlo, by simp [hac, hlt], ?_⟩
        simpa [hac] using ih hrest hac
      · refine ⟨by simpa using hlo, by simp [hlt, hbc], ?_⟩
        -- The cut falls inside `a`, so everything after it is gone.
        rw [below_eq_nil fun x hx => le_trans hac (hrest.mem_bounds hx).1]
        simp [hac]

theorem Contig.above (h : Contig b e l) (hbc : b ≤ c) (hce : c ≤ e) : Contig c e (above c l) := by
  induction l generalizing b with
  | nil =>
    obtain rfl := h
    exact le_antisymm hce hbc
  | cons a l ih =>
    obtain ⟨hlo, hlt, hrest⟩ := h
    rw [above_cons]
    by_cases hac : c < hi a
    · rw [if_pos hac]
      refine ⟨by simpa [hlo] using hbc, by simpa using hac, ?_⟩
      rw [above_eq_self fun x hx => ?_]
      · simpa using hrest
      · obtain ⟨h1, h2, _⟩ := hrest.mem_bounds hx
        exact ⟨h2, le_trans (le_of_lt hac) h1⟩
    · rw [if_neg hac]
      exact ih hrest (not_lt.mp hac)

theorem at?_map_filter {keep : α → Bool} {clip : α → α} {P : Prop} [Decidable P]
    (hin : ∀ a, (keep a = true ∧ lo (clip a) ≤ x ∧ x < hi (clip a)) ↔ P ∧ lo a ≤ x ∧ x < hi a) :
    at? x ((l.filter keep).map clip) = if P then (at? x l).map clip else none := by
  have hfun : (fun a => keep a && (decide (lo (clip a) ≤ x) && decide (x < hi (clip a))))
      = fun a => decide P && (decide (lo a ≤ x) && decide (x < hi a)) := by
    funext a
    rw [Bool.eq_iff_iff]
    simpa using hin a
  rw [at?, List.find?_map, List.find?_filter]
  by_cases hP : P
  · simp [hfun, hP, at?]
  · simp [hfun, hP]

/-- Below the cut, the list answers as before, with the answer's end clipped. -/
theorem at?_below (c x : ι) (l : List α) :
    at? x (below c l) = if x < c then (at? x l).map (clipHi c) else none := by
  refine at?_map_filter fun a => ?_
  simp only [decide_eq_true_eq, lo_clipHi, hi_clipHi, lt_inf_iff]
  exact ⟨fun h => ⟨h.2.2.2, h.2.1, h.2.2.1⟩,
    fun h => ⟨lt_of_le_of_lt h.2.1 h.1, h.2.1, h.2.2, h.1⟩⟩

/-- From the cut on, the list answers as before, with the answer's start clipped. -/
theorem at?_above (c x : ι) (l : List α) :
    at? x (above c l) = if c ≤ x then (at? x l).map (clipLo c) else none := by
  refine at?_map_filter fun a => ?_
  simp only [decide_eq_true_eq, lo_clipLo, hi_clipLo, sup_le_iff]
  exact ⟨fun h => ⟨h.2.1.2, h.2.1.1, h.2.2⟩,
    fun h => ⟨lt_of_le_of_lt h.1 h.2.2, ⟨h.2.1, h.1⟩, h.2.2⟩⟩

/-! ### Replacing a stretch -/

section Replace

variable {b e : ι} {l : List α} (r : α)

/-- Overwriting a stretch of a tiling by one record leaves a tiling of the same range. -/
theorem Contig.replace (h : Contig b e l) (hb : b ≤ lo r) (hr : lo r < hi r) (he : hi r ≤ e) :
    Contig b e (Segments.below (lo r) l ++ r :: Segments.above (hi r) l) := by
  have hle := le_of_lt hr
  refine contig_append.mpr ⟨lo r, h.below hb (le_trans hle he), rfl, hr, ?_⟩
  exact h.above (le_trans hb hle) he

theorem at?_replace_inside (h1 : lo r ≤ x) (h2 : x < hi r) :
    at? x (Segments.below (lo r) l ++ r :: Segments.above (hi r) l) = some r := by
  rw [at?_append, at?_below, if_neg (not_lt.mpr h1), Option.none_or, at?_cons, if_pos ⟨h1, h2⟩]

theorem at?_replace_outside {β : Type*} (f : α → β) (hlo : ∀ c a, f (withLo c a) = f a)
    (hhi : ∀ c a, f (withHi c a) = f a) (hr : lo r ≤ hi r) (hx : x < lo r ∨ hi r ≤ x) :
    (at? x (Segments.below (lo r) l ++ r :: Segments.above (hi r) l)).map f = (at? x l).map f := by
  have hclipHi : ∀ c, f ∘ clipHi c = (f : α → β) := by
    intro c; funext a
    simp only [Function.comp_apply, clipHi]; split <;> simp [hhi]
  have hclipLo : ∀ c, f ∘ clipLo c = (f : α → β) := by
    intro c; funext a
    simp only [Function.comp_apply, clipLo]; split <;> simp [hlo]
  rcases hx with hx | hx
  · have hnone : at? x (r :: Segments.above (hi r) l) = none := by
      rw [at?_cons, if_neg (fun hc => absurd hc.1 (not_le.mpr hx)), at?_above,
        if_neg (not_le.mpr (lt_of_lt_of_le hx hr))]
    rw [at?_append, hnone, Option.or_none, at?_below, if_pos hx, Option.map_map, hclipHi]
  · rw [at?_append, at?_below, if_neg (not_lt.mpr (le_trans hr hx)), Option.none_or, at?_cons,
      if_neg (fun hc => absurd hc.2 (not_lt.mpr hx)), at?_above, if_pos hx, Option.map_map,
      hclipLo]

end Replace

end Segments
