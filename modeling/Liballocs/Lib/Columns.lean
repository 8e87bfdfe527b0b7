/-
Tables of columns that are stored row by row.

Column `k` of `width` columns has the cells `k`, `k + width`, `k + 2 * width` and so on.  It is a list
kept at the top of its cells, with null cells below.  A cell past the table reads as the default entry.

`IsColumn` says what list a column holds.  Looking along it, putting an entry into its first null cell
and taking one out are list operations, and leave the other columns alone.  The operations that end in
a question mark fail when they look past the end of the table, and otherwise do the same.
-/
import Mathlib.Data.List.Basic
import Mathlib.Data.List.Perm.Basic
import Mathlib.Data.Set.Insert
import Mathlib.Logic.Function.Basic

/-- A table of `width` columns. -/
structure Columns (α : Type*) where
  width : Nat
  size : Nat
  cells : Nat → α

namespace Columns

open Function

variable {α : Type*} [Inhabited α] (isNull : α → Bool) {fuel : Nat} {s : Set Nat}

/-- The entry in a cell. -/
def read (c : Columns α) (i : Nat) : α := if i < c.size then c.cells i else default

/-- Writing to a cell, which has to be in the table. -/
def write (c : Columns α) (i : Nat) (x : α) : Option (Columns α) :=
  if i < c.size then some { c with cells := Function.update c.cells i x } else none

/-- The cells from `i` down to the first null one. -/
def walkFrom (c : Columns α) : Nat → Nat → List Nat
  | 0, _ => []
  | fuel + 1, i => if isNull (c.read i) then [] else i :: walkFrom c fuel (i + c.width)

/-- The cells of the column below a cell, down to the first null one. -/
def walk (c : Columns α) (i : Nat) : List Nat := walkFrom isNull c c.size i

/-- The first null cell from `i` down. -/
def firstNullFrom (c : Columns α) : Nat → Nat → Nat
  | 0, i => i
  | fuel + 1, i => if isNull (c.read i) then i else firstNullFrom c fuel (i + c.width)

/-- The first null cell of the column below a cell. -/
def firstNull (c : Columns α) (i : Nat) : Nat := firstNullFrom isNull c c.size i

/-- Taking out the entry in the cell `i`: each entry below it moves up by one. -/
def removeFrom : Nat → Columns α → Nat → Option (Columns α)
  | 0, _, _ => none
  | fuel + 1, c, i => do
    let c ← c.write i (c.read (i + c.width))
    if isNull (c.read (i + c.width)) then some c else removeFrom fuel c (i + c.width)

/-- A cell is removed, and those below it move up. -/
def remove (c : Columns α) (i : Nat) : Option (Columns α) := removeFrom isNull c.size c i

/-- The entry in a cell, which has to be in the table. -/
def read? (c : Columns α) (i : Nat) : Option α := if i < c.size then some (c.cells i) else none

/-- Looking from `i` down for a cell that gives an answer.  The first null cell ends it. -/
def searchFrom? {β : Type*} (c : Columns α) (f : Nat → Option (Option β)) (done : Nat → β) :
    Nat → Nat → Option β
  | 0, _ => none
  | fuel + 1, i => (c.read? i).bind fun x =>
    if isNull x then some (done i)
    else (f i).bind fun
      | some b => some b
      | none => searchFrom? c f done fuel (i + c.width)

/-- The search of a column, with every read checked against the end of the table. -/
def search? {β : Type*} (c : Columns α) (f : Nat → Option (Option β)) (done : Nat → β) (i : Nat) :
    Option β := searchFrom? isNull c f done (c.size + 1) i

/-- The first null cell from `i` down. -/
def firstNull? (c : Columns α) (i : Nat) : Option Nat := search? isNull c (fun _ => some none) id i

/-- The cells from `i` down to the first null one, which has to be in the table. -/
def walk? (c : Columns α) (i : Nat) : Option (List Nat) :=
  (firstNull? isNull c i).map fun _ => walk isNull c i

/-- `removeFrom`, with every read checked against the end of the table. -/
def removeFrom? : Nat → Columns α → Nat → Option (Columns α)
  | 0, _, _ => none
  | fuel + 1, c, i => do
    let c' ← c.write i (← c.read? (i + c.width))
    if isNull (← c'.read? (i + c.width)) then some c' else removeFrom? fuel c' (i + c.width)

/-- `remove`, with every read checked against the end of the table. -/
def remove? (c : Columns α) (i : Nat) : Option (Columns α) := removeFrom? isNull c.size c i

/-- The cells from `k` down hold the list `l`. -/
def IsColumn (c : Columns α) : Nat → List α → Prop
  | k, [] => ∀ i, isNull (c.read (k + i * c.width)) = true
  | k, x :: l => c.read k = x ∧ isNull x = false ∧ IsColumn c (k + c.width) l

variable {isNull} {c c' : Columns α} {i j k : Nat} {x : α} {l : List α}

/-! ### Reading -/

theorem add_mul_width (k i w : Nat) : k + (i + 1) * w = k + w + i * w := by
  rw [Nat.add_mul, Nat.one_mul]
  omega

theorem IsColumn.head_null (h : IsColumn isNull c k []) : isNull (c.read k) = true := by
  simpa using h 0

theorem IsColumn.not_nil (h : IsColumn isNull c k (x :: l)) : ¬ IsColumn isNull c k [] := by
  intro h'
  have h0 := h'.head_null
  rw [h.1, h.2.1] at h0
  exact Bool.noConfusion h0

section

variable (h : IsColumn isNull c k l)

include h

theorem IsColumn.read_eq (hi : i < l.length) :
    c.read (k + i * c.width) = l[i] := by
  induction l generalizing k i with
  | nil => exact absurd hi (Nat.not_lt_zero i)
  | cons x l ih =>
    cases i with
    | zero => simpa using h.1
    | succ i =>
      rw [add_mul_width]
      exact ih h.2.2 (Nat.lt_of_succ_lt_succ hi)

theorem IsColumn.read_null :
    isNull (c.read (k + l.length * c.width)) = true := by
  induction l generalizing k with
  | nil => exact h 0
  | cons x l ih =>
    rw [List.length_cons, add_mul_width]
    exact ih h.2.2

theorem IsColumn.not_null (hx : x ∈ l) : isNull x = false := by
  induction l generalizing k with
  | nil => exact absurd hx List.not_mem_nil
  | cons y l ih =>
    rcases List.mem_cons.mp hx with rfl | hx
    · exact h.2.1
    · exact ih h.2.2 hx

theorem IsColumn.lt_size (hdef : isNull default = true) (hi : i < l.length) :
    k + i * c.width < c.size := by
  by_contra hc
  have hread := h.read_eq hi
  have hnull := h.not_null (List.getElem_mem hi)
  rw [← hread, read, if_neg hc, hdef] at hnull
  exact Bool.noConfusion hnull

theorem IsColumn.length_le (hdef : isNull default = true) (hw : 0 < c.width) :
    l.length ≤ c.size := by
  by_cases h0 : l.length = 0
  · omega
  · have hlt := h.lt_size hdef (i := l.length - 1) (by omega)
    have hmul : l.length - 1 ≤ (l.length - 1) * c.width := Nat.le_mul_of_pos_right _ hw
    omega

theorem IsColumn.unique {l' : List α} (h' : IsColumn isNull c k l') :
    l = l' := by
  induction l generalizing k l' with
  | nil =>
    cases l' with
    | nil => rfl
    | cons y l' => exact absurd h h'.not_nil
  | cons x l ih =>
    cases l' with
    | nil => exact absurd h' h.not_nil
    | cons y l' => rw [← h.1, ← h'.1, ih h.2.2 h'.2.2]

theorem IsColumn.tail : IsColumn isNull c (k + c.width) l.tail := by
  cases l with
  | nil =>
    intro i
    rw [← add_mul_width]
    exact h (i + 1)
  | cons x l => exact h.2.2

/-! ### Looking along a column -/

theorem IsColumn.walkFrom_eq (hf : l.length ≤ fuel) :
    walkFrom isNull c fuel k = (List.range l.length).map (k + · * c.width) := by
  induction l generalizing k fuel with
  | nil => cases fuel <;> simp [walkFrom, h.head_null]
  | cons x l ih =>
    obtain _ | fuel := fuel
    · exact absurd hf (Nat.not_succ_le_zero _)
    obtain ⟨h1, h2, h3⟩ := h
    have hrest := ih h3 (Nat.le_of_succ_le_succ hf)
    simp only [walkFrom, h1, h2, Bool.false_eq_true, if_false, hrest, List.length_cons,
      List.range_succ_eq_map, List.map_cons, List.map_map, Nat.zero_mul, Nat.add_zero,
      List.cons.injEq, true_and]
    exact List.map_congr_left fun i _ => (add_mul_width k i c.width).symm

theorem IsColumn.firstNullFrom_eq (hf : l.length ≤ fuel) :
    firstNullFrom isNull c fuel k = k + l.length * c.width := by
  induction l generalizing k fuel with
  | nil => cases fuel <;> simp [firstNullFrom, h.head_null]
  | cons x l ih =>
    obtain _ | fuel := fuel
    · exact absurd hf (Nat.not_succ_le_zero _)
    obtain ⟨h1, h2, h3⟩ := h
    rw [firstNullFrom, h1, h2, if_neg Bool.false_ne_true, ih h3 (Nat.le_of_succ_le_succ hf),
      List.length_cons, add_mul_width]

variable (hdef : isNull default = true) (hw : 0 < c.width)

include hdef hw

theorem IsColumn.walk_eq : walk isNull c k = (List.range l.length).map (k + · * c.width) :=
  h.walkFrom_eq (h.length_le hdef hw)

theorem IsColumn.mem_walk_iff :
    j ∈ walk isNull c k ↔ ∃ i, ∃ hi : i < l.length, j = k + i * c.width ∧ c.read j = l[i] := by
  rw [h.walk_eq hdef hw]
  simp only [List.mem_map, List.mem_range]
  constructor
  · rintro ⟨i, hi, rfl⟩
    exact ⟨i, hi, rfl, h.read_eq hi⟩
  · rintro ⟨i, hi, rfl, -⟩
    exact ⟨i, hi, rfl⟩

theorem IsColumn.firstNull_eq : firstNull isNull c k = k + l.length * c.width :=
  h.firstNullFrom_eq (h.length_le hdef hw)

end

/-! ### Writing -/

/-- `c'` has the shape of `c`, and its cells outside `s` are those of `c`. -/
structure SameBut (c : Columns α) (s : Set Nat) (c' : Columns α) : Prop where
  width : c'.width = c.width
  size : c'.size = c.size
  read : ∀ j, j ∉ s → c'.read j = c.read j

theorem write_eq_some (h : i < c.size) (x : α) :
    ∃ c', c.write i x = some c' ∧ c.SameBut {i} c' ∧ c'.read i = x := by
  refine ⟨_, if_pos h, ⟨rfl, rfl, fun j hj => ?_⟩, ?_⟩
  · have hji : j ≠ i := hj
    simp [Columns.read, update_of_ne hji]
  · simp [Columns.read, if_pos h, update_self]

theorem SameBut.mono {s' : Set Nat} (h : c.SameBut s c') (hs : s ⊆ s') : c.SameBut s' c' :=
  ⟨h.width, h.size, fun j hj => h.read j fun hc => hj (hs hc)⟩

theorem SameBut.trans {c'' : Columns α} (h : c.SameBut s c')
    (h' : c'.SameBut s c'') : c.SameBut s c'' :=
  ⟨h'.width.trans h.width, h'.size.trans h.size, fun j hj => (h'.read j hj).trans (h.read j hj)⟩

/-- The cells from `k` down. -/
def cellsFrom (c : Columns α) (k : Nat) : Set Nat := { j | ∃ i, j = k + i * c.width }

omit [Inhabited α] in
theorem mem_cellsFrom (c : Columns α) (k : Nat) : k ∈ c.cellsFrom k := ⟨0, by simp⟩

omit [Inhabited α] in
theorem cellsFrom_below (c : Columns α) (k i : Nat) :
    c.cellsFrom (k + i * c.width) ⊆ c.cellsFrom k := by
  rintro j ⟨m, rfl⟩
  exact ⟨i + m, by rw [Nat.add_mul, Nat.add_assoc]⟩

omit [Inhabited α] in
theorem cellsFrom_next (c : Columns α) (k : Nat) : c.cellsFrom (k + c.width) ⊆ c.cellsFrom k := by
  simpa using c.cellsFrom_below k 1

omit [Inhabited α] in
theorem not_mem_cellsFrom_below (hw : 0 < c.width) (k : Nat) : k ∉ c.cellsFrom (k + c.width) := by
  rintro ⟨m, hm⟩
  omega

theorem IsColumn.of_sameBut (h : IsColumn isNull c k l) (hs : c.SameBut s c')
    (hk : ∀ j ∈ c.cellsFrom k, j ∉ s) : IsColumn isNull c' k l := by
  induction l generalizing k with
  | nil =>
    intro i
    rw [hs.width, hs.read _ (hk _ ⟨i, rfl⟩)]
    exact h i
  | cons x l ih =>
    refine ⟨(hs.read k (hk k (c.mem_cellsFrom k))).trans h.1, h.2.1, ?_⟩
    rw [hs.width]
    exact ih h.2.2 fun j hj => hk j (c.cellsFrom_next k hj)

theorem IsColumn.append (h : IsColumn isNull c k l) (hw : 0 < c.width)
    (hs : c.SameBut {k + l.length * c.width} c') (hx : c'.read (k + l.length * c.width) = x)
    (hnull : isNull x = false) : IsColumn isNull c' k (l ++ [x]) := by
  induction l generalizing k with
  | nil =>
    simp only [List.length_nil, Nat.zero_mul, Nat.add_zero] at hs hx
    refine ⟨hx, hnull, fun i => ?_⟩
    rw [hs.width, hs.read _ (by rw [Set.mem_singleton_iff]; omega), ← add_mul_width]
    exact h (i + 1)
  | cons y l ih =>
    rw [List.length_cons, add_mul_width] at hs hx
    refine ⟨(hs.read k ?_).trans h.1, h.2.1, ?_⟩
    · rw [Set.mem_singleton_iff]
      omega
    · rw [hs.width]
      exact ih h.2.2 hs hx

section

variable (hdef : isNull default = true) (hw : 0 < c.width)

include hdef hw

/-- Copying the second entry of a column over the first leaves a column from there. -/
theorem IsColumn.write_head (h : IsColumn isNull c k (x :: l)) :
    ∃ c1, c.write k (c.read (k + c.width)) = some c1 ∧ c.SameBut {k} c1
      ∧ c1.read k = c.read (k + c.width) ∧ c1.read (k + c.width) = c.read (k + c.width)
      ∧ IsColumn isNull c1 (k + c.width) l := by
  have hk : k < c.size := by simpa using h.lt_size hdef (i := 0) (by simp)
  obtain ⟨c1, hc1, hs, hread⟩ := write_eq_some hk (c.read (k + c.width))
  refine ⟨c1, hc1, hs, hread, hs.read _ (by rw [Set.mem_singleton_iff]; omega), ?_⟩
  refine h.2.2.of_sameBut hs fun j hj => ?_
  rintro rfl
  exact not_mem_cellsFrom_below hw j hj

theorem IsColumn.removeFrom_eq (h : IsColumn isNull c k (x :: l)) (hf : l.length < fuel) :
    ∃ c', removeFrom isNull fuel c k = some c' ∧ c.SameBut (c.cellsFrom k) c'
      ∧ IsColumn isNull c' k l := by
  induction l generalizing c k x fuel with
  | nil =>
    obtain _ | fuel := fuel
    · omega
    obtain ⟨c1, hc1, hs, hread, hnext, -⟩ := h.write_head hdef hw
    have hnull := h.2.2.head_null
    refine ⟨c1, ?_, hs.mono (Set.singleton_subset_iff.mpr (c.mem_cellsFrom k)), fun i => ?_⟩
    · simp [removeFrom, hc1, hs.width, hnext, hnull]
    · rw [hs.width]
      cases i with
      | zero => rw [Nat.zero_mul, Nat.add_zero, hread, hnull]
      | succ i =>
        rw [add_mul_width, hs.read _ (by rw [Set.mem_singleton_iff]; omega)]
        exact h.2.2 i
  | cons y l ih =>
    obtain _ | fuel := fuel
    · omega
    obtain ⟨c1, hc1, hs, hread, hnext, hrest⟩ := h.write_head hdef hw
    have hcells : c1.cellsFrom (k + c.width) = c.cellsFrom (k + c.width) := by
      rw [cellsFrom, hs.width]
      rfl
    obtain ⟨c', hc', hs', hcol⟩ := ih (hs.width.symm ▸ hw) hrest (Nat.lt_of_succ_lt_succ hf)
    rw [hcells] at hs'
    refine ⟨c', ?_, (hs.mono (Set.singleton_subset_iff.mpr (c.mem_cellsFrom k))).trans
      (hs'.mono (c.cellsFrom_next k)), ?_, h.2.2.2.1, ?_⟩
    · have hy : isNull (c.read (k + c.width)) = false := by rw [h.2.2.1, h.2.2.2.1]
      simp [removeFrom, hc1, hs.width, hnext, hy, hc']
    · rw [hs'.read k (not_mem_cellsFrom_below hw k), hread, h.2.2.1]
    · rw [hs'.width, hs.width]
      exact hcol

theorem IsColumn.remove_eq (h : IsColumn isNull c k l) (hi : i < l.length) :
    ∃ c', remove isNull c (k + i * c.width) = some c' ∧ c.SameBut (c.cellsFrom k) c'
      ∧ IsColumn isNull c' k (l.eraseIdx i) := by
  have hlen := h.length_le hdef hw
  suffices hgen : ∀ fuel, l.length ≤ fuel → ∃ c', removeFrom isNull fuel c (k + i * c.width) = some c'
      ∧ c.SameBut (c.cellsFrom (k + i * c.width)) c' ∧ IsColumn isNull c' k (l.eraseIdx i) by
    obtain ⟨c', hc', hs, hcol⟩ := hgen c.size hlen
    exact ⟨c', hc', hs.mono (c.cellsFrom_below k i), hcol⟩
  clear hlen
  induction l generalizing k i with
  | nil => exact absurd hi (Nat.not_lt_zero i)
  | cons x l ih =>
    intro fuel hf
    cases i with
    | zero =>
      rw [Nat.zero_mul, Nat.add_zero]
      exact h.removeFrom_eq hdef hw hf
    | succ i =>
      rw [add_mul_width]
      obtain ⟨c', hc', hs, hcol⟩ := ih h.2.2 (Nat.lt_of_succ_lt_succ hi) fuel (Nat.le_of_succ_le hf)
      refine ⟨c', hc', hs, (hs.read k fun hc => ?_).trans h.1, h.2.1, ?_⟩
      · exact not_mem_cellsFrom_below hw k (c.cellsFrom_below _ i hc)
      · rw [hs.width]
        exact hcol

end

/-! ### Checked access -/

theorem read?_eq_some : c.read? i = some x ↔ i < c.size ∧ c.read i = x := by
  unfold read? read
  split <;> simp [*]

omit [Inhabited α] in
theorem read?_eq_none (h : c.size ≤ i) : c.read? i = none := if_neg h.not_gt

theorem read?_of_lt (h : i < c.size) : c.read? i = some (c.read i) := read?_eq_some.mpr ⟨h, rfl⟩

/-- The search along a list of cells. -/
def searchList {β : Type*} (f : Nat → Option (Option β)) (done : β) : List Nat → Option β
  | [] => some done
  | i :: js => (f i).bind fun
      | some b => some b
      | none => searchList f done js

section

variable {β : Type*} {f f' : Nat → Option (Option β)} {done : Nat → β} {fuel : Nat} {r : β}

/-- The cells of a column of `n` entries. -/
def cellsOf (c : Columns α) (k n : Nat) : List Nat := (List.range n).map (k + · * c.width)

omit [Inhabited α] in
theorem cellsOf_succ (c : Columns α) (k n : Nat) :
    c.cellsOf k (n + 1) = k :: c.cellsOf (k + c.width) n := by
  simp only [cellsOf, List.range_succ_eq_map, List.map_cons, List.map_map, Nat.zero_mul, Nat.add_zero]
  exact congrArg (k :: ·) (List.map_congr_left fun i _ => add_mul_width k i c.width)

/-- With a null cell below the column, a search goes along the column. -/
theorem IsColumn.searchFrom?_eq (h : IsColumn isNull c k l) (hroom : k + l.length * c.width < c.size)
    (hf : ∀ i ∈ c.cellsOf k l.length, f i = f' i) (hfuel : l.length < fuel) :
    searchFrom? isNull c f done fuel k
      = searchList f' (done (k + l.length * c.width)) (c.cellsOf k l.length) := by
  induction l generalizing k fuel with
  | nil =>
    obtain _ | fuel := fuel
    · omega
    simp only [List.length_nil, Nat.zero_mul, Nat.add_zero] at hroom ⊢
    simp [searchFrom?, read?_of_lt hroom, h.head_null, cellsOf, searchList]
  | cons x l ih =>
    obtain _ | fuel := fuel
    · omega
    obtain ⟨h1, h2, h3⟩ := h
    rw [List.length_cons, cellsOf_succ] at hf
    rw [List.length_cons, add_mul_width] at hroom ⊢
    have hk : k < c.size := by omega
    have hrest := ih h3 hroom (fun i hi => hf i (.tail _ hi)) (Nat.lt_of_succ_lt_succ hfuel)
    rw [cellsOf_succ, searchFrom?, searchList, read?_of_lt hk, Option.bind_some, h1, h2,
      hf k (.head _), hrest]
    rfl

theorem IsColumn.searchFrom?_sound (h : IsColumn isNull c k l)
    (hf : ∀ i ∈ c.cellsOf k l.length, ∀ r, f i = some r → f' i = some r)
    (hrun : searchFrom? isNull c f done fuel k = some r) :
    searchList f' (done (k + l.length * c.width)) (c.cellsOf k l.length) = some r := by
  induction l generalizing k fuel with
  | nil =>
    cases fuel with
    | zero => exact absurd hrun (by simp [searchFrom?])
    | succ fuel =>
      obtain ⟨x, hx, hrun⟩ := Option.bind_eq_some_iff.mp hrun
      rw [← (read?_eq_some.mp hx).2, h.head_null, if_pos rfl] at hrun
      simpa [cellsOf, searchList] using hrun
  | cons x l ih =>
    cases fuel with
    | zero => exact absurd hrun (by simp [searchFrom?])
    | succ fuel =>
      obtain ⟨h1, h2, h3⟩ := h
      rw [List.length_cons, cellsOf_succ] at hf
      rw [List.length_cons, add_mul_width, cellsOf_succ]
      obtain ⟨y, hy, hrun⟩ := Option.bind_eq_some_iff.mp hrun
      rw [← (read?_eq_some.mp hy).2, h1, h2, if_neg Bool.false_ne_true] at hrun
      obtain ⟨b, hb, hrun⟩ := Option.bind_eq_some_iff.mp hrun
      rw [searchList, hf k (.head _) b hb, Option.bind_some]
      cases b with
      | some b => exact hrun
      | none => exact ih h3 (fun i hi => hf i (.tail _ hi)) hrun

theorem searchList_none (done : β) (js : List Nat) :
    searchList (fun _ => some none) done js = some done := by
  induction js with
  | nil => rfl
  | cons i js ih => exact ih

theorem searchList_all (p : Nat → Prop) [DecidablePred p] (js : List Nat) :
    searchList (fun i => some (if p i then none else some false)) true js
      = some (js.all fun i => decide (p i)) := by
  induction js with
  | nil => rfl
  | cons i js ih =>
    rw [searchList, ih, List.all_cons]
    by_cases hp : p i <;> simp [hp]

theorem searchList_find? (p : Nat → Bool) (js : List Nat) :
    searchList (fun i => some (if p i then some (some i) else none)) none js = some (js.find? p) := by
  induction js with
  | nil => rfl
  | cons i js ih =>
    rw [searchList, ih, List.find?_cons]
    by_cases hp : p i = true <;> simp [hp]

end

section

variable (hdef : isNull default = true) (hw : 0 < c.width)
include hdef hw

section

variable (h : IsColumn isNull c k l) (hroom : k + l.length * c.width < c.size)

include h hroom

theorem IsColumn.firstNull?_eq :
    firstNull? isNull c k = some (firstNull isNull c k) := by
  unfold firstNull? search?
  rw [h.searchFrom?_eq hroom (fun _ _ => rfl) (Nat.lt_succ_of_le (h.length_le hdef hw)),
    searchList_none, h.firstNull_eq hdef hw]
  rfl

theorem IsColumn.walk?_eq :
    walk? isNull c k = some (walk isNull c k) := by
  rw [walk?, h.firstNull?_eq hdef hw hroom]
  rfl

end

theorem IsColumn.removeFrom?_eq (h : IsColumn isNull c k (x :: l)) (hf : l.length < fuel) :
    removeFrom? isNull fuel c k
      = if k + (l.length + 1) * c.width < c.size then removeFrom isNull fuel c k else none := by
  induction l generalizing c k x fuel with
  | nil =>
    obtain _ | fuel := fuel
    · omega
    obtain ⟨c1, hc1, hs, -, hnext, -⟩ := h.write_head hdef hw
    have hnull := h.2.2.head_null
    simp only [List.length_nil, Nat.zero_add, Nat.one_mul]
    split
    · rename_i hroom
      have hroom1 : k + c.width < c1.size := by rw [hs.size]; exact hroom
      simp [removeFrom?, removeFrom, read?_of_lt hroom, hc1, read?_of_lt hroom1, hs.width, hnext,
        hnull]
    · rename_i hfull
      simp [removeFrom?, read?_eq_none (not_lt.mp hfull)]
  | cons y l ih =>
    obtain _ | fuel := fuel
    · omega
    obtain ⟨c1, hc1, hs, -, hnext, hrest⟩ := h.write_head hdef hw
    have hk : k + c.width < c.size := by
      have := h.lt_size hdef (i := 1) (by simp)
      omega
    have hk1 : k + c.width < c1.size := by rw [hs.size]; exact hk
    have hy : isNull (c.read (k + c.width)) = false := by rw [h.2.2.1]; exact h.2.2.2.1
    have hrec := ih (hs.width.symm ▸ hw) hrest (Nat.lt_of_succ_lt_succ hf)
    rw [hs.width, hs.size] at hrec
    have hstep : removeFrom isNull (fuel + 1) c k = removeFrom isNull fuel c1 (k + c.width) := by
      simp [removeFrom, hc1, hs.width, hnext, hy]
    have hstep? : removeFrom? isNull (fuel + 1) c k = removeFrom? isNull fuel c1 (k + c.width) := by
      simp [removeFrom?, read?_of_lt hk, hc1, read?_of_lt hk1, hnext, hy]
    rw [List.length_cons, add_mul_width, hstep, hstep?, hrec]

theorem IsColumn.remove?_eq (h : IsColumn isNull c k l) (hi : i < l.length) :
    remove? isNull c (k + i * c.width)
      = if k + l.length * c.width < c.size then remove isNull c (k + i * c.width) else none := by
  have hlen := h.length_le hdef hw
  suffices hgen : ∀ fuel, l.length ≤ fuel → removeFrom? isNull fuel c (k + i * c.width)
      = if k + l.length * c.width < c.size then removeFrom isNull fuel c (k + i * c.width)
        else none from hgen c.size hlen
  clear hlen
  induction l generalizing k i with
  | nil => exact absurd hi (Nat.not_lt_zero i)
  | cons x l ih =>
    intro fuel hf
    cases i with
    | zero =>
      rw [Nat.zero_mul, Nat.add_zero]
      exact h.removeFrom?_eq hdef hw hf
    | succ i =>
      rw [List.length_cons, add_mul_width, add_mul_width]
      exact ih h.2.2 (Nat.lt_of_succ_lt_succ hi) fuel (Nat.le_of_succ_le hf)

end

/-! ### A table as a family of bags -/

variable {E E' : Nat → List α}

/-- Column `k` holds the entries `E k`, in some order. -/
def Holds (isNull : α → Bool) (c : Columns α) (E : Nat → List α) : Prop :=
  ∀ k < c.width, ∃ l, IsColumn isNull c k l ∧ l.Perm (E k)

theorem Holds.congr (h : Holds isNull c E) (hE : ∀ k < c.width, (E k).Perm (E' k)) :
    Holds isNull c E' := fun k hk => by
  obtain ⟨l, hl, hperm⟩ := h k hk
  exact ⟨l, hl, hperm.trans (hE k hk)⟩

section

variable (hdef : isNull default = true) (h : Holds isNull c E) (hk : k < c.width)

include hdef h hk

theorem Holds.read_mem (hj : j ∈ walk isNull c k) : c.read j ∈ E k ∧ j % c.width = k := by
  obtain ⟨l, hl, hperm⟩ := h k hk
  obtain ⟨i, hi, rfl, hread⟩ := (hl.mem_walk_iff hdef (Nat.zero_lt_of_lt hk)).mp hj
  refine ⟨hperm.mem_iff.mp (hread ▸ List.getElem_mem hi), ?_⟩
  rw [Nat.add_mul_mod_self_right, Nat.mod_eq_of_lt hk]

theorem Holds.exists_cell (hx : x ∈ E k) : ∃ j ∈ walk isNull c k, c.read j = x := by
  obtain ⟨l, hl, hperm⟩ := h k hk
  obtain ⟨i, hi, hget⟩ := List.getElem_of_mem (hperm.mem_iff.mpr hx)
  have hread := hl.read_eq hi
  exact ⟨_, (hl.mem_walk_iff hdef (Nat.zero_lt_of_lt hk)).mpr ⟨i, hi, rfl, hread⟩, hread.trans hget⟩

end

/-- The walk from the second layer of the first column stays in that column. -/
theorem Holds.read_mem_width (hdef : isNull default = true) (hw : 0 < c.width)
    (h : Holds isNull c E) (hj : j ∈ walk isNull c c.width) : c.read j ∈ E 0 := by
  obtain ⟨l, hl, hperm⟩ := h 0 hw
  have htail := hl.tail
  rw [Nat.zero_add] at htail
  obtain ⟨i, hi, -, hread⟩ := (htail.mem_walk_iff hdef hw).mp hj
  exact hperm.mem_iff.mp (List.mem_of_mem_tail (hread ▸ List.getElem_mem hi))

omit [Inhabited α] in
theorem cellsFrom_mod (hk : k < c.width) (hj : j ∈ c.cellsFrom k) : j % c.width = k := by
  obtain ⟨i, rfl⟩ := hj
  rw [Nat.add_mul_mod_self_right, Nat.mod_eq_of_lt hk]

theorem IsColumn.of_other {m : Nat} (h : IsColumn isNull c m l) (hm : m < c.width) (hk : k < c.width)
    (hmk : m ≠ k) (hs : c.SameBut (c.cellsFrom k) c') : IsColumn isNull c' m l := by
  refine h.of_sameBut hs fun j hj hjk => hmk ?_
  rw [← cellsFrom_mod hm hj, ← cellsFrom_mod hk hjk]

theorem Holds.of_column (h : Holds isNull c E) (hk : k < c.width)
    (hs : c.SameBut (c.cellsFrom k) c') (hcol : IsColumn isNull c' k l) (hperm : l.Perm (E' k))
    (hE : ∀ m, m ≠ k → E' m = E m) : Holds isNull c' E' := by
  intro m hm
  rw [hs.width] at hm
  by_cases hmk : m = k
  · rw [hmk]
    exact ⟨l, hcol, hperm⟩
  · obtain ⟨l', hl', hperm'⟩ := h m hm
    exact ⟨l', hl'.of_other hm hk hmk hs, hE m hmk ▸ hperm'⟩

section

variable (hdef : isNull default = true) (h : Holds isNull c E) (hk : k < c.width)

include hdef h hk

theorem Holds.put (hroom : k + (E k).length * c.width < c.size) (hx : isNull x = false) :
    ∃ c', c.write (firstNull isNull c k) x = some c' ∧ c'.width = c.width ∧ c'.size = c.size
      ∧ Holds isNull c' (update E k (x :: E k)) := by
  have hw := Nat.zero_lt_of_lt hk
  obtain ⟨l, hl, hperm⟩ := h k hk
  rw [hl.firstNull_eq hdef hw]
  rw [← hperm.length_eq] at hroom
  obtain ⟨c', hc', hs, hread⟩ := write_eq_some hroom x
  refine ⟨c', hc', hs.width, hs.size, ?_⟩
  have hmono : c.SameBut (c.cellsFrom k) c' :=
    hs.mono (Set.singleton_subset_iff.mpr ⟨l.length, rfl⟩)
  refine h.of_column hk hmono (hl.append hw hs hread hx) ?_ fun m hm => update_of_ne hm _ _
  rw [update_self]
  exact (List.perm_append_singleton x l).trans (hperm.cons x)

theorem Holds.take (hj : j ∈ walk isNull c k) (hl : (c.read j :: l).Perm (E k)) :
    ∃ c', remove isNull c j = some c' ∧ c.SameBut (c.cellsFrom k) c'
      ∧ Holds isNull c' (update E k l) := by
  have hw := Nat.zero_lt_of_lt hk
  obtain ⟨l', hl', hperm⟩ := h k hk
  obtain ⟨i, hi, rfl, hread⟩ := (hl'.mem_walk_iff hdef hw).mp hj
  obtain ⟨c', hc', hs, hcol⟩ := hl'.remove_eq hdef hw hi
  refine ⟨c', hc', hs, h.of_column hk hs hcol ?_ fun m hm => update_of_ne hm _ _⟩
  rw [update_self]
  have hcons : (l'[i] :: l'.eraseIdx i).Perm (l'[i] :: l) :=
    (List.getElem_cons_eraseIdx_perm hi).trans (hperm.trans (hread ▸ hl.symm))
  exact hcons.cons_inv

end

end Columns
