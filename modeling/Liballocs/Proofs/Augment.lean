/-
`augment_sequence` does what it says.

A request at a sane sequence's end is appended; one inside overwrites the entries it covers, after
those at its ends have been split.  Touching counts as overlapping, so splitting can leave an empty
entry, which the shift to the left removes.  A request past the end does not leave a sane sequence.
-/
import Liballocs.Proofs.MappingSequence

namespace Liballocs.MappingSequence

open Segments

variable {s : MappingSequence} {r : Mapping} {pre mid post : List MappingEntry} {x y : MappingEntry}

/-! ### The splitting code

While it works, the live entries fall into those before the affected stretch, the
stretch itself and those after it, and the two indices point at the ends of the
stretch.
-/

/-- The entries are `pre`, then the affected stretch `mid`, then `post`. -/
structure Shape (c : Splitting) (pre mid post : List MappingEntry) : Prop where
  entries : c.seq.entries = pre ++ (mid ++ post)
  first : c.first = pre.length
  last : c.last + 1 = pre.length + mid.length

theorem Shape.splitAtBegin {c : Splitting} (h : Shape c pre (x :: mid) post) (b : Nat) :
    Shape (splitAtBegin c b) (pre ++ [{ x with end_ := b }]) ({ x with begin := b } :: mid)
      post := by
  obtain ⟨hE, hfirst, hlast⟩ := h
  simp only [List.cons_append, List.length_cons] at hE hlast
  have h1 := entries_setMappingEnd (entries_copyAllRight hE hfirst) hfirst b
  have h2 := entries_setMappingBegin (n := c.first + 1)
    (p := pre ++ [{ x with end_ := b }]) (by simpa using h1) (by simp [hfirst]) b
  refine ⟨h2, by simp [MappingSequence.splitAtBegin, hfirst], ?_⟩
  simp only [MappingSequence.splitAtBegin, List.length_append, List.length_cons, List.length_nil]
  split_ifs <;> omega

theorem Shape.splitAtEnd {c : Splitting} {m : List MappingEntry}
    (h : Shape c pre (m ++ [y]) post) (e : Nat) :
    Shape (splitAtEnd c e) pre (m ++ [{ y with end_ := e }]) ({ y with begin := e } :: post) := by
  obtain ⟨hE, hfirst, hlast⟩ := h
  have hl : c.last = (pre ++ m).length := by
    simp only [List.length_append, List.length_cons, List.length_nil] at hlast ⊢
    omega
  have h0 : c.seq.entries = (pre ++ m) ++ y :: post := by simpa using hE
  have h1 := entries_setMappingBegin (n := c.last + 1) (p := pre ++ m ++ [y])
    (by simpa using entries_copyAllRight h0 hl) (by simp [hl]; omega) e
  have h2 := entries_setMappingEnd (p := pre ++ m) (by simpa using h1) hl e
  exact ⟨by simpa [MappingSequence.splitAtEnd] using h2, hfirst,
    by simpa [MappingSequence.splitAtEnd] using hlast⟩

theorem Shape.dropObsolete {c : Splitting}
    (h : Shape c pre (x :: mid) post) : Shape (dropObsolete c) pre [x] post := by
  obtain ⟨hE, hfirst, hlast⟩ := h
  simp only [List.length_cons] at hlast
  unfold MappingSequence.dropObsolete
  split
  · have hn : c.last - c.first = mid.length := by omega
    have h1 := entries_copyAllLeft (n := c.last + 1) (p := pre ++ [x]) (m := mid)
      (by simpa using hE) (by simp; omega)
    refine ⟨by simpa [hn] using h1, hfirst, ?_⟩
    simp only [List.length_cons, List.length_nil]
    omega
  · rename_i hc
    obtain rfl : mid = [] := List.length_eq_zero_iff.mp (by omega)
    exact ⟨hE, hfirst, hlast⟩

/-- Overwriting leaves the part of the first affected entry below the request, the request's entry,
and the part of the last one above it. -/
theorem entries_overwrite {last : Nat} {p q : Bool}
    (hE : s.entries = pre ++ (mid ++ post)) (hx : mid.head? = some x)
    (hy : mid.getLast? = some y) (hlast : last + 1 = pre.length + mid.length) :
    (s.overwrite r pre.length last p q).entries
      = (pre ++ if p then [{ x with end_ := r.begin }] else [])
        ++ r.entry :: ((if q then [{ y with begin := r.end_ }] else []) ++ post) := by
  obtain ⟨ms, rfl⟩ := List.head?_eq_some_iff.mp hx
  have h0 : Shape ⟨s, pre.length, last⟩ pre (x :: ms) post := ⟨hE, rfl, hlast⟩
  -- After the first split the affected entries begin at `x'`, which is `x` or its upper part.
  obtain ⟨x', hx', h1⟩ : ∃ x', ({ x' with begin := r.end_ } : MappingEntry)
        = { x with begin := r.end_ } ∧
      Shape (if p then splitAtBegin ⟨s, pre.length, last⟩ r.begin else ⟨s, pre.length, last⟩)
        (pre ++ if p then [{ x with end_ := r.begin }] else []) (x' :: ms) post := by
    cases p with
    | true => exact ⟨{ x with begin := r.begin }, rfl, h0.splitAtBegin r.begin⟩
    | false => exact ⟨x, rfl, by simpa using h0⟩
  generalize hc1 : (if p then splitAtBegin ⟨s, pre.length, last⟩ r.begin
    else ⟨s, pre.length, last⟩) = c1 at h1
  generalize hpre : (pre ++ if p then [{ x with end_ := r.begin }] else []) = pre' at h1 ⊢
  -- After the second they are again a nonempty stretch, of which only the head matters.
  obtain ⟨z, zs, h2⟩ : ∃ z zs, Shape (if q then splitAtEnd c1 r.end_ else c1) pre' (z :: zs)
      ((if q then [{ y with begin := r.end_ }] else []) ++ post) := by
    cases q with
    | false => exact ⟨x', ms, by simpa using h1⟩
    | true =>
      rcases List.eq_nil_or_concat ms with rfl | ⟨init, l, rfl⟩
      · obtain rfl : x = y := by simpa using hy
        have := Shape.splitAtEnd (m := []) (by simpa using h1) r.end_
        exact ⟨_, _, by simpa [hx'] using this⟩
      · obtain rfl : l = y := by simpa [List.getLast?_cons] using hy
        have := Shape.splitAtEnd (m := x' :: init) (by simpa using h1) r.end_
        exact ⟨_, _, by simpa using this⟩
  have h3 := h2.dropObsolete
  have h4 := entries_setMapping (by simpa using h3.entries) h3.first r.entry
  simpa [overwrite, hc1] using h4

/-! ### Which entries are affected -/

theorem firstOverlapped_eq (hE : s.entries = pre ++ x :: post)
    (hle : s.nused ≤ mappingSequenceMaxLen)
    (hpre : ∀ a ∈ pre, a.end_ < r.begin) (hx : x.begin < r.end_ ∧ r.begin ≤ x.end_) :
    s.firstOverlapped r = some pre.length := by
  obtain ⟨hn, hl⟩ := entries_eq_iff.mp hE
  simp only [List.length_append, List.length_cons] at hn
  rw [firstOverlapped, List.find?_range_eq_some]
  refine ⟨?_, by rw [List.mem_range]; omega, fun j hj => ?_⟩
  · rw [overlapsAt, mappings_eq hE rfl]
    simp [overlaps, hx]
  · have hm := hl j (by simp; omega)
    rw [List.getElem?_append_left hj] at hm
    have := hpre _ (List.mem_of_getElem? hm)
    simp only [overlapsAt, overlaps, Bool.not_and, Bool.or_eq_true, Bool.not_eq_true',
      decide_eq_false_iff_not]
    right; omega

theorem find?_range_reverse_eq_some {p : Nat → Bool} {n i : Nat} :
    (List.range n).reverse.find? p = some i
      ↔ i < n ∧ p i = true ∧ ∀ j, i < j → j < n → p j = false := by
  induction n with
  | zero => simp
  | succ n ih =>
    rw [List.range_succ, List.reverse_append, List.reverse_singleton, List.singleton_append,
      List.find?_cons]
    cases hp : p n with
    | true =>
      constructor
      · intro h
        obtain rfl : n = i := Option.some.inj h
        exact ⟨Nat.lt_succ_self n, hp, fun j h1 h2 => by omega⟩
      · intro ⟨hi, _, hgt⟩
        rcases Nat.lt_or_eq_of_le (Nat.le_of_lt_succ hi) with hlt | rfl
        · rw [hgt n hlt (Nat.lt_succ_self n)] at hp
          cases hp
        · rfl
    | false =>
      rw [ih]
      constructor
      · intro ⟨hi, hpi, hgt⟩
        refine ⟨Nat.lt_succ_of_lt hi, hpi, fun j h1 h2 => ?_⟩
        rcases Nat.lt_or_eq_of_le (Nat.le_of_lt_succ h2) with hlt | rfl
        · exact hgt j h1 hlt
        · exact hp
      · intro ⟨hi, hpi, hgt⟩
        have hne : i ≠ n := by
          intro heq
          rw [heq, hp] at hpi
          cases hpi
        exact ⟨by omega, hpi, fun j h1 h2 => hgt j h1 (Nat.lt_succ_of_lt h2)⟩

theorem lastOverlapped_eq (hE : s.entries = pre ++ y :: post)
    (hpost : ∀ a ∈ post, r.end_ ≤ a.begin) (hy : y.begin < r.end_ ∧ r.begin ≤ y.end_) :
    s.lastOverlapped r = some pre.length := by
  obtain ⟨hn, hl⟩ := entries_eq_iff.mp hE
  simp only [List.length_append, List.length_cons] at hn
  refine find?_range_reverse_eq_some.mpr ⟨by omega, ?_, fun j h1 h2 => ?_⟩
  · rw [overlapsAt, mappings_eq hE rfl]
    simp [overlaps, hy]
  · have hm := hl j (by simp; omega)
    obtain ⟨k, rfl⟩ : ∃ k, j = pre.length + 1 + k := ⟨j - pre.length - 1, by omega⟩
    rw [List.getElem?_append_right (by omega),
      show pre.length + 1 + k - pre.length = k + 1 by omega, List.getElem?_cons_succ] at hm
    have := hpost _ (List.mem_of_getElem? hm)
    simp only [overlapsAt, overlaps, Bool.and_eq_false_iff, decide_eq_false_iff_not]
    left; omega

/-- How a request that starts inside a sane sequence divides its entries. -/
structure Divides (s : MappingSequence) (r : Mapping) (pre mid post : List MappingEntry)
    (x y : MappingEntry) : Prop where
  entries : s.entries = pre ++ (mid ++ post)
  head : mid.head? = some x
  getLast : mid.getLast? = some y
  pre_lt : ∀ a ∈ pre, a.end_ < r.begin
  mid_lt : ∀ a ∈ mid, a.begin < r.end_
  mid_ge : ∀ a ∈ mid, r.begin ≤ a.end_
  post_ge : ∀ a ∈ post, r.end_ ≤ a.begin

theorem Sane.exists_divides (hs : s.Sane)
    (hb : s.begin ≤ r.begin) (hlt : r.begin < s.end_) (hne : r.begin < r.end_) :
    ∃ pre mid post x y, Divides s r pre mid post x y ∧ x.begin ≤ r.begin := by
  have hc := hs.contig
  obtain ⟨pre, rest, hE, hpre, hrest⟩ := hc.span (·.end_)
    (fun a ha => ⟨(hc.mem_bounds ha).2.1.le, le_rfl⟩) r.begin
  rw [hE] at hc
  obtain ⟨m, hc1, hc2⟩ := contig_append.mp hc
  have hm : m ≤ r.begin := hc1.end_le hb fun a ha => (hpre a ha).le
  obtain ⟨mid, post, rfl, hmid, hpost⟩ := hc2.span (·.begin)
    (fun a ha => ⟨le_rfl, (hc2.mem_bounds ha).2.1.le⟩) r.end_
  -- The stretch is not empty: its first entry begins at or before the request.
  cases mid with
  | nil =>
    exfalso
    cases post with
    | nil =>
      have : m = s.end_ := hc2
      omega
    | cons a l =>
      have h1 : a.begin = m := hc2.1
      have h2 : r.end_ ≤ a.begin := hpost a (by simp)
      omega
  | cons x ms =>
    obtain ⟨y, hy⟩ : ∃ y, (x :: ms).getLast? = some y := ⟨_, List.getLast?_cons⟩
    have hx : x.begin = m := hc2.1
    exact ⟨pre, x :: ms, post, x, y, ⟨hE, rfl, hy, hpre, hmid,
      fun a ha => hrest a (by simp only [List.mem_append]; exact .inl ha), hpost⟩, by omega⟩

theorem exists_init {l : List MappingEntry} (h : l = pre ++ (mid ++ post))
    (hlast : mid.getLast? = some y) :
    ∃ init, mid = init ++ [y] ∧ l = (pre ++ init) ++ y :: post := by
  obtain ⟨init, rfl⟩ := List.getLast?_eq_some_iff.mp hlast
  exact ⟨init, rfl, by simpa using h⟩

theorem Divides.firstOverlapped (h : Divides s r pre mid post x y)
    (hle : s.nused ≤ mappingSequenceMaxLen) :
    s.firstOverlapped r = some pre.length ∧ s.mappings pre.length = x := by
  obtain ⟨ms, rfl⟩ := List.head?_eq_some_iff.mp h.head
  have hE : s.entries = pre ++ x :: (ms ++ post) := by simpa using h.entries
  exact ⟨firstOverlapped_eq hE hle h.pre_lt ⟨h.mid_lt x (by simp), h.mid_ge x (by simp)⟩,
    mappings_eq hE rfl⟩

theorem Divides.lastOverlapped (h : Divides s r pre mid post x y) :
    ∃ last, s.lastOverlapped r = some last ∧ last + 1 = pre.length + mid.length ∧
      s.mappings last = y := by
  obtain ⟨init, rfl, hE⟩ := exists_init h.entries h.getLast
  refine ⟨(pre ++ init).length, lastOverlapped_eq hE h.post_ge
    ⟨h.mid_lt y (by simp), h.mid_ge y (by simp)⟩, by simp; omega, mappings_eq hE rfl⟩

theorem Divides.below_eq (h : Divides s r pre mid post x y) (hs : s.Sane) (hx : x.begin ≤ r.begin) :
    below r.begin s.entries
      = pre ++ if x.begin != r.begin then [{ x with end_ := r.begin }] else [] := by
  obtain ⟨ms, rfl⟩ := List.head?_eq_some_iff.mp h.head
  have hc := hs.contig
  rw [h.entries] at hc
  obtain ⟨m, hc1, hc2⟩ := contig_append.mp hc
  obtain ⟨hxm, hxlt, hc3⟩ := hc2
  have hxe : r.begin ≤ x.end_ := h.mid_ge x (by simp)
  have hpre : below r.begin pre = pre := below_eq_self fun a ha =>
    ⟨(hc1.mem_bounds ha).2.1, (h.pre_lt a ha).le⟩
  have hrest : below r.begin (ms ++ post) = [] := below_eq_nil fun a ha =>
    hxe.trans (hc3.mem_bounds ha).1
  rw [h.entries, below_append, hpre, List.cons_append, below_cons, hrest]
  congr 1
  by_cases hp : x.begin = r.begin
  · have : ¬ Ranged.lo x < r.begin := by
      show ¬ x.begin < r.begin
      omega
    simp [hp, this]
  · have hlt : Ranged.lo x < r.begin := lt_of_le_of_ne hx hp
    rw [if_pos hlt, if_pos (by simpa using hp)]
    have : clipHi r.begin x = { x with end_ := r.begin } := by
      unfold clipHi
      split
      · rename_i hle
        have : x.end_ = r.begin := le_antisymm hle hxe
        rw [← this]
      · rfl
    rw [this]

theorem Divides.above_eq (h : Divides s r pre mid post x y) (hs : s.Sane) (hle : r.end_ ≤ s.end_) :
    above r.end_ s.entries
      = (if y.end_ != r.end_ then [{ y with begin := r.end_ }] else []) ++ post := by
  obtain ⟨init, rfl, hE⟩ := exists_init h.entries h.getLast
  have hc := hs.contig
  rw [hE] at hc
  obtain ⟨m, hc1, hym, hylt, hc3⟩ := contig_append.mp hc
  have hyb : y.begin < r.end_ := h.mid_lt y (by simp)
  have hye : r.end_ ≤ y.end_ := by
    cases post with
    | nil =>
      have : y.end_ = s.end_ := hc3
      omega
    | cons a l =>
      have h1 : a.begin = y.end_ := hc3.1
      have := h.post_ge a (by simp)
      omega
  have hpre : above r.end_ (pre ++ init) = [] := above_eq_nil fun a ha => by
    have h1 : Ranged.hi a ≤ m := (hc1.mem_bounds ha).2.2
    have h2 : m = y.begin := hym.symm
    omega
  have hpost : above r.end_ post = post := above_eq_self fun a ha =>
    ⟨(hc3.mem_bounds ha).2.1, h.post_ge a ha⟩
  rw [hE, above_append, hpre, List.nil_append, above_cons, hpost]
  by_cases hq : y.end_ = r.end_
  · have : ¬ r.end_ < Ranged.hi y := by
      show ¬ r.end_ < y.end_
      omega
    simp [hq, this]
  · have hlt : r.end_ < Ranged.hi y := lt_of_le_of_ne hye (Ne.symm hq)
    rw [if_pos hlt, if_pos (by simpa using hq)]
    have : clipLo r.end_ y = { y with begin := r.end_ } := by
      unfold clipLo
      rw [if_neg]
      · rfl
      · exact not_le.mpr hyb
    rw [this]
    rfl

/-! ### The header -/

/-- The header of a sequence: everything but its array. -/
def header (s : MappingSequence) : Nat × Nat × Option String := (s.begin, s.end_, s.filename)

theorem header_dropObsolete (c : Splitting) : (dropObsolete c).seq.header = c.seq.header := by
  unfold dropObsolete
  split <;> rfl

theorem header_overwrite (s : MappingSequence) (r : Mapping) (first last : Nat) (p q : Bool) :
    (s.overwrite r first last p q).header = s.header := by
  have hset : ∀ (t : MappingSequence) i e, (t.setMapping i e).header = t.header := fun _ _ _ => rfl
  rw [overwrite, hset, header_dropObsolete]
  cases p <;> cases q <;> rfl

/-! ### The cases of a call -/

theorem length_ite_singleton (p : Bool) (a : MappingEntry) :
    (if p then [a] else []).length = p.toNat := by
  cases p <;> rfl

/-- What a call that overlaps the sequence leaves behind. -/
structure Overwritten (s : MappingSequence) (r : Mapping) (s' : MappingSequence) : Prop where
  header : s'.header = s.header
  nused : s'.nused ≤ mappingSequenceMaxLen
  entries : ∃ rest, s'.entries = below r.begin s.entries ++ r.entry :: rest ∧
    (r.end_ ≤ s.end_ → rest = above r.end_ s.entries) ∧
    (s.end_ < r.end_ → ∃ y ∈ s.entries, y.end_ = s.end_ ∧ rest = [{ y with begin := r.end_ }])

/-- Of a request that runs past the end, the last affected entry is the last one. -/
theorem Divides.overrun (h : Divides s r pre mid post x y) (hs : s.Sane) (hgt : s.end_ < r.end_) :
    y ∈ s.entries ∧ y.end_ = s.end_ ∧ post = [] := by
  obtain ⟨init, rfl, hE⟩ := exists_init h.entries h.getLast
  have hc := hs.contig
  rw [hE] at hc
  obtain ⟨m, -, -, -, hpost⟩ := contig_append.mp hc
  cases post with
  | nil => exact ⟨by simp [hE], hpost, rfl⟩
  | cons a l =>
    have h1 : a.begin < a.end_ ∧ a.end_ ≤ s.end_ := (hpost.mem_bounds (.head _)).2
    have h2 := h.post_ge a (.head _)
    omega

theorem Divides.overwritten (h : Divides s r pre mid post x y) (hs : s.Sane)
    (hx : x.begin ≤ r.begin) {last : Nat}
    (hlast : last + 1 = pre.length + mid.length) (hroom : ¬ mappingSequenceMaxLen - s.nused
      < (x.begin != r.begin).toNat + (y.end_ != r.end_).toNat) :
    Overwritten s r (s.overwrite r pre.length last (x.begin != r.begin) (y.end_ != r.end_)) := by
  have hE := entries_overwrite (r := r) (p := x.begin != r.begin) (q := y.end_ != r.end_)
    h.entries h.head h.getLast hlast
  refine ⟨header_overwrite .., ?_, _, (h.below_eq hs hx) ▸ hE, fun hle => ?_, fun hgt => ?_⟩
  · have hlen := congrArg List.length hE
    have hlen0 := congrArg List.length h.entries
    have hle := hs.le
    simp only [length_entries, List.length_append, List.length_cons, length_ite_singleton]
      at hlen hlen0
    have hmid : mid.length ≠ 0 := fun h0 => by
      have := h.head
      simp [List.length_eq_zero_iff.mp h0] at this
    omega
  · exact (h.above_eq hs hle).symm
  · obtain ⟨hmem, hye, rfl⟩ := h.overrun hs hgt
    have hq : (y.end_ != r.end_) = true := by simp; omega
    exact ⟨y, hmem, hye, by simp [hq]⟩

/-- Everything `augment_sequence` can do to a sane sequence. -/
theorem Sane.augmentSequence_cases (hs : s.Sane)
    (objectBelow : Nat → Nat) (hb : s.begin ≤ r.begin) (hne : r.begin < r.end_) :
    s.augmentSequence objectBelow r = some (false, s) ∨
    (s.end_ = r.begin ∧ s.nused < mappingSequenceMaxLen ∧
      s.augmentSequence objectBelow r = some (true, s.extend r)) ∨
    (r.begin < s.end_ ∧ ∃ s', Overwritten s r s' ∧
      s.augmentSequence objectBelow r = some (true, s')) := by
  have hend : s.end_ ≠ 0 := Nat.ne_of_gt (Nat.lt_of_le_of_lt (Nat.zero_le _) hs.begin_lt_end)
  unfold augmentSequence
  by_cases hclean : s.end_ = r.begin
  · have hc : (s.end_ == 0 || s.end_ == r.begin) = true := by simp [hclean]
    simp only [hc, Bool.true_or, if_true]
    split
    · rename_i hcond
      split
      · exact Or.inr (Or.inl ⟨hclean, lt_of_le_of_ne hs.le hcond.2.2, rfl⟩)
      · exact Or.inl rfl
    · exact Or.inl rfl
  · have hc : (s.end_ == 0 || s.end_ == r.begin) = false := by simp [hclean, hend]
    simp only [hc, Bool.false_or, Bool.false_eq_true, if_false]
    split
    · rename_i hcond
      have hlt : r.begin < s.end_ := by
        have hov := hcond.1
        simp only [overlaps, Bool.and_eq_true, decide_eq_true_eq] at hov
        omega
      obtain ⟨pre, mid, post, x, y, hd, hx⟩ := hs.exists_divides hb hlt hne
      obtain ⟨hf, hfx⟩ := hd.firstOverlapped hs.le
      obtain ⟨last, hl, hlast, hly⟩ := hd.lastOverlapped
      simp only [hf, hl, Option.bind_eq_bind, Option.bind_some, hfx, hly]
      split
      · exact Or.inl rfl
      · split
        · exact Or.inl rfl
        · rename_i hroom
          exact Or.inr (Or.inr ⟨hlt, _, hd.overwritten hs hx hlast hroom, rfl⟩)
    · exact Or.inl rfl

/-! ### What a successful call means -/

theorem Overwritten.sane {s' : MappingSequence} (h : Overwritten s r s')
    (hs : s.Sane) (hb : s.begin ≤ r.begin) (hne : r.begin < r.end_) (he : r.end_ ≤ s.end_) :
    s'.Sane := by
  obtain ⟨rest, hE, hrest, -⟩ := h.entries
  rw [hrest he] at hE
  have hh := h.header
  simp only [MappingSequence.header, Prod.mk.injEq] at hh
  refine ⟨?_, h.nused, hh.1 ▸ hs.begin_pos, ?_⟩
  · rw [← length_entries, hE, List.length_append, List.length_cons]
    omega
  · rw [hh.1, hh.2.1, hE]
    exact hs.contig.replace r.entry hb hne he

/-- **`augment_sequence` is correct.**  On a sane sequence, for a request at its end or inside it, the
call returns; a successful one leaves a sane sequence over the old begin and the larger end that
describes the request's addresses as the request does and all others as before, and an unsuccessful
one changes nothing. -/
theorem augmentSequence_correct (objectBelow : Nat → Nat) (s : MappingSequence) (r : Mapping)
    (hs : s.Sane) (hb : s.begin ≤ r.begin) (hne : r.begin < r.end_)
    (hr : r.begin = s.end_ ∨ r.end_ ≤ s.end_) :
    ∃ ok s', s.augmentSequence objectBelow r = some (ok, s') ∧
      (ok = true →
        s'.Sane ∧ s'.begin = s.begin ∧ s'.end_ = max s.end_ r.end_ ∧
        (∀ a, r.begin ≤ a → a < r.end_ →
          (s'.findEntry a).map MappingEntry.attributes
            = some (r.prot, r.flags, r.filename.isNone, r.caller)) ∧
        (∀ a, a < r.begin ∨ r.end_ ≤ a →
          (s'.findEntry a).map MappingEntry.attributes
            = (s.findEntry a).map MappingEntry.attributes)) ∧
      (ok = false → s' = s) := by
  rcases hs.augmentSequence_cases objectBelow hb hne with hno | ⟨hend, hroom, hyes⟩ | ⟨hlt, s', ho, hyes⟩
  · exact ⟨false, s, hno, by simp, fun _ => rfl⟩
  · obtain ⟨hsane, hbegin⟩ := hs.extend hroom hend hne
    refine ⟨true, s.extend r, hyes, fun _ => ⟨hsane, hbegin, ?_, fun a h1 h2 => ?_, fun a ha => ?_⟩,
      by simp⟩
    · show r.end_ = max s.end_ r.end_
      omega
    · rw [findEntry_extend hs hend, if_pos ⟨h1, h2⟩]
      rfl
    · rw [findEntry_extend hs hend, if_neg (by omega)]
  · have he : r.end_ ≤ s.end_ := by omega
    obtain ⟨rest, hE, hrest, -⟩ := ho.entries
    rw [hrest he] at hE
    have hh := ho.header
    simp only [MappingSequence.header, Prod.mk.injEq] at hh
    refine ⟨true, s', hyes, fun _ => ⟨ho.sane hs hb hne he, hh.1, ?_, fun a h1 h2 => ?_,
      fun a ha => ?_⟩, by simp⟩
    · rw [hh.2.1]
      omega
    · rw [findEntry_eq_at?, hE]
      exact congrArg (Option.map MappingEntry.attributes) (at?_replace_inside r.entry h1 h2)
    · rw [findEntry_eq_at?, findEntry_eq_at?, hE]
      exact at?_replace_outside r.entry _ (fun _ _ => rfl) (fun _ _ => rfl) hne.le ha

/-- A writable mapping whose middle page becomes read-only. -/
theorem augmentSequence_correct_middle :
    let s : MappingSequence := extend {} ⟨4096, 16384, 3, 2, 0, none, 0⟩
    ∃ s', s.augmentSequence id ⟨8192, 12288, 1, 2, 0, none, 0⟩ = some (true, s') ∧ s'.Sane ∧
      (s'.findEntry 8192).map MappingEntry.attributes = some (1, 2, true, 0) := by
  intro s
  obtain ⟨ok, s', hcall, hok, -⟩ := augmentSequence_correct id s
    ⟨8192, 12288, 1, 2, 0, none, 0⟩ ⟨by decide, by decide, by decide, by decide⟩
    (by decide) (by decide) (.inr (by decide))
  have htrue : (s.augmentSequence id ⟨8192, 12288, 1, 2, 0, none, 0⟩).map Prod.fst = some true := by
    decide
  obtain rfl : ok = true := by simpa [hcall] using htrue
  obtain ⟨hsane, -, -, hin, -⟩ := hok rfl
  exact ⟨s', hcall, hsane, hin 8192 (by decide) (by decide)⟩

end Liballocs.MappingSequence
