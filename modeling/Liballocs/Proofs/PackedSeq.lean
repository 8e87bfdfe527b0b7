/-
What is cached of a packed sequence.

`Caches`: the set bits and the records are those of the first elements of the enumeration, and the
offset is where the next one starts.  One turn of the loop appends an element, and a call those up to
its target.  The last of them may start beyond the target, with a bit that is not there.
-/
import Liballocs.PackedSeq
import Mathlib.Data.Nat.Init

namespace Liballocs

/-- An element that a family enumerates. -/
structure Element where
  start : Nat
  size : Nat
  type : Nat
deriving DecidableEq

/-- Where an element ends. -/
def Element.end_ (e : Element) : Nat := e.start + e.size

/-- Nothing of the sequence is cached.  Its bitmap may be of any size. -/
structure PackedSequence.Blank (s : PackedSequence) : Prop where
  bits : ∀ i, s.startsBitmap i = false
  records : s.metavector = []
  offset : s.offsetCachedUpTo = 0

namespace PackedSequenceFamily

variable (fam : PackedSequenceFamily) (begin end_ : Nat) {n m : Nat} {s₀ : PackedSequence}

/-- The enumeration from a position gives the elements, none of which is empty. -/
def Enumerates : Nat → List Element → Prop
  | pos, [] => fam.enumerate pos end_ = none
  | pos, e :: es => e.start = pos ∧ 0 < e.size ∧ fam.enumerate pos end_ = some (e.size, e.type)
      ∧ Enumerates (roundUp e.end_ fam.align) es

/-- Where the enumeration goes on after some elements. -/
def after : Nat → List Element → Nat
  | pos, [] => pos
  | _, e :: es => after (roundUp e.end_ fam.align) es

/-- The records of elements in the metavector. -/
def recordsOf (es : List Element) : List MetavectorRec :=
  if fam.metavector = .noMetavector then []
  else es.map fun e => fam.recordOf e.start e.size e.type

/-- The elements are cached, and nothing else. -/
structure Caches (es : List Element) (s : PackedSequence) : Prop where
  bits : ∀ i, s.startsBitmap i = true ↔ ∃ e ∈ es, fam.bitOf begin e.start = i
  inside : ∀ e ∈ es, fam.bitOf begin e.start < s.nbits
  records : s.metavector = fam.recordsOf es
  capacity : s.metavector.length ≤ s.metavectorSize
  offset : begin + s.offsetCachedUpTo = fam.after begin es

/-- The calls of `ensure_cached_up_to` with some offsets, the latest first. -/
def run (s : PackedSequence) : List Nat → Option PackedSequence
  | [] => some s
  | offset :: offsets => (run s offsets).bind fun s => fam.ensureCachedUpTo begin end_ s offset

variable {fam begin end_} {pos T fuel : Nat} {e e' : Element} {es es' elems done rest : List Element}
  {s s' : PackedSequence}

/-! ### Rounding -/

theorem align_pos (fam : PackedSequenceFamily) : 0 < fam.align := Nat.pow_pos (by decide)

theorem le_roundUp (fam : PackedSequenceFamily) (a : Nat) : a ≤ roundUp a fam.align := by
  have hpos := fam.align_pos
  have hdiv := Nat.div_add_mod' (a + (fam.align - 1)) fam.align
  have hmod := Nat.mod_lt (a + (fam.align - 1)) hpos
  unfold roundUp
  omega

theorem roundUp_lt (fam : PackedSequenceFamily) (a : Nat) : roundUp a fam.align < a + fam.align := by
  have hpos := fam.align_pos
  have hle := Nat.div_mul_le_self (a + (fam.align - 1)) fam.align
  unfold roundUp
  omega

theorem base_le (fam : PackedSequenceFamily) (begin : Nat) : fam.bitmapBaseAddr begin ≤ begin :=
  Nat.div_mul_le_self _ _

theorem bitOf_mul_align (begin : Nat) (hd : fam.align ∣ pos) :
    fam.bitOf begin pos * fam.align = pos - fam.bitmapBaseAddr begin :=
  Nat.div_mul_cancel (Nat.dvd_sub hd (Nat.dvd_mul_left _ _))

theorem dvd_roundUp (fam : PackedSequenceFamily) (a : Nat) : fam.align ∣ roundUp a fam.align :=
  Nat.dvd_mul_left _ _

theorem bitOf_lt {a : Nat} (hd : fam.align ∣ pos) (ha : begin ≤ a) (hlt : a < pos) :
    fam.bitOf begin a < fam.bitOf begin pos := by
  have hbase := fam.base_le begin
  have hmul := bitOf_mul_align begin hd
  exact (Nat.div_lt_iff_lt_mul fam.align_pos).mpr (by omega)

/-! ### Enumerations -/

theorem after_append (pos : Nat) (es es' : List Element) :
    fam.after pos (es ++ es') = fam.after (fam.after pos es) es' := by
  induction es generalizing pos with
  | nil => rfl
  | cons e es ih => exact ih _

theorem le_after_append (h : fam.Enumerates end_ pos (es ++ es')) : pos ≤ fam.after pos es := by
  induction es generalizing pos with
  | nil => exact le_rfl
  | cons e es ih =>
    obtain ⟨hstart, -, -, hrest⟩ := h
    have hround := fam.le_roundUp e.end_
    have hle := ih hrest
    simp only [Element.end_] at hround hle
    simp only [after, Element.end_]
    omega

theorem le_after (h : fam.Enumerates end_ pos es) : pos ≤ fam.after pos es := by
  rw [← List.append_nil es] at h
  exact le_after_append h

theorem Enumerates.end_le_after (h : fam.Enumerates end_ pos es) (he : e ∈ es) :
    e.end_ ≤ fam.after pos es := by
  induction es generalizing pos with
  | nil => exact absurd he List.not_mem_nil
  | cons e1 es ih =>
    rcases List.mem_cons.mp he with rfl | he
    · exact (fam.le_roundUp _).trans (le_after h.2.2.2)
    · exact ih h.2.2.2 he

theorem Enumerates.drop (h : fam.Enumerates end_ pos (done ++ rest)) :
    fam.Enumerates end_ (fam.after pos done) rest := by
  induction done generalizing pos with
  | nil => exact h
  | cons e done ih => exact ih h.2.2.2

/-- The elements follow one another, and all but the first are aligned. -/
theorem Enumerates.sorted (h : fam.Enumerates end_ pos es) :
    (∀ e ∈ es, pos ≤ e.start ∧ 0 < e.size)
      ∧ es.Pairwise fun e e' => e.end_ ≤ e'.start ∧ fam.align ∣ e'.start := by
  induction es generalizing pos with
  | nil => exact ⟨fun e he => absurd he List.not_mem_nil, List.Pairwise.nil⟩
  | cons e es ih =>
    obtain ⟨hstart, hsize, -, hrest⟩ := h
    obtain ⟨hle, hpair⟩ := ih hrest
    have hround := fam.le_roundUp e.end_
    refine ⟨List.forall_mem_cons.mpr ⟨⟨hstart.symm.le, hsize⟩, fun e' he' => ?_⟩,
      List.pairwise_cons.mpr ⟨fun e' he' => ⟨hround.trans (hle e' he').1, ?_⟩, hpair⟩⟩
    · have hpos := (hle e' he').1
      refine ⟨?_, (hle e' he').2⟩
      simp only [Element.end_] at hround hpos
      omega
    · -- the next element is aligned, and so are all after it
      cases es with
      | nil => exact absurd he' List.not_mem_nil
      | cons e1 es =>
        have hd : fam.align ∣ e1.start := hrest.1 ▸ fam.dvd_roundUp e.end_
        rcases List.mem_cons.mp he' with rfl | he'
        · exact hd
        · exact ((List.pairwise_cons.mp hpair).1 e' he').2

theorem Enumerates.bits_lt (h : fam.Enumerates end_ begin es) :
    es.Pairwise fun e e' => fam.bitOf begin e.start < fam.bitOf begin e'.start := by
  obtain ⟨hle, hpair⟩ := h.sorted
  refine hpair.imp_of_mem fun {e e'} he _ hee' => ?_
  obtain ⟨hbegin, hsize⟩ := hle e he
  have hend := hee'.1
  simp only [Element.end_] at hend
  exact bitOf_lt hee'.2 hbegin (by omega)

/-! ### One element -/

theorem Caches.growBitmap (h : fam.Caches begin es s) (T : Nat) :
    fam.Caches begin es (fam.growBitmap begin T s) := by
  unfold PackedSequenceFamily.growBitmap
  dsimp only
  split
  · rename_i hlt
    refine ⟨fun i => ?_, fun e he => ?_, h.records, h.capacity, h.offset⟩
    · rw [← h.bits i]
      dsimp only
      split
      · rename_i hi
        refine iff_of_false Bool.false_ne_true fun hc => ?_
        obtain ⟨e, he, rfl⟩ := (h.bits i).mp hc
        exact absurd (h.inside e he) hi.1.not_gt
      · rfl
    · exact (h.inside e he).trans_le (Nat.mul_le_mul_right _ hlt.le)
  · exact h

theorem growMetavector_eq (hcap : s.metavector.length ≤ s.metavectorSize)
    (hk : fam.metavector ≠ .noMetavector)
    (hroom : (s.metavector.length + 1) * fam.metavector.entrySizeBytes ≤ 2 ^ 31) :
    ∃ n, fam.growMetavector s = some { s with metavectorSize := n } ∧ s.metavector.length < n := by
  have hes : 2 ≤ fam.metavector.entrySizeBytes ∧ fam.metavector.entrySizeBytes ≤ 4 := by
    cases hm : fam.metavector with
    | noMetavector => exact absurd hm hk
    | rec16 => decide
    | rec32 => decide
  obtain ⟨hes2, hes4⟩ := hes
  unfold PackedSequenceFamily.growMetavector
  split
  · rename_i heq
    dsimp only
    by_cases h0 : s.metavectorSize = 0
    · have hpos : ¬ initialMetavectorSize * fam.metavector.entrySizeBytes % 2 ^ 32 = 0 := by
        simp only [initialMetavectorSize]
        omega
      rw [if_neg (show ¬ s.metavectorSize ≠ 0 from fun hc => hc h0), if_neg hpos]
      exact ⟨_, rfl, by simp only [initialMetavectorSize]; omega⟩
    · rw [heq, Nat.add_mul, Nat.one_mul] at hroom
      have hle : s.metavectorSize * 2 ≤ s.metavectorSize * fam.metavector.entrySizeBytes :=
        Nat.mul_le_mul_left _ hes2
      have hsize : 2 * s.metavectorSize % 2 ^ 32 = 2 * s.metavectorSize := Nat.mod_eq_of_lt (by omega)
      have hpos : ¬ 2 * s.metavectorSize * fam.metavector.entrySizeBytes % 2 ^ 32 = 0 := by
        rw [Nat.mul_assoc, Nat.mod_eq_of_lt (by omega)]
        omega
      rw [if_pos (show s.metavectorSize ≠ 0 from h0), hsize, if_neg hpos]
      exact ⟨_, rfl, by omega⟩
  · exact ⟨s.metavectorSize, rfl, by omega⟩

theorem recordsOf_append (es es' : List Element) :
    fam.recordsOf (es ++ es') = fam.recordsOf es ++ fam.recordsOf es' := by
  unfold recordsOf
  split
  · rfl
  · exact List.map_append

theorem length_recordsOf (hk : fam.metavector ≠ .noMetavector) (es : List Element) :
    (fam.recordsOf es).length = es.length := by
  rw [recordsOf, if_neg hk, List.length_map]

theorem Caches.pushRecord (h : fam.Caches begin es s) (e : Element)
    (hroom : (es.length + 1) * fam.metavector.entrySizeBytes ≤ 2 ^ 31) :
    ∃ s1, fam.pushRecord s e.start e.size e.type = some s1
      ∧ s1.metavector = fam.recordsOf (es ++ [e]) ∧ s1.metavector.length ≤ s1.metavectorSize
      ∧ s1.startsBitmap = s.startsBitmap ∧ s1.startsBitmapNwords = s.startsBitmapNwords := by
  by_cases hk : fam.metavector = .noMetavector
  · refine ⟨s, if_pos hk, ?_, h.capacity, rfl, rfl⟩
    rw [h.records, recordsOf, recordsOf, if_pos hk, if_pos hk]
  · have hlen : s.metavector.length = es.length := by rw [h.records, length_recordsOf hk]
    obtain ⟨n, hgrow, hn⟩ := growMetavector_eq h.capacity hk (hlen.symm ▸ hroom)
    rw [PackedSequenceFamily.pushRecord, if_neg hk, hgrow]
    refine ⟨_, rfl, ?_, ?_, rfl, rfl⟩
    · dsimp only
      rw [recordsOf_append, h.records, recordsOf, recordsOf, if_neg hk, if_neg hk]
      rfl
    · rw [List.length_append, List.length_singleton]
      exact hn

theorem Caches.cacheElement (h : fam.Caches begin es s)
    (hroom : (es.length + 1) * fam.metavector.entrySizeBytes ≤ 2 ^ 31)
    (hbegin : begin ≤ e.start) (hsize : fam.after begin (es ++ [e]) < begin + 2 ^ 32) :
    (fam.bitOf begin e.start < s.nbits →
        ∃ s', fam.cacheElement begin s e.start e.size e.type = some s'
          ∧ fam.Caches begin (es ++ [e]) s' ∧ s'.nbits = s.nbits)
      ∧ (¬ fam.bitOf begin e.start < s.nbits →
        fam.cacheElement begin s e.start e.size e.type = none) := by
  obtain ⟨s1, hs1, hrec, hcap, hbits, hwords⟩ := h.pushRecord e hroom
  have hafter : fam.after begin (es ++ [e]) = roundUp e.end_ fam.align := by
    rw [after_append]
    rfl
  have hround := fam.le_roundUp e.end_
  have hnbits : s1.nbits = s.nbits := by rw [PackedSequence.nbits, hwords]; rfl
  unfold PackedSequenceFamily.cacheElement
  rw [hs1, some_bind, ← hnbits]
  refine ⟨fun hlt => ⟨_, if_pos hlt, ⟨fun i => ?_, fun e' he' => ?_, hrec, hcap, ?_⟩, rfl⟩,
    fun hge => if_neg hge⟩
  · have hmem : (∃ e' ∈ es ++ [e], fam.bitOf begin e'.start = i)
        ↔ (∃ e' ∈ es, fam.bitOf begin e'.start = i) ∨ fam.bitOf begin e.start = i := by
      simp [List.mem_append, or_and_right, exists_or]
    rw [hmem, ← h.bits i, ← hbits]
    dsimp only
    by_cases hi : i = fam.bitOf begin e.start
    · rw [hi, Function.update_self]
      exact iff_of_true rfl (.inr rfl)
    · rw [Function.update_of_ne hi]
      exact (or_iff_left fun hc => hi hc.symm).symm
  · rcases List.mem_append.mp he' with he' | he'
    · exact hnbits.symm ▸ h.inside e' he'
    · rw [List.mem_singleton.mp he']
      exact hlt
  · simp only [Element.end_] at hround hsize hafter
    rw [hafter]
    dsimp only
    rw [Nat.mod_eq_of_lt (by omega)]
    omega

/-! ### A call -/

/-- The offsets of the sequence fit an `unsigned`, and so does the size of its metavector. -/
structure Small (fam : PackedSequenceFamily) (begin : Nat) (elems : List Element) : Prop where
  size : fam.after begin elems < begin + 2 ^ 32
  records : elems.length * fam.metavector.entrySizeBytes ≤ 2 ^ 31

theorem Small.cons (h : fam.Small begin (done ++ e :: rest))
    (henum : fam.Enumerates end_ begin (done ++ e :: rest)) :
    (done.length + 1) * fam.metavector.entrySizeBytes ≤ 2 ^ 31
      ∧ fam.after begin (done ++ [e]) < begin + 2 ^ 32 := by
  rw [List.append_cons] at henum
  have hsize := h.size
  rw [List.append_cons, after_append] at hsize
  have hle := le_after henum.drop
  refine ⟨(Nat.mul_le_mul_right _ ?_).trans h.records, by omega⟩
  rw [List.length_append, List.length_cons]
  omega

/-- How many elements the loop caches: to the first that ends at or beyond the target. -/
def reach (target : Nat) : List Element → Nat
  | [] => 0
  | e :: es => if target ≤ e.end_ then 1 else reach target es + 1

/-- The bits of the elements that the loop caches are there. -/
def BitsThere (fam : PackedSequenceFamily) (begin target nbits : Nat) (rest : List Element) : Prop :=
  ∀ e ∈ rest.take (reach target rest), fam.bitOf begin e.start < nbits

/-- What a call does: its target, and the bitmap it goes on with. -/
def target (begin end_ : Nat) (s : PackedSequence) (offset : Nat) : Nat :=
  min (end_ - begin) (max (2 * s.offsetCachedUpTo % 2 ^ 32) offset)

section

variable (h : fam.Caches begin done s)
  (henum : fam.Enumerates end_ begin (done ++ rest)) (hsmall : fam.Small begin (done ++ rest))

include h henum hsmall

/-- The loop caches the elements, if their bits are there. -/
theorem Caches.cacheLoop (hfuel : 1 ≤ fuel) (hturns : begin + T + 1 ≤ fam.after begin done + fuel) :
    (fam.BitsThere begin (begin + T) s.nbits rest →
        ∃ s', fam.cacheLoop begin end_ T fuel s (fam.after begin done) = some s'
          ∧ fam.Caches begin (done ++ rest.take (reach (begin + T) rest)) s' ∧ s'.nbits = s.nbits)
      ∧ (¬ fam.BitsThere begin (begin + T) s.nbits rest →
        fam.cacheLoop begin end_ T fuel s (fam.after begin done) = none) := by
  obtain _ | fuel := fuel
  · omega
  induction rest generalizing done s fuel with
  | nil =>
    have hnone : fam.enumerate (fam.after begin done) end_ = none := henum.drop
    refine ⟨fun _ => ⟨s, by simp only [PackedSequenceFamily.cacheLoop, hnone], ?_, rfl⟩,
      fun hc => absurd (fun e he => absurd he List.not_mem_nil) hc⟩
    rw [List.take_nil, List.append_nil]
    exact h
  | cons e rest ih =>
    obtain ⟨hstart, hpos, hsome, -⟩ := henum.drop
    have hbegin : begin ≤ e.start := (henum.sorted.1 e (by simp)).1
    obtain ⟨hrec, hsize⟩ := hsmall.cons henum
    obtain ⟨hput, hfail⟩ := h.cacheElement hrec hbegin hsize
    have hafter : fam.after begin (done ++ [e]) = roundUp (e.start + e.size) fam.align := by
      rw [after_append]
      rfl
    have hround := fam.le_roundUp (e.start + e.size)
    rw [← hstart] at hturns hsome ⊢
    by_cases hbit : fam.bitOf begin e.start < s.nbits
    · obtain ⟨s1, hs1, hc1, hn1⟩ := hput hbit
      by_cases hlast : begin + T ≤ e.end_
      · have hreach : reach (begin + T) (e :: rest) = 1 := if_pos hlast
        have hthere : fam.BitsThere begin (begin + T) s.nbits (e :: rest) := by
          unfold BitsThere
          rw [hreach, List.take_succ_cons, List.take_zero]
          simpa using hbit
        refine ⟨fun _ => ⟨s1, ?_, by rw [hreach]; exact hc1, hn1⟩, fun hc => absurd hthere hc⟩
        simp only [PackedSequenceFamily.cacheLoop, hsome, hs1, some_bind]
        exact if_pos hlast
      · have hreach : reach (begin + T) (e :: rest) = reach (begin + T) rest + 1 := if_neg hlast
        have hthere : fam.BitsThere begin (begin + T) s.nbits (e :: rest)
            ↔ fam.BitsThere begin (begin + T) s1.nbits rest := by
          unfold BitsThere
          rw [hreach, List.take_succ_cons, List.forall_mem_cons, hn1]
          exact and_iff_right hbit
        have hgo : fam.cacheLoop begin end_ T (fuel + 1) s e.start
            = fam.cacheLoop begin end_ T fuel s1 (fam.after begin (done ++ [e])) := by
          simp only [PackedSequenceFamily.cacheLoop, hsome, hs1, some_bind, hafter]
          exact if_neg hlast
        simp only [Element.end_] at hlast
        obtain _ | fuel := fuel
        · omega
        have hrest := ih hc1 (by rwa [List.append_assoc]) (by rwa [List.append_assoc]) fuel (by omega)
          (by omega)
        rw [List.append_assoc, List.singleton_append] at hrest
        rw [hthere, hgo, hreach, List.take_succ_cons, ← hn1]
        exact hrest
    · have hmem : e ∈ (e :: rest).take (reach (begin + T) (e :: rest)) := by
        unfold reach
        split <;> simp
      refine ⟨fun hc => absurd (hc e hmem) hbit, fun _ => ?_⟩
      simp [PackedSequenceFamily.cacheLoop, hsome, hfail hbit]

/-- A call with something to do caches the elements to its target, if their bits are there. -/
theorem Caches.ensureCachedUpTo {offset : Nat} (hoffset : s.offsetCachedUpTo < offset) :
    (fam.BitsThere begin (begin + target begin end_ s offset)
          (fam.growBitmap begin (target begin end_ s offset) s).nbits rest →
        ∃ s', fam.ensureCachedUpTo begin end_ s offset = some s'
          ∧ fam.Caches begin (done ++ rest.take (reach (begin + target begin end_ s offset) rest)) s'
          ∧ s'.nbits = (fam.growBitmap begin (target begin end_ s offset) s).nbits)
      ∧ (¬ fam.BitsThere begin (begin + target begin end_ s offset)
          (fam.growBitmap begin (target begin end_ s offset) s).nbits rest →
        fam.ensureCachedUpTo begin end_ s offset = none) := by
  have heq : fam.ensureCachedUpTo begin end_ s offset
      = fam.cacheLoop begin end_ (target begin end_ s offset) (target begin end_ s offset + 2)
        (fam.growBitmap begin (target begin end_ s offset) s) (fam.after begin done) := by
    rw [PackedSequenceFamily.ensureCachedUpTo, if_pos hoffset, h.offset]
    rfl
  rw [heq]
  exact (h.growBitmap _).cacheLoop henum hsmall (by omega) (by have := h.offset; omega)

end

theorem nbits_growBitmap (fam : PackedSequenceFamily) (begin T : Nat) (s : PackedSequence) :
    (fam.growBitmap begin T s).nbits
      = max s.nbits (divideRoundingUp (divideRoundingUp (begin + T + 1 - fam.bitmapBaseAddr begin)
          fam.align) bitmapWordNbits * bitmapWordNbits) := by
  unfold PackedSequenceFamily.growBitmap
  dsimp only
  split
  · rename_i hlt
    exact (Nat.max_eq_right (Nat.mul_le_mul_right _ hlt.le)).symm
  · rename_i hge
    exact (Nat.max_eq_left (Nat.mul_le_mul_right _ (not_lt.mp hge))).symm

/-! ### Any number of calls -/

theorem Caches.blank (fam : PackedSequenceFamily) (begin : Nat) (h : s.Blank) :
    fam.Caches begin [] s := by
  refine ⟨fun i => ?_, fun e he => absurd he List.not_mem_nil, ?_, ?_, ?_⟩
  · rw [h.bits i]
    simp
  · rw [h.records, recordsOf]
    split <;> rfl
  · rw [h.records]
    exact Nat.zero_le _
  · rw [h.offset]
    rfl

theorem Enumerates.append_take (n : Nat) (h : fam.Enumerates end_ begin elems) :
    fam.Enumerates end_ begin (elems.take n ++ elems.drop n) := by rwa [List.take_append_drop]

theorem Small.append_take (n : Nat) (h : fam.Small begin elems) :
    fam.Small begin (elems.take n ++ elems.drop n) := by rwa [List.take_append_drop]

section

variable (henum : fam.Enumerates end_ begin elems) (hsmall : fam.Small begin elems)
include henum hsmall

/-- A call that returns caches a longer part of the enumeration, in no shorter a bitmap. -/
theorem Caches.step {offset : Nat} (h : fam.Caches begin (elems.take n) s)
    (hs' : fam.ensureCachedUpTo begin end_ s offset = some s') :
    ∃ m, fam.Caches begin (elems.take m) s' ∧ s.nbits ≤ s'.nbits := by
  by_cases hoffset : s.offsetCachedUpTo < offset
  · obtain ⟨hput, hfail⟩ := h.ensureCachedUpTo (henum.append_take n) (hsmall.append_take n) hoffset
    by_cases hthere : fam.BitsThere begin (begin + target begin end_ s offset)
        (fam.growBitmap begin (target begin end_ s offset) s).nbits (elems.drop n)
    · obtain ⟨s1, hs1, hc1, hn1⟩ := hput hthere
      rw [hs1, Option.some.injEq] at hs'
      rw [hs', ← List.take_add] at hc1
      refine ⟨_, hc1, ?_⟩
      rw [← hs', hn1, nbits_growBitmap]
      exact Nat.le_max_left _ _
    · rw [hfail hthere] at hs'
      exact absurd hs' (by simp)
  · rw [PackedSequenceFamily.ensureCachedUpTo, if_neg hoffset, Option.some.injEq] at hs'
    exact ⟨n, hs' ▸ h, hs' ▸ le_rfl⟩

theorem Caches.run (hblank : s₀.Blank) :
    ∀ offsets s, fam.run begin end_ s₀ offsets = some s →
      ∃ n, fam.Caches begin (elems.take n) s ∧ s₀.nbits ≤ s.nbits := by
  intro offsets
  induction offsets with
  | nil =>
    intro s hs
    rw [← Option.some.inj hs]
    exact ⟨0, Caches.blank fam begin hblank, le_rfl⟩
  | cons offset offsets ih =>
    intro s hs
    obtain ⟨s1, hs1, hs⟩ := of_bind hs
    obtain ⟨n, hc1, hn1⟩ := ih s1 hs1
    obtain ⟨m, hc, hn⟩ := hc1.step henum hsmall hs
    exact ⟨m, hc, hn1.trans hn⟩

/-- With a bitmap for the whole sequence every call returns. -/
theorem Caches.run_isSome (hblank : s₀.Blank)
    (hlarge : ∀ e ∈ elems, fam.bitOf begin e.start < s₀.nbits) :
    ∀ offsets, ∃ s, fam.run begin end_ s₀ offsets = some s := by
  intro offsets
  induction offsets with
  | nil => exact ⟨s₀, rfl⟩
  | cons offset offsets ih =>
    obtain ⟨s, hs⟩ := ih
    obtain ⟨n, hc, hn⟩ := Caches.run henum hsmall hblank offsets s hs
    simp only [PackedSequenceFamily.run, hs, Option.bind_some]
    by_cases hoffset : s.offsetCachedUpTo < offset
    · obtain ⟨s', hs', -⟩ := (hc.ensureCachedUpTo (henum.append_take n) (hsmall.append_take n)
        hoffset).1 fun e he => by
          refine Nat.lt_of_lt_of_le
            (hlarge e (List.mem_of_mem_drop (List.mem_of_mem_take he))) (hn.trans ?_)
          rw [nbits_growBitmap]
          exact Nat.le_max_left _ _
      exact ⟨s', hs'⟩
    · exact ⟨s, if_neg hoffset⟩

end

theorem Enumerates.after_take (h : fam.Enumerates end_ begin elems) (n : Nat) :
    fam.after begin (elems.take n) = match elems[n]? with
      | some e => e.start
      | none => fam.after begin elems := by
  have hdrop := (h.append_take n).drop
  cases hn : elems[n]? with
  | none => rw [List.take_of_length_le (List.getElem?_eq_none_iff.mp hn)]
  | some e =>
    obtain ⟨hlt, hget⟩ := List.getElem?_eq_some_iff.mp hn
    rw [List.drop_eq_getElem_cons hlt, hget] at hdrop
    exact hdrop.1.symm

theorem Enumerates.after_take_lt (h : fam.Enumerates end_ begin elems) (hnm : n < m)
    (hn : n < elems.length) : fam.after begin (elems.take n) < fam.after begin (elems.take m) := by
  have hdrop := (h.append_take n).drop
  have hsplit : elems.take m = elems.take n ++ (elems.drop n).take (m - n) := by
    rw [← List.take_add, Nat.add_sub_cancel' hnm.le]
  rw [hsplit, after_append]
  obtain ⟨k, hk⟩ : ∃ k, m - n = k + 1 := Nat.exists_eq_succ_of_ne_zero (by omega)
  rw [List.drop_eq_getElem_cons hn] at hdrop ⊢
  rw [hk, List.take_succ_cons]
  obtain ⟨hstart, hpos, -, hrest⟩ := hdrop
  have hround := fam.le_roundUp elems[n].end_
  rw [← List.take_append_drop k (elems.drop (n + 1))] at hrest
  have hle := le_after_append hrest
  simp only [after]
  simp only [Element.end_] at hround hle ⊢
  omega

/-- The first `n` elements are cached: a bit for each start, a record for each bit if there is a
metavector, and the offset where the next one starts or the sequence ends. -/
structure PrefixCached (fam : PackedSequenceFamily) (begin : Nat) (elems : List Element) (n : Nat)
    (s : PackedSequence) : Prop where
  bits : ∀ i, s.startsBitmap i = true ↔ ∃ e ∈ elems.take n, fam.bitOf begin e.start = i
  increasing : (elems.take n).Pairwise fun e e' => fam.bitOf begin e.start < fam.bitOf begin e'.start
  records : s.metavector = if fam.metavector = .noMetavector then []
    else (elems.take n).map fun e => fam.recordOf e.start e.size e.type
  offset : begin + s.offsetCachedUpTo = match elems[n]? with
    | some e => e.start
    | none => fam.after begin elems

section

variable (henum : fam.Enumerates end_ begin elems) (h : fam.Caches begin (elems.take n) s)

include henum h

theorem Caches.prefixCached : fam.PrefixCached begin elems n s :=
  ⟨h.bits, henum.bits_lt.sublist (List.take_sublist n elems), h.records,
    h.offset.trans (henum.after_take n)⟩

/-- What is cached depends only on how far the enumeration has come. -/
theorem Caches.eq_of_offset (h' : fam.Caches begin (elems.take m) s')
    (ho : s.offsetCachedUpTo = s'.offsetCachedUpTo) :
    s.startsBitmap = s'.startsBitmap ∧ s.metavector = s'.metavector := by
  have hafter : fam.after begin (elems.take n) = fam.after begin (elems.take m) := by
    rw [← h.offset, ← h'.offset, ho]
  have htake : elems.take n = elems.take m := by
    rcases Nat.lt_trichotomy n m with hlt | rfl | hlt
    · by_cases hn : n < elems.length
      · exact absurd hafter (henum.after_take_lt hlt hn).ne
      · rw [List.take_of_length_le (by omega), List.take_of_length_le (by omega)]
    · rfl
    · by_cases hm : m < elems.length
      · exact absurd hafter.symm (henum.after_take_lt hlt hm).ne
      · rw [List.take_of_length_le (by omega), List.take_of_length_le (by omega)]
  rw [← htake] at h'
  refine ⟨funext fun i => ?_, h.records.trans h'.records.symm⟩
  rw [Bool.eq_iff_iff, h.bits, h'.bits]

end

/-- **After any calls a first part of the enumeration is cached, which depends on the offset that was
reached.**  With a bitmap that is large enough, the calls return. -/
theorem run_prefixCached (fam : PackedSequenceFamily) (begin end_ : Nat) (elems : List Element)
    (s₀ : PackedSequence) (offsets : List Nat) (henum : fam.Enumerates end_ begin elems)
    (hsmall : fam.Small begin elems) (hblank : s₀.Blank) :
    ((∀ e ∈ elems, fam.bitOf begin e.start < s₀.nbits) →
        ∃ s, fam.run begin end_ s₀ offsets = some s)
      ∧ ∀ s, fam.run begin end_ s₀ offsets = some s →
        (∃ n, fam.PrefixCached begin elems n s)
          ∧ ∀ s₁ offsets' s', s₁.Blank → fam.run begin end_ s₁ offsets' = some s' →
            s'.offsetCachedUpTo = s.offsetCachedUpTo →
            s'.startsBitmap = s.startsBitmap ∧ s'.metavector = s.metavector := by
  refine ⟨fun hlarge => Caches.run_isSome henum hsmall hblank hlarge offsets, fun s hs => ?_⟩
  obtain ⟨n, hc, -⟩ := Caches.run henum hsmall hblank offsets s hs
  refine ⟨⟨n, hc.prefixCached henum⟩, fun s₁ offsets' s' hblank1 hs' ho => ?_⟩
  obtain ⟨m, hc', -⟩ := Caches.run henum hsmall hblank1 offsets' s' hs'
  exact hc'.eq_of_offset henum hc ho

/-! ### A family with padding -/

/-- Elements of five bytes, aligned to eight. -/
def sampleFamily : PackedSequenceFamily where
  enumerate := fun pos end_ => if pos < end_ then some (5, 100) else none
  log2Align := 3
  metavector := .rec16
  typesTable := [100]

/-- Two elements with padding between them. -/
def sampleElements : List Element := [⟨4096, 5, 100⟩, ⟨4104, 5, 100⟩]

theorem sample_enumerates : sampleFamily.Enumerates 4112 4096 sampleElements :=
  ⟨rfl, by decide, rfl, rfl, by decide, rfl, rfl⟩

theorem sample_small : sampleFamily.Small 4096 sampleElements := ⟨by decide, by decide⟩

theorem run_prefixCached_sample : ∃ s n,
    sampleFamily.run 4096 4112 { startsBitmapNwords := 1 } [6, 1] = some s
      ∧ sampleFamily.PrefixCached 4096 sampleElements n s := by
  have h := run_prefixCached sampleFamily 4096 4112 sampleElements { startsBitmapNwords := 1 } [6, 1]
    sample_enumerates sample_small ⟨fun _ => rfl, rfl, rfl⟩
  obtain ⟨s, hs⟩ := h.1 (by decide)
  obtain ⟨⟨n, hn⟩, -⟩ := h.2 s hs
  exact ⟨s, n, hs, hn⟩

/-- A family with one element of four gigabytes. -/
def hugeFamily : PackedSequenceFamily where
  enumerate := fun pos end_ => if pos < end_ then some (2 ^ 32, 100) else none
  metavector := .rec32
  typesTable := [100]

/-- The offset after an element of four gigabytes is zero, and the next call caches it again, with a
second record. -/
theorem run_caches_twice : ∃ s,
    hugeFamily.Enumerates (4096 + 2 ^ 32) 4096 [⟨4096, 2 ^ 32, 100⟩]
      ∧ hugeFamily.run 4096 (4096 + 2 ^ 32) {} [1, 1] = some s
      ∧ s.metavector.length = 2 ∧ s.offsetCachedUpTo = 0
      ∧ ∀ n, ¬ hugeFamily.PrefixCached 4096 [⟨4096, 2 ^ 32, 100⟩] n s := by
  obtain ⟨s, hs, hlen, hoffset⟩ : ∃ s, hugeFamily.run 4096 (4096 + 2 ^ 32) {} [1, 1] = some s
      ∧ s.metavector.length = 2 ∧ s.offsetCachedUpTo = 0 := by decide +kernel
  refine ⟨s, ⟨rfl, by decide, rfl, rfl⟩, hs, hlen, hoffset, fun n hn => ?_⟩
  have hrecords := congrArg List.length hn.records
  rw [hlen, if_neg (by decide), List.length_map, List.length_take, List.length_singleton] at hrecords
  omega

end PackedSequenceFamily

end Liballocs
