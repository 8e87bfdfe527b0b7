/-
When the starts of a packed sequence stay inside its bitmap.

A call makes the bitmap for the addresses up to its target.  The last element it caches may start
beyond, in the padding that the target falls into, and its bit is missing if it is the first of a word.
So a target after two bytes of padding or more can write behind the bitmap.
-/
import Liballocs.Proofs.PackedSeq

namespace Liballocs.PackedSequenceFamily

variable {fam : PackedSequenceFamily} {begin end_ T d n addr i j : Nat} {elems rest : List Element}
  {s : PackedSequence} {e e' : Element}

/-! ### The bits of a bitmap -/

theorem le_divideRoundingUp_mul (n : Nat) (hd : 0 < d) : n ≤ divideRoundingUp n d * d := by
  have hdiv := Nat.div_add_mod' (n + (d - 1)) d
  have hmod := Nat.mod_lt (n + (d - 1)) hd
  unfold divideRoundingUp
  omega

theorem divideRoundingUp_le {m : Nat} (hd : 0 < d) (h : n ≤ m * d) : divideRoundingUp n d ≤ m := by
  refine Nat.le_of_lt_succ ((Nat.div_lt_iff_lt_mul hd).mpr ?_)
  rw [Nat.succ_mul]
  omega

theorem bitOf_lt_nbits (hle : addr ≤ begin + T) :
    fam.bitOf begin addr < (fam.growBitmap begin T s).nbits := by
  have hbase := fam.base_le begin
  have hunits := le_divideRoundingUp_mul (begin + T + 1 - fam.bitmapBaseAddr begin) fam.align_pos
  have hwords := le_divideRoundingUp_mul
    (divideRoundingUp (begin + T + 1 - fam.bitmapBaseAddr begin) fam.align)
    (show 0 < bitmapWordNbits by decide)
  have hbit : fam.bitOf begin addr
      < divideRoundingUp (begin + T + 1 - fam.bitmapBaseAddr begin) fam.align :=
    (Nat.div_lt_iff_lt_mul fam.align_pos).mpr (by omega)
  rw [nbits_growBitmap]
  exact hbit.trans_le (hwords.trans (Nat.le_max_right _ _))

/-- An aligned address less than a unit behind the target has its bit there, or a word's first. -/
theorem bitOf_lt_nbits_of_not_dvd (hd : fam.align ∣ addr) (hlt : addr < begin + T + fam.align)
    (hword : ¬ bitmapWordNbits ∣ fam.bitOf begin addr) :
    fam.bitOf begin addr < (fam.growBitmap begin T s).nbits := by
  have hmul := bitOf_mul_align begin hd
  have hunits : fam.bitOf begin addr
      ≤ divideRoundingUp (begin + T + 1 - fam.bitmapBaseAddr begin) fam.align :=
    (Nat.le_div_iff_mul_le fam.align_pos).mpr (by omega)
  have hwords := le_divideRoundingUp_mul
    (divideRoundingUp (begin + T + 1 - fam.bitmapBaseAddr begin) fam.align)
    (show 0 < bitmapWordNbits by decide)
  have hne : fam.bitOf begin addr ≠ divideRoundingUp (divideRoundingUp
      (begin + T + 1 - fam.bitmapBaseAddr begin) fam.align) bitmapWordNbits * bitmapWordNbits :=
    fun hc => hword (hc ▸ Nat.dvd_mul_left _ _)
  rw [nbits_growBitmap]
  exact (Nat.lt_of_le_of_ne (Nat.le_trans hunits hwords) hne).trans_le (Nat.le_max_right _ _)

/-- From a bitmap of no words, the first bit of a word behind the target is not made. -/
theorem nbits_le_bitOf (hd : fam.align ∣ addr) (hlt : begin + T < addr) (hs : s.nbits = 0)
    (hword : bitmapWordNbits ∣ fam.bitOf begin addr) :
    (fam.growBitmap begin T s).nbits ≤ fam.bitOf begin addr := by
  have hmul := bitOf_mul_align begin hd
  have hunits : divideRoundingUp (begin + T + 1 - fam.bitmapBaseAddr begin) fam.align
      ≤ fam.bitOf begin addr := divideRoundingUp_le fam.align_pos (by omega)
  have hwords : divideRoundingUp (divideRoundingUp
      (begin + T + 1 - fam.bitmapBaseAddr begin) fam.align) bitmapWordNbits
      ≤ fam.bitOf begin addr / bitmapWordNbits :=
    divideRoundingUp_le (by decide) (by rw [Nat.div_mul_cancel hword]; exact hunits)
  rw [nbits_growBitmap, hs, Nat.zero_max, ← Nat.div_mul_cancel hword]
  exact Nat.mul_le_mul_right _ hwords

/-! ### The elements of a call -/

/-- All but the last of the elements that a call caches end before its target. -/
theorem end_lt_of_lt_reach {target : Nat} (hj : j < reach target rest) (hij : i < j)
    (he : rest[i]? = some e) : e.end_ < target := by
  induction rest generalizing i j with
  | nil => exact absurd hj (Nat.not_lt_zero j)
  | cons e0 rest ih =>
    unfold reach at hj
    split at hj
    · omega
    · rename_i hlt
      cases i with
      | zero =>
        rw [List.getElem?_cons_zero, Option.some.injEq] at he
        rw [← he]
        omega
      | succ i =>
        exact ih (j := j - 1) (by omega) (by omega) he

theorem lt_reach {target : Nat} (hj : j < rest.length)
    (hbefore : ∀ i e, i < j → rest[i]? = some e → e.end_ < target) : j < reach target rest := by
  induction rest generalizing j with
  | nil => exact absurd hj (Nat.not_lt_zero j)
  | cons e0 rest ih =>
    unfold reach
    cases j with
    | zero => split <;> omega
    | succ j =>
      have h0 := hbefore 0 e0 (Nat.succ_pos j) rfl
      rw [if_neg (by omega)]
      exact Nat.succ_lt_succ (ih (Nat.lt_of_succ_lt_succ hj) fun i e hi he =>
        hbefore (i + 1) e (Nat.succ_lt_succ hi) he)

/-- No element with the first bit of a word comes after two bytes of padding or more. -/
def Tight (fam : PackedSequenceFamily) (begin : Nat) (elems : List Element) : Prop :=
  ∀ i e e', elems[i]? = some e → elems[i + 1]? = some e' →
    bitmapWordNbits ∣ fam.bitOf begin e'.start → e'.start ≤ e.end_ + 1

section

variable (h : fam.Enumerates end_ begin elems) (he : elems[i]? = some e)

include h he

theorem Enumerates.next_start
    (he' : elems[i + 1]? = some e') : e'.start = roundUp e.end_ fam.align := by
  have hafter := h.after_take (i + 1)
  simp only [he'] at hafter
  rw [← hafter, List.take_add_one, he, after_append]
  rfl

theorem Enumerates.end_le (he' : elems[j]? = some e') (hij : i < j) : e.end_ ≤ e'.start := by
  obtain ⟨hi, rfl⟩ := List.getElem?_eq_some_iff.mp he
  obtain ⟨hj, rfl⟩ := List.getElem?_eq_some_iff.mp he'
  exact (List.pairwise_iff_getElem.mp h.sorted.2 i j hi hj hij).1

end

/-- In a tight sequence the bits of the elements that a call caches are there. -/
theorem Caches.bitsThere {offset : Nat} (henum : fam.Enumerates end_ begin elems)
    (htight : fam.Tight begin elems) (hbelow : ∀ e ∈ elems, e.start < end_)
    (h : fam.Caches begin (elems.take n) s) (hoffset : s.offsetCachedUpTo < offset) :
    fam.BitsThere begin (begin + target begin end_ s offset)
      (fam.growBitmap begin (target begin end_ s offset) s).nbits (elems.drop n) := by
  intro e' he'
  obtain ⟨j, hj, hget⟩ := List.mem_take_iff_getElem.mp he'
  have hj' : j < reach (begin + target begin end_ s offset) (elems.drop n) := by omega
  have hget' : elems[n + j]? = some e' := by
    rw [← List.getElem?_drop, List.getElem?_eq_some_iff]
    exact ⟨by omega, hget⟩
  have hend := hbelow e' (List.mem_of_getElem? hget')
  cases j with
  | zero =>
    have hstart := h.offset.trans (henum.after_take n)
    rw [Nat.add_zero] at hget'
    rw [hget'] at hstart
    refine bitOf_lt_nbits ?_
    simp only [target] at hstart ⊢
    omega
  | succ j =>
    obtain ⟨e, he⟩ : ∃ e, elems[n + j]? = some e := by
      have hlt := (List.getElem?_eq_some_iff.mp hget').1
      exact ⟨_, List.getElem?_eq_getElem (by omega)⟩
    have hbefore := end_lt_of_lt_reach hj' (Nat.lt_succ_self j) (by rw [List.getElem?_drop]; exact he)
    have hnext := henum.next_start he hget'
    by_cases hle : e'.start ≤ begin + target begin end_ s offset
    · exact bitOf_lt_nbits hle
    · refine bitOf_lt_nbits_of_not_dvd (hnext ▸ fam.dvd_roundUp _) ?_ fun hword => ?_
      · have hround := fam.roundUp_lt e.end_
        omega
      · have hpad := htight (n + j) e e' he hget' hword
        omega

/-- The loop stops at an element that reaches the target, or after the last one. -/
theorem reach_stop {target : Nat} (h : reach target rest < rest.length) :
    ∃ i e, reach target rest = i + 1 ∧ rest[i]? = some e ∧ target ≤ e.end_ := by
  induction rest with
  | nil => exact absurd h (Nat.not_lt_zero _)
  | cons e rest ih =>
    simp only [reach] at h ⊢
    split at h
    · rename_i hle
      exact ⟨0, e, if_pos hle, rfl, hle⟩
    · rename_i hgt
      obtain ⟨i, e', hi, he', hle⟩ := ih (Nat.lt_of_succ_lt_succ h)
      exact ⟨i + 1, e', by rw [if_neg hgt, hi], he', hle⟩

/-- An element is cached just when it starts before the offset that is reached. -/
theorem Caches.lt_iff (henum : fam.Enumerates end_ begin elems)
    (h : fam.Caches begin (elems.take n) s) (he : elems[i]? = some e) :
    i < n ↔ e.start < begin + s.offsetCachedUpTo := by
  have hmem := List.mem_of_getElem? he
  have hsize := (henum.sorted.1 e hmem).2
  have hnext := h.offset.trans (henum.after_take n)
  cases hn : elems[n]? with
  | none =>
    have hlen := List.getElem?_eq_none_iff.mp hn
    have hi := (List.getElem?_eq_some_iff.mp he).1
    have hend := henum.end_le_after hmem
    simp only [hn] at hnext
    simp only [Element.end_] at hend
    omega
  | some e' =>
    simp only [hn] at hnext
    rcases Nat.lt_trichotomy i n with hlt | rfl | hgt
    · have hend := henum.end_le he hn hlt
      simp only [Element.end_] at hend
      omega
    · rw [he, Option.some.injEq] at hn
      rw [hn]
      omega
    · have hend := henum.end_le hn he hgt
      simp only [Element.end_] at hend
      omega

/-- How many elements are cached after a call. -/
def cachedBy (begin end_ : Nat) (elems : List Element) (n : Nat) (s : PackedSequence)
    (offset : Nat) : Nat :=
  if s.offsetCachedUpTo < offset then
    n + reach (begin + target begin end_ s offset) (elems.drop n)
  else n

/-- After a call every element before its offset is cached, and the bitmap reaches to the offset if
the call had something to do. -/
theorem Caches.ensure_covers (henum : fam.Enumerates end_ begin elems)
    (hsmall : fam.Small begin elems) (htight : fam.Tight begin elems)
    (hbelow : ∀ e ∈ elems, e.start < end_) (h : fam.Caches begin (elems.take n) s) (offset : Nat) :
    ∃ s', fam.ensureCachedUpTo begin end_ s offset = some s'
      ∧ fam.Caches begin (elems.take (cachedBy begin end_ elems n s offset)) s'
      ∧ s.nbits ≤ s'.nbits
      ∧ (∀ i e, elems[i]? = some e → e.start < begin + offset →
        i < cachedBy begin end_ elems n s offset)
      ∧ (s.offsetCachedUpTo < offset → ∀ addr, addr < end_ → addr < begin + offset →
          fam.bitOf begin addr < s'.nbits) := by
  unfold cachedBy
  by_cases hoffset : s.offsetCachedUpTo < offset
  · rw [if_pos hoffset]
    obtain ⟨s', hs', hc', hn'⟩ :=
      (h.ensureCachedUpTo (henum.append_take n) (hsmall.append_take n) hoffset).1
        (h.bitsThere henum htight hbelow hoffset)
    rw [← List.take_add] at hc'
    refine ⟨s', hs', hc', ?_, fun i e he hlt => ?_, fun _ addr hend hlt => ?_⟩
    · rw [hn', nbits_growBitmap]
      exact Nat.le_max_left _ _
    · by_contra hge
      have hend := hbelow e (List.mem_of_getElem? he)
      have hi := (List.getElem?_eq_some_iff.mp he).1
      -- the last element that was cached ends beyond the target
      have hstop : reach (begin + target begin end_ s offset) (elems.drop n)
          < (elems.drop n).length := by
        rw [List.length_drop]
        omega
      obtain ⟨k, e', hk, he', hle⟩ := reach_stop hstop
      rw [List.getElem?_drop] at he'
      have hbefore := henum.end_le he' he (by omega)
      simp only [target] at hle
      omega
    · rw [hn']
      refine bitOf_lt_nbits ?_
      simp only [target]
      omega
  · rw [if_neg hoffset]
    refine ⟨s, if_neg hoffset, h, le_rfl, fun i e he hlt => ?_, fun hc => absurd hc hoffset⟩
    rw [h.lt_iff henum he]
    omega

theorem blank_default : ({} : PackedSequence).Blank := ⟨fun _ => rfl, rfl, rfl⟩

section

variable (henum : fam.Enumerates end_ begin elems) (hsmall : fam.Small begin elems)

include henum hsmall

theorem run_isSome (htight : fam.Tight begin elems) (hbelow : ∀ e ∈ elems, e.start < end_) :
    ∀ offsets, ∃ s, fam.run begin end_ {} offsets = some s := by
  intro offsets
  induction offsets with
  | nil => exact ⟨_, rfl⟩
  | cons offset offsets ih =>
    obtain ⟨s, hs⟩ := ih
    obtain ⟨n, hc, -⟩ := Caches.run henum hsmall blank_default offsets s hs
    obtain ⟨s', hs', -⟩ := hc.ensure_covers henum hsmall htight hbelow offset
    exact ⟨s', by simp only [PackedSequenceFamily.run, hs, Option.bind_some, hs']⟩

/-- A call with a target in the padding before a word's first bit fails. -/
theorem run_eq_none
    (hbelow : ∀ e ∈ elems, e.start < end_) (he : elems[i]? = some e) (he' : elems[i + 1]? = some e')
    (hword : bitmapWordNbits ∣ fam.bitOf begin e'.start) (hpad : e.end_ + 1 < e'.start) :
    fam.run begin end_ {} [e.end_ + 1 - begin] = none := by
  have hbegin := (henum.sorted.1 e (List.mem_of_getElem? he)).1
  have hend := hbelow e' (List.mem_of_getElem? he')
  have hle : begin ≤ e.end_ := hbegin.trans (Nat.le_add_right _ _)
  have htarget : begin + target begin end_ {} (e.end_ + 1 - begin) = e.end_ + 1 := by
    simp only [target]
    omega
  have hoffset : ({} : PackedSequence).offsetCachedUpTo < e.end_ + 1 - begin := by
    show 0 < _
    omega
  have henum' : fam.Enumerates end_ begin ([] ++ elems) := henum
  have hcall := ((Caches.blank fam begin blank_default).ensureCachedUpTo henum' hsmall hoffset).2
  refine hcall fun hthere => ?_
  rw [htarget] at hthere
  obtain ⟨hi, hget⟩ := List.getElem?_eq_some_iff.mp he'
  have hreach : i + 1 < reach (e.end_ + 1) elems := by
    refine lt_reach hi fun i' e1 hi' he1 => ?_
    by_cases heq : i' = i
    · rw [heq, he, Option.some.injEq] at he1
      rw [← he1]
      exact Nat.lt_succ_self _
    · have hlt := henum.end_le he1 he (by omega)
      simp only [Element.end_] at hlt ⊢
      omega
  have hbit := hthere e' (List.mem_take_iff_getElem.mpr ⟨i + 1, by omega, hget⟩)
  have hge := nbits_le_bitOf (s := {}) (T := target begin end_ {} (e.end_ + 1 - begin))
    (henum.next_start he he' ▸ fam.dvd_roundUp _) (by omega) rfl hword
  omega

end

/-- **Every call stays in the bitmap just when the sequence is tight.** -/
theorem run_inBitmap_iff (fam : PackedSequenceFamily) (begin end_ : Nat) (elems : List Element)
    (henum : fam.Enumerates end_ begin elems) (hsmall : fam.Small begin elems)
    (hbelow : ∀ e ∈ elems, e.start < end_) :
    (∀ offsets, (∀ o ∈ offsets, o < 2 ^ 32) → ∃ s, fam.run begin end_ {} offsets = some s)
      ↔ fam.Tight begin elems := by
  refine ⟨fun hall i e e' he he' hword => ?_, fun htight offsets _ =>
    run_isSome henum hsmall htight hbelow offsets⟩
  by_contra hpad
  have hnone := run_eq_none henum hsmall hbelow he he' hword (by omega)
  have hlt : e.end_ + 1 - begin < 2 ^ 32 := by
    have hafter := henum.after_take (i + 1)
    rw [he'] at hafter
    have hmono := le_after (henum.append_take (i + 1)).drop
    have hsize := hsmall.size
    rw [← List.take_append_drop (i + 1) elems, after_append] at hsize
    dsimp only at hafter
    omega
  obtain ⟨s, hs⟩ := hall [e.end_ + 1 - begin] fun o ho => by rw [List.mem_singleton.mp ho]; exact hlt
  rw [hnone] at hs
  exact absurd hs (by simp)

theorem sample_tight : sampleFamily.Tight 4096 sampleElements := by
  intro i e e' _ he' hword
  have hmem : e' ∈ sampleElements.drop 1 := by
    refine List.mem_iff_getElem?.mpr ⟨i, ?_⟩
    rw [List.getElem?_drop, Nat.add_comm]
    exact he'
  rw [List.mem_singleton.mp hmem] at hword
  exact absurd hword (by decide)

theorem run_inBitmap_iff_sample : sampleFamily.Enumerates 4112 4096 sampleElements
    ∧ sampleFamily.Small 4096 sampleElements ∧ sampleFamily.Tight 4096 sampleElements
    ∧ ∀ offsets, (∀ o ∈ offsets, o < 2 ^ 32) →
      ∃ s, sampleFamily.run 4096 4112 {} offsets = some s :=
  ⟨sample_enumerates, sample_small, sample_tight,
    (run_inBitmap_iff sampleFamily 4096 4112 sampleElements sample_enumerates sample_small
      (by decide)).mpr sample_tight⟩

/-- Elements of 253 bytes, aligned to four. -/
def gapFamily : PackedSequenceFamily where
  enumerate := fun pos end_ => if pos < end_ then some (253, 100) else none
  log2Align := 2
  typesTable := [100]

/-- Two elements with three bytes of padding between them. -/
def gapElements : List Element := [⟨4096, 253, 100⟩, ⟨4352, 253, 100⟩]

/-- The target is in the padding before the second element, whose bit is the first of the second word;
the bitmap has one. -/
theorem run_past_bitmap : gapFamily.Enumerates 4608 4096 gapElements
    ∧ gapFamily.Small 4096 gapElements ∧ (∀ e ∈ gapElements, e.start < 4608)
    ∧ (gapFamily.growBitmap 4096 254 {}).nbits = 64 ∧ gapFamily.bitOf 4096 4352 = 64
    ∧ gapFamily.run 4096 4608 {} [254] = none :=
  ⟨⟨rfl, by decide, rfl, rfl, by decide, rfl, rfl⟩, ⟨by decide, by decide⟩, by decide, by decide,
    by decide, by decide +kernel⟩

end Liballocs.PackedSequenceFamily
