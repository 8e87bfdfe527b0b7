/-
What `get_info` reports in a packed sequence.

The last start at or before the address is that of its element, and the bits before it count its
record.  Reported is what the record keeps in a few bits: the alignment units, the padding and the
number of the type.  The base is rounded down, and without a metavector nothing is reported.
-/
import Liballocs.Proofs.PackedBitmap
import Liballocs.Proofs.GenericMallocQuery

namespace Liballocs.PackedSequenceFamily

variable {fam : PackedSequenceFamily} {env : SeqEnv} {begin end_ a b : Nat}
  {elems : List Element} {s s' : PackedSequence} {e e' : Element} {i j n obj : Nat}

/-! ### The start before an address -/

theorem Enumerates.dvd_start (h : fam.Enumerates end_ begin elems) (he : elems[j]? = some e)
    (hj : 0 < j) : fam.align ∣ e.start := by
  obtain ⟨hlt, rfl⟩ := List.getElem?_eq_some_iff.mp he
  exact (List.pairwise_iff_getElem.mp h.sorted.2 0 j (by omega) hlt hj).2

theorem Enumerates.bit_lt (h : fam.Enumerates end_ begin elems) (he : elems[i]? = some e)
    (he' : elems[j]? = some e') (hij : i < j) :
    fam.bitOf begin e.start < fam.bitOf begin e'.start := by
  obtain ⟨hi, rfl⟩ := List.getElem?_eq_some_iff.mp he
  obtain ⟨hj, rfl⟩ := List.getElem?_eq_some_iff.mp he'
  exact List.pairwise_iff_getElem.mp h.bits_lt i j hi hj hij

theorem getElem?_take_eq_some : (elems.take n)[i]? = some e ↔ i < n ∧ elems[i]? = some e := by
  rw [List.getElem?_take, Option.ite_none_right_eq_some]

theorem mem_take_iff : e ∈ elems.take n ↔ ∃ i, i < n ∧ elems[i]? = some e := by
  rw [List.mem_iff_getElem?]
  exact exists_congr fun i => getElem?_take_eq_some

theorem bitOf_mono (h : a ≤ b) : fam.bitOf begin a ≤ fam.bitOf begin b :=
  Nat.div_le_div_right (Nat.sub_le_sub_right h _)

theorem count_eq {bits : List Nat} {p : Nat → Prop} [DecidablePred p]
    (hsorted : bits.Pairwise (· < ·)) (hp : ∀ k, p k ↔ k ∈ bits) (hb : bits[i]? = some b) :
    Nat.count p b = i := by
  obtain ⟨hi, rfl⟩ := List.getElem?_eq_some_iff.mp hb
  have hlt := List.pairwise_iff_getElem.mp hsorted
  have hbefore : (Finset.range bits[i]).filter p = (bits.take i).toFinset := by
    ext k
    rw [Finset.mem_filter, Finset.mem_range, hp, List.mem_toFinset, List.mem_take_iff_getElem,
      List.mem_iff_getElem]
    refine ⟨fun h => ?_, fun h => ?_⟩
    · obtain ⟨hk, j, hj, rfl⟩ := h
      refine ⟨j, ?_, rfl⟩
      by_contra hge
      rcases Nat.lt_or_eq_of_le (show i ≤ j by omega) with hij | rfl
      · have := hlt i j hi hj hij
        omega
      · exact hk.false
    · obtain ⟨j, hj, rfl⟩ := h
      exact ⟨hlt j i (by omega) hi (by omega), j, by omega, rfl⟩
  have hnodup : (bits.take i).Nodup := (hsorted.imp Nat.ne_of_lt).sublist (List.take_sublist i bits)
  rw [Nat.count_eq_card_filter_range, hbefore, List.toFinset_card_of_nodup hnodup, List.length_take]
  omega

section

variable (henum : fam.Enumerates end_ begin elems) (h : fam.Caches begin (elems.take n) s)
  (he : elems[i]? = some e) (hi : i < n)
include henum h he hi

theorem Caches.lastSet_eq (hbegin : begin ≤ obj) (hobj : obj < e.end_) {q : Nat}
    (hle : fam.bitOf begin e.start ≤ q) (hq : q ≤ fam.bitOf begin obj) :
    Bits.lastSet s.startsBitmap q = some (fam.bitOf begin e.start) := by
  refine Bits.lastSet_eq_some_iff.mpr ⟨hle, (h.bits _).mpr ⟨e, mem_take_iff.mpr ⟨i, hi, he⟩, rfl⟩,
    fun k hlt hk => ?_⟩
  by_contra hset
  obtain ⟨e', he', rfl⟩ := (h.bits k).mp (Bool.eq_true_of_not_eq_false hset)
  obtain ⟨j, -, he'⟩ := mem_take_iff.mp he'
  rcases Nat.lt_trichotomy i j with hij | rfl | hji
  · have hstart := henum.end_le he he' hij
    have hbit := bitOf_lt (henum.dvd_start he' (by omega)) hbegin (hobj.trans_le hstart)
    omega
  · rw [he, Option.some.injEq] at he'
    rw [he'] at hlt
    exact hlt.false
  · have hbit := henum.bit_lt he' he hji
    omega

/-- The search finds the element, unless it would have to start beyond the bitmap. -/
theorem Caches.bitmapRfindFirstSetLeq_eq (hstart : e.start ≤ obj) (hobj : obj < e.end_)
    (env : SeqEnv) :
    s.bitmapRfindFirstSetLeq env (fam.bitOf begin obj)
      = if fam.bitOf begin obj < s.nbits ∨ env.rfindClamps = true
        then some (some (fam.bitOf begin e.start)) else none := by
  have hbegin := (henum.sorted.1 e (List.mem_of_getElem? he)).1
  have hle : fam.bitOf begin e.start ≤ fam.bitOf begin obj := bitOf_mono hstart
  have hinside := h.inside e (mem_take_iff.mpr ⟨i, hi, he⟩)
  unfold PackedSequence.bitmapRfindFirstSetLeq
  simp only [Bits.Searches.lastLeq_eq]
  by_cases hlt : fam.bitOf begin obj < s.nbits
  · rw [if_pos hlt, if_pos (Or.inl hlt), h.lastSet_eq henum he hi (by omega) hobj hle (Nat.le_refl _)]
  · rw [if_neg hlt]
    by_cases hc : env.rfindClamps = true
    · rw [if_pos hc, if_pos (Or.inr hc), if_neg (by omega),
        h.lastSet_eq henum he hi (by omega) hobj (by omega) (by omega)]
    · rw [if_neg hc, if_neg (by simp [hlt, hc])]

theorem Caches.bitmapCountSet_eq (env : SeqEnv) :
    s.bitmapCountSet env (fam.bitOf begin e.start) = i := by
  rw [PackedSequence.bitmapCountSet, env.bitmaps.countBelow_eq]
  have hsorted : ((elems.take n).map fun e => fam.bitOf begin e.start).Pairwise (· < ·) :=
    List.pairwise_map.mpr (henum.bits_lt.sublist (List.take_sublist n elems))
  refine count_eq hsorted (fun k => (h.bits k).trans List.mem_map.symm) ?_
  rw [List.getElem?_map, List.getElem?_take_of_lt hi, he]
  rfl

end

theorem Caches.metavector_getElem? (h : fam.Caches begin (elems.take n) s)
    (hk : fam.metavector ≠ .noMetavector) (he : elems[i]? = some e) (hi : i < n) :
    s.metavector[i]? = some (fam.recordOf e.start e.size e.type) := by
  rw [h.records, recordsOf, if_neg hk, List.getElem?_map, List.getElem?_take_of_lt hi, he]
  rfl

/-! ### What is reported -/

/-- What the record of an element says about it. -/
def reported (fam : PackedSequenceFamily) (env : SeqEnv) (begin : Nat) (e : Element) :
    Option SeqInfo :=
  if fam.metavector = .noMetavector then some ⟨0, 0, 2 ^ 64 - 1⟩
  else
    let ent := fam.recordOf e.start e.size e.type
    let sz := sub64 (ent.sizeNalign * fam.align) ent.sizeDeltaNbytes
    (fam.typesTable[ent.typeIdx]?).bind fun t => (env.fixupT t sz).map fun outType =>
      ⟨outType, fam.bitmapBaseAddr begin + fam.bitOf begin e.start * fam.align, sz⟩

/-- The search for an address starts inside the bitmap, or at its end. -/
def Searchable (fam : PackedSequenceFamily) (env : SeqEnv) (begin : Nat) (s : PackedSequence)
    (obj : Nat) : Prop :=
  env.rfindClamps = true ∨ s.offsetCachedUpTo ≤ obj - begin ∨ fam.bitOf begin obj < s.nbits

/-- `get_info` reports what the record of the element says, if the search can start. -/
theorem Caches.getInfo_eq (env : SeqEnv) (henum : fam.Enumerates end_ begin elems)
    (hsmall : fam.Small begin elems) (htight : fam.Tight begin elems)
    (hinside : ∀ e ∈ elems, e.end_ ≤ end_) (h : fam.Caches begin (elems.take n) s)
    (he : elems[i]? = some e) (hstart : e.start ≤ obj) (hobj : obj < e.end_) :
    ∃ s', (fam.Searchable env begin s obj → fam.getInfo env begin end_ s obj
        = (fam.reported env begin e).map fun info => (s', some info))
      ∧ (¬ fam.Searchable env begin s obj → fam.getInfo env begin end_ s obj = none) := by
  have hsize : ∀ e ∈ elems, 0 < e.size := fun e he => (henum.sorted.1 e he).2
  have hbelow : ∀ e ∈ elems, e.start < end_ := by
    intro e he
    have hend := hinside e he
    have hpos := hsize e he
    simp only [Element.end_] at hend
    omega
  have hmem := List.mem_of_getElem? he
  have hbegin := (henum.sorted.1 e hmem).1
  have hend := hinside e hmem
  have hfits : e.end_ ≤ fam.after begin elems := henum.end_le_after hmem
  have hsmall' := hsmall.size
  have hoff : (obj - begin) % 2 ^ 32 = obj - begin := Nat.mod_eq_of_lt (by omega)
  have hoff' : (obj - begin + 1) % 2 ^ 32 = obj - begin + 1 := Nat.mod_eq_of_lt (by omega)
  obtain ⟨s', hs', hc', hn', hcover, hbits⟩ :=
    h.ensure_covers henum hsmall htight hbelow (obj - begin + 1)
  have hi := hcover i e he (by omega)
  have hthere : (fam.bitOf begin obj < s'.nbits ∨ env.rfindClamps = true)
      ↔ fam.Searchable env begin s obj := by
    unfold Searchable
    by_cases hwork : s.offsetCachedUpTo ≤ obj - begin
    · have hbit := hbits (by omega) obj (by omega) (by omega)
      simp [hwork, hbit]
    · have hsame : s = s' := by
        rw [PackedSequenceFamily.ensureCachedUpTo, if_neg (by omega)] at hs'
        exact Option.some.inj hs'
      rw [← hsame]
      simp [hwork, or_comm]
  have hfind := hc'.bitmapRfindFirstSetLeq_eq henum he hi hstart hobj env
  have hobj' : begin + (obj - begin) = obj := by omega
  refine ⟨s', fun hsearch => ?_, fun hsearch => ?_⟩
  · rw [if_pos (hthere.mpr hsearch)] at hfind
    simp only [PackedSequenceFamily.getInfo, hoff, hoff', hs', hobj', hfind, Option.bind_eq_bind,
      Option.bind_some, foundInfo, reported]
    by_cases hk : fam.metavector = .noMetavector
    · simp [hk, SeqEnv.fixupT]
    · rw [if_neg hk, if_neg hk, hc'.bitmapCountSet_eq henum he hi env, hc'.metavector_getElem? hk he hi]
      simp [Option.map_eq_bind, Option.bind_assoc]
  · rw [if_neg (mt hthere.mp hsearch)] at hfind
    simp only [PackedSequenceFamily.getInfo, hoff, hoff', hs', hobj', hfind, Option.bind_eq_bind,
      Option.bind_some, Option.bind_none]

/-- The fields give the size back just when both values fit. -/
theorem size_of_fields_iff {units pad A size : Nat} (hsum : units * A = size + pad) (hpad : pad < A)
    (hsize : size < 2 ^ 32) (hb : 2 ^ b ≤ 2 ^ 32) :
    sub64 (units % 2 ^ a * A) (pad % 2 ^ b) = size ↔ units < 2 ^ a ∧ pad < 2 ^ b := by
  refine ⟨fun h => ?_, fun h => ?_⟩
  · have hle := Nat.mod_le units (2 ^ a)
    unfold sub64 at h
    split at h
    · have hunits : units % 2 ^ a = units := by
        by_contra hne
        -- a whole unit is missing, which is more than the padding
        have hmul := Nat.mul_le_mul_right A (show units % 2 ^ a + 1 ≤ units by omega)
        rw [Nat.add_mul, Nat.one_mul] at hmul
        omega
      have hmod' := Nat.mod_lt units (show 0 < 2 ^ a from Nat.pow_pos (by decide))
      rw [hunits] at h hmod'
      exact ⟨hmod', by omega⟩
    · omega
  · rw [Nat.mod_eq_of_lt h.1, Nat.mod_eq_of_lt h.2, hsum, sub64, if_pos (Nat.le_add_left _ _)]
    omega

theorem base_add_bitOf_iff (h : begin ≤ a) :
    fam.bitmapBaseAddr begin + fam.bitOf begin a * fam.align = a ↔ fam.align ∣ a := by
  have hbase := fam.base_le begin
  refine ⟨fun heq => ?_, fun hd => ?_⟩
  · rw [← heq]
    exact Nat.dvd_add (Nat.dvd_mul_left _ _) (Nat.dvd_mul_left _ _)
  · rw [bitOf_mul_align begin hd]
    omega

/-- The record of an element says all about it. -/
structure Recorded (fam : PackedSequenceFamily) (env : SeqEnv) (e : Element) : Prop where
  metavector : fam.metavector ≠ .noMetavector
  aligned : fam.align ∣ e.start
  units : (roundUp e.end_ fam.align - e.start) / fam.align < 2 ^ fam.metavector.sizeNalignBits
  padding : roundUp e.end_ fam.align - e.end_ < 2 ^ fam.metavector.sizeDeltaBits
  type : ∃ t outType, fam.typesTable[fam.findIdx e.type % 2 ^ fam.metavector.typeIdxBits]? = some t
    ∧ env.fixupT t e.size = some outType ∧ env.fixupT e.type e.size = some outType

theorem sizeDeltaBits_le (k : MetavectorKind) : 2 ^ k.sizeDeltaBits ≤ 2 ^ 32 := by
  cases k <;> decide

/-- What is reported is the element just when its record says all about it. -/
theorem reported_iff (fam : PackedSequenceFamily) (env : SeqEnv) (hbegin : begin ≤ e.start)
    (hsize : e.size < 2 ^ 32) :
    (∃ outType, env.fixupT e.type e.size = some outType
        ∧ fam.reported env begin e = some ⟨outType, e.start, e.size⟩) ↔ fam.Recorded env e := by
  by_cases hk : fam.metavector = .noMetavector
  · refine iff_of_false (fun h => ?_) fun h => h.metavector hk
    obtain ⟨outType, -, h⟩ := h
    rw [reported, if_pos hk, Option.some.injEq, SeqInfo.mk.injEq] at h
    omega
  have hround := fam.le_roundUp e.end_
  have hlt := fam.roundUp_lt e.end_
  have hsz : fam.align ∣ e.start →
      (sub64 ((fam.recordOf e.start e.size e.type).sizeNalign * fam.align)
        (fam.recordOf e.start e.size e.type).sizeDeltaNbytes = e.size
      ↔ (roundUp e.end_ fam.align - e.start) / fam.align < 2 ^ fam.metavector.sizeNalignBits
        ∧ roundUp e.end_ fam.align - e.end_ < 2 ^ fam.metavector.sizeDeltaBits) := by
    intro hd
    refine size_of_fields_iff ?_ (show roundUp e.end_ fam.align - e.end_ < fam.align by omega) hsize
      (sizeDeltaBits_le _)
    rw [Nat.div_mul_cancel (Nat.dvd_sub (fam.dvd_roundUp _) hd)]
    simp only [Element.end_] at hround ⊢
    omega
  simp only [reported, if_neg hk, Option.bind_eq_some_iff, Option.map_eq_some_iff, SeqInfo.mk.injEq]
  refine ⟨fun h => ?_, fun h => ?_⟩
  · obtain ⟨outType, htype, t, ht, outType', ht', rfl, hbase, heq⟩ := h
    have hd := (base_add_bitOf_iff hbegin).mp hbase
    obtain ⟨hunits, hpad⟩ := (hsz hd).mp heq
    rw [heq] at ht'
    exact ⟨hk, hd, hunits, hpad, t, outType', ht, ht', htype⟩
  · obtain ⟨t, outType, ht, ht', htype⟩ := h.type
    have heq := (hsz h.aligned).mpr ⟨h.units, h.padding⟩
    exact ⟨outType, htype, t, ht, outType, heq.symm ▸ ht', rfl,
      (base_add_bitOf_iff hbegin).mpr h.aligned, heq⟩

/-- **`get_info` reports the element around an address just when the element's record says all about
it and the search can start.** -/
theorem getInfo_element_iff (fam : PackedSequenceFamily) (env : SeqEnv) (begin end_ : Nat)
    (elems : List Element) (offsets : List Nat) (s : PackedSequence) (e : Element) (obj : Nat)
    (henum : fam.Enumerates end_ begin elems) (hsmall : fam.Small begin elems)
    (htight : fam.Tight begin elems) (hinside : ∀ e ∈ elems, e.end_ ≤ end_)
    (hs : fam.run begin end_ {} offsets = some s) (he : e ∈ elems) (hstart : e.start ≤ obj)
    (hobj : obj < e.end_) :
    (∃ s' outType, env.fixupT e.type e.size = some outType
        ∧ fam.getInfo env begin end_ s obj = some (s', some ⟨outType, e.start, e.size⟩))
      ↔ fam.Recorded env e ∧ fam.Searchable env begin s obj := by
  obtain ⟨n, hc, -⟩ := Caches.run henum hsmall blank_default offsets s hs
  obtain ⟨i, hi⟩ := List.mem_iff_getElem?.mp he
  obtain ⟨s', hfound, hfail⟩ := hc.getInfo_eq env henum hsmall htight hinside hi hstart hobj
  have hbegin := (henum.sorted.1 e he).1
  have hsize : e.size < 2 ^ 32 := by
    have hfits := henum.end_le_after he
    have hafter := hsmall.size
    simp only [Element.end_] at hfits
    omega
  rw [← reported_iff fam env hbegin hsize]
  by_cases hsearch : fam.Searchable env begin s obj
  · rw [hfound hsearch, and_iff_left hsearch]
    simp only [Option.map_eq_some_iff, Prod.mk.injEq, Option.some.injEq]
    refine ⟨fun h => ?_, fun h => ?_⟩
    · obtain ⟨-, outType, htype, info, hrep, -, rfl⟩ := h
      exact ⟨outType, htype, hrep⟩
    · obtain ⟨outType, htype, hrep⟩ := h
      exact ⟨s', outType, htype, _, hrep, rfl, rfl⟩
  · rw [hfail hsearch]
    refine iff_of_false (fun h => ?_) fun h => hsearch h.2
    obtain ⟨s1, outType, -, hc⟩ := h
    exact Option.some_ne_none _ hc.symm

theorem getInfo_element_iff_sample : ∃ s s',
    sampleFamily.run 4096 4112 {} [1] = some s
      ∧ sampleFamily.getInfo {} 4096 4112 s 4106 = some (s', some ⟨100, 4104, 5⟩) := by
  obtain ⟨s, hs⟩ := run_isSome sample_enumerates sample_small sample_tight (by decide) [1]
  have hoffset : (sampleFamily.run 4096 4112 {} [1]).map (·.offsetCachedUpTo) = some 8 := by
    decide +kernel
  rw [hs, Option.map_some, Option.some.injEq] at hoffset
  have h := getInfo_element_iff sampleFamily {} 4096 4112 sampleElements [1] s ⟨4104, 5, 100⟩ 4106
    sample_enumerates sample_small sample_tight (by decide) hs (by decide) (by decide) (by decide)
  obtain ⟨s', outType, htype, hinfo⟩ := h.mpr ⟨⟨by decide, by decide, by decide, by decide,
    100, 100, by decide, by decide, by decide⟩, .inr (.inl (by rw [hoffset]; decide))⟩
  have hout : 100 = outType := Option.some.inj htype
  exact ⟨s, s', hs, hout ▸ hinfo⟩

/-- The string family on a table of one string. -/
def sampleStrings : PackedSequenceFamily :=
  string8NultermPackedSequence (fun a => if a = 4098 then 0 else 97) 100

/-- The family of strings has no metavector, and nothing is reported for a string. -/
theorem getInfo_string_unset : sampleStrings.Enumerates 4099 4096 [⟨4096, 3, 100⟩]
    ∧ (sampleStrings.getInfo {} 4096 4099 {} 4097).map (·.2) = some (some ⟨0, 0, 2 ^ 64 - 1⟩) :=
  ⟨⟨rfl, by decide, rfl, rfl⟩, by decide +kernel⟩

end Liballocs.PackedSequenceFamily
