/-
The cache of memory ranges is a list with the most recently used range in front.

`Chained`: one list, read one way from the head and the other from the tail, holds exactly the slots
whose validity bit is set.  Every operation unlinks a slot, pushes one to the front, or both, and what
the slots hold goes the way of the operations of `Lru`.
-/
import Mathlib.Order.Interval.Finset.Nat
import Liballocs.Lib.Dll
import Liballocs.Lib.Lru
import Liballocs.MemrangeCache

namespace Liballocs.MemrangeCache

open Dll

variable {c c' : MemrangeCache} {i j k : Nat} {l : List Nat} {m : Memrange}

/-! ### Bits -/

theorem getLsbD_one_shiftLeft (hi : i < 32) (j : Nat) :
    (1#32 <<< i).getLsbD j = decide (j = i) := by
  rw [BitVec.getLsbD_shiftLeft]
  by_cases hj : j = i
  · subst hj
    simp [hi]
  · rcases Nat.lt_or_ge j i with hlt | hge
    · simp [hlt, hj]
    · simp [BitVec.getLsbD_one, hj, show ¬ j - i = 0 by omega]

theorem getLsbD_clear (v : BitVec 32) (hi : i < 32) (j : Nat) :
    (v &&& ~~~(1#32 <<< i)).getLsbD j = (v.getLsbD j && !decide (j = i)) := by
  rw [BitVec.getLsbD_and, BitVec.getLsbD_not, getLsbD_one_shiftLeft hi]
  by_cases hj : j < 32
  · simp [hj]
  · simp [BitVec.getLsbD_of_ge v j (Nat.le_of_not_lt hj)]

theorem getLsbD_set (v : BitVec 32) (hi : i < 32) (j : Nat) :
    (v ||| (1#32 <<< i)).getLsbD j = (v.getLsbD j || decide (j = i)) := by
  rw [BitVec.getLsbD_or, getLsbD_one_shiftLeft hi]

theorem isValid_eq (hi : i - 1 < 32) : c.isValid i = c.validity.getLsbD (i - 1) := by
  have hbit : ∀ j, (c.validity &&& (1#32 <<< (i - 1))).getLsbD j
      = (c.validity.getLsbD j && decide (j = i - 1)) := fun j => by
    rw [BitVec.getLsbD_and, getLsbD_one_shiftLeft hi]
  unfold isValid
  cases hv : c.validity.getLsbD (i - 1) with
  | true =>
    rw [bne_iff_ne]
    intro h0
    have := hbit (i - 1)
    rw [h0, hv] at this
    simp at this
  | false =>
    have h0 : c.validity &&& (1#32 <<< (i - 1)) = 0 := by
      refine BitVec.eq_of_getLsbD_eq fun j _ => ?_
      rw [hbit]
      by_cases hj : j = i - 1
      · simp [hj, hv]
      · simp [hj]
    rw [h0]
    rfl

/-! ### The chain -/

/-- The next entry by use. -/
def next (c : MemrangeCache) (i : Nat) : Nat := (c.entries i).nextMru

/-- The previous entry by use. -/
def prev (c : MemrangeCache) (i : Nat) : Nat := (c.entries i).prevMru

/-- What a slot holds. -/
def range (c : MemrangeCache) (i : Nat) : Memrange := (c.entries i).toMemrange

/-- The slots in use, most recently used first. -/
structure Chained (c : MemrangeCache) (l : List Nat) : Prop where
  size : c.sizePlusOne = 1 + memrangeCacheMaxSize
  linked : Linked c.next c.prev 0 0 c.headMru l
  tail : c.tailMru = l.getLast?.getD 0
  nodup : l.Nodup
  mem_iff : ∀ i, i ∈ l ↔ 0 < i ∧ c.validity.getLsbD (i - 1) = true
  bound : ∀ k, memrangeCacheMaxSize ≤ k → c.validity.getLsbD k = false

namespace Chained

section

variable (h : c.Chained l)

include h

theorem pos (hi : i ∈ l) : 0 < i := ((h.mem_iff i).mp hi).1

theorem le (hi : i ∈ l) : i ≤ memrangeCacheMaxSize := by
  by_contra hlt
  have := h.bound (i - 1) (by omega)
  rw [((h.mem_iff i).mp hi).2] at this
  exact Bool.noConfusion this

theorem isValid_iff (h0 : 0 < i) (hle : i ≤ memrangeCacheMaxSize) :
    c.isValid i = true ↔ i ∈ l := by
  have : memrangeCacheMaxSize = 8 := rfl
  rw [isValid_eq (by omega), h.mem_iff]
  exact ⟨fun hv => ⟨h0, hv⟩, fun hv => hv.2⟩

theorem length_le : l.length ≤ memrangeCacheMaxSize := by
  have hcard : l.toFinset.card ≤ (Finset.Ioc 0 memrangeCacheMaxSize).card := by
    refine Finset.card_le_card fun i hi => ?_
    have hi := List.mem_toFinset.mp hi
    exact Finset.mem_Ioc.mpr ⟨h.pos hi, h.le hi⟩
  rw [List.toFinset_card_of_nodup h.nodup, Nat.card_Ioc] at hcard
  exact hcard

end

end Chained

theorem chained_empty : ({} : MemrangeCache).Chained [] :=
  ⟨rfl, rfl, rfl, List.nodup_nil, fun i => by simp, fun k _ => by simp⟩

/-! ### Unlinking -/

theorem setNextMru_eq (c : MemrangeCache) (p n : Nat) :
    c.setNextMru p n = { c with entries := fun x =>
      { c.entries x with nextMru := if x = p ∧ x ≠ 0 then n else c.next x } } := by
  unfold setNextMru modify next
  by_cases hp : p = 0
  · have hx : ∀ x, ¬ (x = p ∧ x ≠ 0) := fun x hx => hx.2 (hx.1.trans hp)
    rw [if_neg (not_not.mpr hp)]
    simp [hx]
  · rw [if_pos hp]
    congr 1
    funext x
    by_cases hx : x = p
    · simp [hx, hp]
    · simp [hx]

theorem setPrevMru_eq (c : MemrangeCache) (p n : Nat) :
    c.setPrevMru p n = { c with entries := fun x =>
      { c.entries x with prevMru := if x = p ∧ x ≠ 0 then n else c.prev x } } := by
  unfold setPrevMru modify prev
  by_cases hp : p = 0
  · have hx : ∀ x, ¬ (x = p ∧ x ≠ 0) := fun x hx => hx.2 (hx.1.trans hp)
    rw [if_neg (not_not.mpr hp)]
    simp [hx]
  · rw [if_pos hp]
    congr 1
    funext x
    by_cases hx : x = p
    · simp [hx, hp]
    · simp [hx]

theorem cacheUnlink_eq (c : MemrangeCache) (i : Nat) :
    c.cacheUnlink i = { c with
      validity := (c.validity &&& ~~~(1#32 <<< (i - 1))) &&& ~~~(1#32 <<< (i - 1))
      nextVictim := i
      headMru := if c.headMru = i then c.next i else c.headMru
      tailMru := if c.tailMru = i then c.prev i else c.tailMru
      entries := fun x => { c.entries x with
        nextMru := if x = c.prev i ∧ x ≠ 0 then c.next i else c.next x
        prevMru := if x = c.next i ∧ x ≠ 0 then c.prev i else c.prev x } } := by
  simp only [cacheUnlink, setNextMru_eq, setPrevMru_eq]
  rfl

theorem next_cacheUnlink (hj : j ≠ 0) :
    (c.cacheUnlink i).next j = if j = c.prev i then c.next i else c.next j := by
  rw [cacheUnlink_eq]
  exact if_congr (and_iff_left hj) rfl rfl

theorem prev_cacheUnlink (hj : j ≠ 0) :
    (c.cacheUnlink i).prev j = if j = c.next i then c.prev i else c.prev j := by
  rw [cacheUnlink_eq]
  exact if_congr (and_iff_left hj) rfl rfl

theorem cachePushHeadMru_eq (c : MemrangeCache) (i : Nat) :
    c.cachePushHeadMru i = { c with
      validity := c.validity ||| (1#32 <<< (i - 1))
      headMru := i
      tailMru := if c.tailMru = 0 then i else c.tailMru
      entries := fun x => { c.entries x with
        nextMru := if x = i then c.headMru else c.next x
        prevMru := if x = c.headMru ∧ x ≠ 0 then i else if x = i then 0 else c.prev x } } := by
  simp only [cachePushHeadMru, setPrevMru_eq, modify, prev, next]
  congr 1
  funext x
  by_cases hx : x = i
  · simp [hx]
  · simp [hx]

theorem next_cachePushHeadMru (hj : j ≠ i) : (c.cachePushHeadMru i).next j = c.next j := by
  rw [cachePushHeadMru_eq]
  exact if_neg hj

theorem prev_cachePushHeadMru (hj : j ≠ i) (h0 : j ≠ 0) :
    (c.cachePushHeadMru i).prev j = if j = c.headMru then i else c.prev j := by
  rw [cachePushHeadMru_eq]
  exact if_congr (and_iff_left h0) rfl (if_neg hj)

/-! ### One slot -/

namespace Chained

section

variable (h : c.Chained l)
include h

theorem bit_lt (hi : i ∈ l) : i - 1 < 32 := by
  have := h.le hi
  have : memrangeCacheMaxSize = 8 := rfl
  omega

theorem cacheUnlink (hi : i ∈ l) : (c.cacheUnlink i).Chained (l.erase i) := by
  have hbit : ∀ j, (c.cacheUnlink i).validity.getLsbD j
      = (c.validity.getLsbD j && !decide (j = i - 1)) := fun j => by
    rw [cacheUnlink_eq]
    simp [getLsbD_clear _ (h.bit_lt hi)]
  have hpos := h.pos hi
  have hmem : ∀ j, j ∈ l.erase i
      ↔ 0 < j ∧ (c.cacheUnlink i).validity.getLsbD (j - 1) = true := fun j => by
    rw [h.nodup.mem_erase_iff, h.mem_iff, hbit]
    simp only [Bool.and_eq_true, Bool.not_eq_true', decide_eq_false_iff_not]
    constructor
    · rintro ⟨hne, h0, hv⟩
      exact ⟨h0, hv, by omega⟩
    · rintro ⟨h0, hv, hne⟩
      exact ⟨by rintro rfl; exact hne rfl, h0, hv⟩
  have hbound : ∀ k, memrangeCacheMaxSize ≤ k
      → (c.cacheUnlink i).validity.getLsbD k = false := fun k hk => by
    rw [hbit, h.bound k hk, Bool.false_and]
  obtain ⟨l1, l2, rfl⟩ := List.append_of_mem hi
  have hnd := h.nodup
  have herase : (l1 ++ i :: l2).erase i = l1 ++ l2 := by
    have hnot : i ∉ l1 := fun hc =>
      (List.nodup_append.mp hnd).2.2 i hc i (.head _) rfl
    rw [List.erase_append_right _ hnot, List.erase_cons_head]
  have hne : ∀ x ∈ l1 ++ l2, x ≠ 0 := fun x hx =>
    (h.pos (by simp only [List.mem_append, List.mem_cons] at hx ⊢; tauto)).ne'
  refine ⟨by rw [cacheUnlink_eq]; exact h.size, ?_, ?_, hnd.erase i, hmem, hbound⟩
  · rw [herase]
    have hremoved := h.linked.remove (c.cacheUnlink i).next (c.cacheUnlink i).prev hnd
      (fun hc => (h.pos hc).false)
      (fun x hx => next_cacheUnlink (hne x hx)) fun x hx => prev_cacheUnlink (hne x hx)
    rw [cacheUnlink_eq] at hremoved ⊢
    exact hremoved
  · rw [herase, cacheUnlink_eq]
    show (if c.tailMru = i then c.prev i else c.tailMru) = _
    rw [h.tail]
    rcases List.eq_nil_or_concat l2 with rfl | ⟨l3, b, rfl⟩
    · rw [List.getLast?_concat, Option.getD_some, if_pos rfl, List.append_nil]
      exact h.linked.prev_eq
    · have hb : b ≠ i := by
        rintro rfl
        exact (List.nodup_cons.mp (List.nodup_append.mp hnd).2.1).1 (by simp)
      rw [List.concat_eq_append, ← List.cons_append, ← List.append_assoc, ← List.append_assoc,
        List.getLast?_concat, List.getLast?_concat, Option.getD_some, if_neg hb]

theorem cachePushHeadMru (hi : i ∉ l) (h0 : 0 < i)
    (hle : i ≤ memrangeCacheMaxSize) : (c.cachePushHeadMru i).Chained (i :: l) := by
  have h8 : memrangeCacheMaxSize = 8 := rfl
  have hbit : ∀ j, (c.cachePushHeadMru i).validity.getLsbD j
      = (c.validity.getLsbD j || decide (j = i - 1)) := fun j => by
    rw [cachePushHeadMru_eq]
    exact getLsbD_set _ (by omega) j
  have hne : ∀ x ∈ l, x ≠ 0 := fun x hx => (h.pos hx).ne'
  have hni : ∀ x ∈ l, x ≠ i := fun x hx hc => hi (hc ▸ hx)
  have hhead : ¬ (i = c.headMru ∧ i ≠ 0) := by
    rintro ⟨hc, hi0⟩
    rw [h.linked.head_eq] at hc
    cases l with
    | nil => exact hi0 hc
    | cons a l => exact hi (hc ▸ List.mem_cons_self)
  refine ⟨by rw [cachePushHeadMru_eq]; exact h.size, ?_, ?_, List.nodup_cons.mpr ⟨hi, h.nodup⟩,
    fun j => ?_, fun k hk => ?_⟩
  · have hinserted := h.linked.insert [] l (c.cachePushHeadMru i).next (c.cachePushHeadMru i).prev
      h.nodup (fun hc => hne 0 hc rfl) h0.ne' rfl h.linked.head_eq
      (by rw [cachePushHeadMru_eq]; exact if_pos rfl)
      (by rw [cachePushHeadMru_eq]; exact (if_neg hhead).trans (if_pos rfl))
      (fun x hx => (next_cachePushHeadMru (hni x hx)).trans (if_neg (hne x hx)).symm)
      fun x hx => prev_cachePushHeadMru (hni x hx) (hne x hx)
    exact hinserted
  · rw [cachePushHeadMru_eq]
    show (if c.tailMru = 0 then i else c.tailMru) = _
    rw [h.tail, List.getLast?_cons]
    cases hl : l.getLast? with
    | none => rfl
    | some b =>
      exact if_neg (hne b (List.mem_of_getLast? hl))
  · rw [hbit, List.mem_cons, h.mem_iff]
    simp only [Bool.or_eq_true, decide_eq_true_eq]
    constructor
    · rintro (rfl | ⟨hj, hv⟩)
      · exact ⟨h0, .inr rfl⟩
      · exact ⟨hj, .inl hv⟩
    · rintro ⟨hj, hv | hv⟩
      · exact .inr ⟨hj, hv⟩
      · exact .inl (by omega)
  · rw [hbit, h.bound k hk, Bool.false_or, decide_eq_false_iff_not]
    omega

theorem cacheBumpMru (hi : i ∈ l) : (c.cacheBumpMru i).Chained (i :: l.erase i) := by
  unfold MemrangeCache.cacheBumpMru
  have hvalid := (h.isValid_iff (h.pos hi) (h.le hi)).mpr hi
  by_cases hhead : c.headMru = i
  · rw [if_neg (not_not.mpr hhead)]
    cases l with
    | nil => cases hi
    | cons a l =>
      obtain rfl : i = a := hhead.symm.trans h.linked.1
      rw [List.erase_cons_head]
      exact h
  · rw [if_pos hhead, if_pos hvalid]
    exact (h.cacheUnlink hi).cachePushHeadMru (h.nodup.not_mem_erase) (h.pos hi) (h.le hi)

theorem cacheBumpMru_new (hi : i ∉ l) (h0 : 0 < i)
    (hle : i ≤ memrangeCacheMaxSize) : (c.cacheBumpMru i).Chained (i :: l) := by
  unfold MemrangeCache.cacheBumpMru
  have hhead : c.headMru ≠ i := by
    rintro rfl
    rw [h.linked.head_eq] at hi h0
    cases l with
    | nil => exact h0.false
    | cons a l => exact hi (.head _)
  rw [if_pos hhead, if_neg fun hc => hi ((h.isValid_iff h0 hle).mp hc)]
  exact h.cachePushHeadMru hi h0 hle

theorem modify (i : Nat) (m : Memrange) :
    (c.modify i fun e => { e with toMemrange := m }).Chained l := by
  refine ⟨h.size, ?_, h.tail, h.nodup, h.mem_iff, h.bound⟩
  refine h.linked.congr (fun x _ => ?_) fun x _ => ?_
  all_goals
    simp only [next, prev, MemrangeCache.modify]
    split <;> rfl

theorem nextVictim (v : Nat) : { c with nextVictim := v }.Chained l :=
  ⟨h.size, h.linked, h.tail, h.nodup, h.mem_iff, h.bound⟩

theorem cacheBumpVictim (i : Nat) : (c.cacheBumpVictim i).Chained l := by
  unfold MemrangeCache.cacheBumpVictim
  split
  · exact h.nextVictim _
  · exact h

end

end Chained

/-! ### What the slots hold -/

@[simp] theorem range_cacheUnlink : (c.cacheUnlink i).range = c.range := by
  rw [cacheUnlink_eq]
  rfl

@[simp] theorem range_cacheBumpMru : (c.cacheBumpMru i).range = c.range := by
  have hpush : ∀ c : MemrangeCache, (c.cachePushHeadMru i).range = c.range := fun c => by
    rw [cachePushHeadMru_eq]
    rfl
  unfold cacheBumpMru
  split
  · rw [hpush]
    split
    · exact range_cacheUnlink
    · rfl
  · rfl

@[simp] theorem range_cacheBumpVictim : (c.cacheBumpVictim i).range = c.range := by
  unfold cacheBumpVictim
  split <;> rfl

theorem range_modify (j : Nat) :
    (c.modify i fun e => { e with toMemrange := m }).range j = if j = i then m else c.range j := by
  simp only [range, modify]
  split <;> rfl

/-! ### Lookups -/

/-- Going along the chain finds the first slot whose range is hit. -/
theorem findFrom_eq {hit : Memrange → Bool} {fuel before : Nat} {h : Nat}
    (hl : Linked c.next c.prev 0 before h l) (hv : ∀ i ∈ l, c.isValid i = true)
    (hf : l.length ≤ fuel) : c.findFrom hit fuel h = some ((l.find? (hit ∘ c.range)).getD 0) := by
  induction l generalizing before h fuel with
  | nil =>
    obtain rfl : h = 0 := hl
    cases fuel <;> rfl
  | cons a l ih =>
    obtain ⟨rfl, hne, -, hrest⟩ := hl
    cases fuel with
    | zero => simp at hf
    | succ fuel =>
      rw [findFrom, if_neg hne, hv h (.head _), Bool.true_and, List.find?_cons]
      have hrange : (hit ∘ c.range) h = hit (c.entries h).toMemrange := rfl
      rw [hrange]
      cases hit (c.entries h).toMemrange with
      | true => rfl
      | false =>
        exact ih hrest (fun i hi => hv i (.tail _ hi)) (by simpa using hf)

/-- A lookup returns the first range that is hit and moves it to the front. -/
theorem Chained.lookupBy (h : c.Chained l) (hit : Memrange → Bool) :
    ∃ i c', c.lookupBy hit = some (i, c')
      ∧ (if i = 0 then none else some (c'.range i)) = (l.map c.range).find? hit
      ∧ ∃ l', c'.Chained l' ∧ l'.map c'.range = Lru.touch hit (l.map c.range) := by
  have hv : ∀ i ∈ l, c.isValid i = true := fun i hi =>
    (h.isValid_iff (h.pos hi) (h.le hi)).mpr hi
  have hlen : l.length ≤ c.sizePlusOne := by
    rw [h.size]
    have := h.length_le
    omega
  refine ⟨_, _, by rw [MemrangeCache.lookupBy, findFrom_eq h.linked hv hlen]; rfl, ?_⟩
  rw [Lru.touch_map, List.find?_map]
  cases hfind : l.find? (hit ∘ c.range) with
  | none =>
    rw [Lru.touch_of_find_none hfind]
    exact ⟨rfl, l, h, rfl⟩
  | some i =>
    have hi := List.mem_of_find?_eq_some hfind
    have hne : i ≠ 0 := (h.pos hi).ne'
    simp only [Option.getD_some, if_neg hne, range_cacheBumpMru]
    rw [Lru.touch_of_find hfind]
    exact ⟨rfl, _, h.cacheBumpMru hi, rfl⟩

/-! ### Insertions -/

/-- `__builtin_ffs` of the complement finds the first 0-bit. -/
theorem ffsNot_eq {v : BitVec 32} (hk : k < 32) (hbelow : ∀ j < k, v.getLsbD j = true)
    (hat : v.getLsbD k = false) : ffsNot v = k + 1 := by
  have hfind : (List.range 32).find? (fun j => !v.getLsbD j) = some k := by
    rw [List.find?_range_eq_some]
    refine ⟨by simp [hat], List.mem_range.mpr hk, fun j hj => by simp [hbelow j hj]⟩
  unfold ffsNot
  rw [hfind]

namespace Chained

section

variable (h : c.Chained l)

include h

theorem ffsNot :
    (l.length < memrangeCacheMaxSize ∧ MemrangeCache.ffsNot c.validity ≤ memrangeCacheMaxSize
      ∧ 0 < MemrangeCache.ffsNot c.validity ∧ MemrangeCache.ffsNot c.validity ∉ l)
    ∨ (l.length = memrangeCacheMaxSize ∧ MemrangeCache.ffsNot c.validity = c.sizePlusOne) := by
  have h8 : memrangeCacheMaxSize = 8 := rfl
  have hex : ∃ k, c.validity.getLsbD k = false := ⟨_, h.bound _ le_rfl⟩
  have hle : Nat.find hex ≤ memrangeCacheMaxSize := Nat.find_le (h.bound _ le_rfl)
  have hbelow : ∀ j < Nat.find hex, c.validity.getLsbD j = true := fun j hj => by
    simpa using Nat.find_min hex hj
  rw [ffsNot_eq (by omega) hbelow (Nat.find_spec hex)]
  rcases Nat.lt_or_eq_of_le hle with hlt | heq
  · have hnot : Nat.find hex + 1 ∉ l := fun hc => by
      have := ((h.mem_iff _).mp hc).2
      rw [Nat.add_sub_cancel, Nat.find_spec hex] at this
      exact Bool.noConfusion this
    have hcard : (insert (Nat.find hex + 1) l.toFinset).card
        ≤ (Finset.Ioc 0 memrangeCacheMaxSize).card := by
      refine Finset.card_le_card fun i hi => Finset.mem_Ioc.mpr ?_
      rcases Finset.mem_insert.mp hi with rfl | hi
      · omega
      · have hi := List.mem_toFinset.mp hi
        exact ⟨h.pos hi, h.le hi⟩
    rw [Finset.card_insert_of_notMem (by simpa using hnot),
      List.toFinset_card_of_nodup h.nodup, Nat.card_Ioc] at hcard
    exact .inl ⟨by omega, by omega, by omega, hnot⟩
  · have hcard : (Finset.Ioc 0 memrangeCacheMaxSize).card ≤ l.toFinset.card := by
      refine Finset.card_le_card fun i hi => List.mem_toFinset.mpr ?_
      obtain ⟨h0, hi⟩ := Finset.mem_Ioc.mp hi
      exact (h.mem_iff i).mpr ⟨h0, hbelow _ (by omega)⟩
    rw [List.toFinset_card_of_nodup h.nodup, Nat.card_Ioc] at hcard
    have := h.length_le
    exact .inr ⟨by omega, by rw [h.size]; omega⟩

/-- An insertion puts its range in front, for the last one if all slots are used. -/
theorem cacheWithType (m : Memrange) :
    ∃ l', (c.cacheWithType m).Chained l' ∧ l'.map (c.cacheWithType m).range
        = Lru.push memrangeCacheMaxSize m (l.map c.range) := by
  have hmap : ∀ {k : List Nat} {pos : Nat}, pos ∉ k →
      k.map (c.modify pos fun e => { e with toMemrange := m }).range = k.map c.range := by
    intro k pos hpos
    refine List.map_congr_left fun j hj => ?_
    rw [range_modify, if_neg]
    rintro rfl
    exact hpos hj
  unfold MemrangeCache.cacheWithType
  rcases h.ffsNot with ⟨hlen, hle, h0, hnot⟩ | ⟨hlen, hfull⟩
  · have hne : MemrangeCache.ffsNot c.validity ≠ c.sizePlusOne := by
      rw [h.size]
      omega
    simp only [if_neg hne]
    refine ⟨_, ((h.modify _ m).cacheBumpMru_new hnot h0 hle).cacheBumpVictim _, ?_⟩
    rw [range_cacheBumpVictim, range_cacheBumpMru, List.map_cons, hmap hnot, range_modify,
      if_pos rfl, Lru.push, List.length_map, if_pos hlen]
  · simp only [if_pos hfull]
    obtain rfl | ⟨k, b, rfl⟩ := List.eq_nil_or_concat l
    · exact absurd hlen (by decide)
    · rw [List.concat_eq_append] at h hlen ⊢
      have hnot : b ∉ k := fun hc =>
        (List.nodup_append.mp h.nodup).2.2 b hc b (by simp) rfl
      have htail : c.tailMru = b := by
        rw [h.tail, List.getLast?_concat]
        rfl
      have herase : (k ++ [b]).erase b = k := by
        rw [List.erase_append_right _ hnot, List.erase_cons_head, List.append_nil]
      rw [htail]
      refine ⟨_, ((h.modify b m).cacheBumpMru (by simp)).cacheBumpVictim _, ?_⟩
      rw [range_cacheBumpVictim, range_cacheBumpMru, herase, List.map_cons, hmap hnot,
        range_modify, if_pos rfl, Lru.push, List.length_map, if_neg (by omega), List.map_append,
        List.map_singleton, List.dropLast_concat]

/-! ### Removals -/

theorem uncacheAt (allocptr size : Nat) (h0 : 0 < i) (hle : i ≤ memrangeCacheMaxSize) :
    (uncacheAt allocptr size c i).Chained
        (l.filter fun j => !(j == i && (c.range j).beginsWithin allocptr size))
      ∧ (MemrangeCache.uncacheAt allocptr size c i).range = c.range := by
  unfold MemrangeCache.uncacheAt
  split
  next hcond =>
    obtain ⟨hvalid, hwithin⟩ := Bool.and_eq_true_iff.mp hcond
    refine ⟨?_, range_cacheUnlink⟩
    have hunlinked := h.cacheUnlink ((h.isValid_iff h0 hle).mp hvalid)
    rw [h.nodup.erase_eq_filter] at hunlinked
    convert hunlinked.nextVictim i using 1
    refine List.filter_congr fun j _ => ?_
    by_cases hj : j = i
    · subst hj
      simp [show (c.range j).beginsWithin allocptr size = true from hwithin]
    · simp [beq_false_of_ne hj, bne]
  next hcond =>
    refine ⟨?_, rfl⟩
    convert h using 1
    refine List.filter_eq_self.mpr fun j hj => ?_
    by_contra hc
    simp only [Bool.not_eq_true', Bool.not_eq_false, Bool.and_eq_true, beq_iff_eq] at hc
    obtain ⟨rfl, hwithin⟩ := hc
    exact hcond (Bool.and_eq_true_iff.mpr ⟨(h.isValid_iff h0 hle).mpr hj, hwithin⟩)

theorem uncacheAt_foldl (allocptr size : Nat) {ks : List Nat}
    (hks : ∀ i ∈ ks, 0 < i ∧ i ≤ memrangeCacheMaxSize) :
    (ks.foldl (MemrangeCache.uncacheAt allocptr size) c).Chained
        (l.filter fun j => !(decide (j ∈ ks) && (c.range j).beginsWithin allocptr size))
      ∧ (ks.foldl (MemrangeCache.uncacheAt allocptr size) c).range = c.range := by
  induction ks generalizing c l with
  | nil => simpa using h
  | cons i ks ih =>
    obtain ⟨h0, hle⟩ := hks i (.head _)
    obtain ⟨hstep, hrange⟩ := h.uncacheAt allocptr size h0 hle
    have hrest := ih hstep fun j hj => hks j (.tail _ hj)
    rw [hrange, List.filter_filter] at hrest
    refine ⟨?_, hrest.2⟩
    rw [List.foldl_cons]
    convert hrest.1 using 3 with j
    by_cases hj : j = i
    · cases (c.range j).beginsWithin allocptr size <;> simp [hj]
    · simp [hj]

/-- `__liballocs_uncache_all` takes out the ranges that begin within the one passed in. -/
theorem uncacheAll (allocptr size : Nat) :
    ∃ l', (c.uncacheAll allocptr size).Chained l' ∧ l'.map (c.uncacheAll allocptr size).range
        = Lru.discard (Memrange.beginsWithin allocptr size) (l.map c.range) := by
  have hmem : ∀ i, i ∈ List.range' 1 (c.sizePlusOne - 1) ↔ 0 < i ∧ i ≤ memrangeCacheMaxSize :=
    fun i => by
      rw [h.size, List.mem_range'_1]
      omega
  obtain ⟨hall, hrange⟩ := h.uncacheAt_foldl allocptr size fun i hi => (hmem i).mp hi
  refine ⟨_, hall, ?_⟩
  rw [Lru.discard_map, MemrangeCache.uncacheAll, hrange, Lru.discard]
  refine congrArg _ (List.filter_congr fun j hj => ?_)
  simp [(hmem j).mpr ⟨h.pos hj, h.le hj⟩]

/-! ### Both ends -/

theorem reverse : Linked c.prev c.next 0 0 c.tailMru l.reverse := by
  obtain rfl | ⟨k, b, rfl⟩ := List.eq_nil_or_concat l
  · exact h.tail
  · have htail := h.tail
    have hrev := h.linked
    rw [List.concat_eq_append] at htail hrev ⊢
    have hnext : c.next b = 0 := hrev.next_eq
    rw [List.getLast?_concat] at htail
    have hback := hrev.reverse
    rw [hnext] at hback
    rw [htail, List.reverse_append]
    exact hback

end

end Chained

/-! ### Runs -/

/-- The operations of the cache. -/
inductive Op where
  | lookup (obj t requirePeriod : Nat)
  | lookupNotype (obj requirePeriod : Nat)
  | cacheWithType (m : Memrange)
  | uncacheAll (allocptr size : Nat)
deriving Repr

/-- An operation, with what a lookup finds. -/
def step (c : MemrangeCache) : Op → Option (Option Memrange × MemrangeCache)
  | .lookup obj t requirePeriod => do
    let (i, c) ← c.memrangeCacheLookup obj t requirePeriod
    return (if i = 0 then none else some (c.range i), c)
  | .lookupNotype obj requirePeriod => do
    let (i, c) ← c.memrangeCacheLookupNotype obj requirePeriod
    return (if i = 0 then none else some (c.range i), c)
  | .cacheWithType m => some (none, c.cacheWithType m)
  | .uncacheAll allocptr size => some (none, c.uncacheAll allocptr size)

/-- The operations one after the other, with what they find. -/
def run (c : MemrangeCache) : List Op → Option (List (Option Memrange) × MemrangeCache)
  | [] => some ([], c)
  | op :: ops => do
    let (r, c) ← c.step op
    let (rs, c) ← run c ops
    return (r :: rs, c)

/-- The same operation on a list of ranges, the most recently used in front. -/
def lruStep (ms : List Memrange) : Op → Option Memrange × List Memrange
  | .lookup obj t requirePeriod =>
    (ms.find? (Memrange.hit obj t requirePeriod),
      Lru.touch (Memrange.hit obj t requirePeriod) ms)
  | .lookupNotype obj requirePeriod =>
    (ms.find? (Memrange.hitNotype obj requirePeriod),
      Lru.touch (Memrange.hitNotype obj requirePeriod) ms)
  | .cacheWithType m => (none, Lru.push memrangeCacheMaxSize m ms)
  | .uncacheAll allocptr size => (none, Lru.discard (Memrange.beginsWithin allocptr size) ms)

/-- The same on the abstract cache. -/
def lruRun (ms : List Memrange) : List Op → List (Option Memrange) × List Memrange
  | [] => ([], ms)
  | op :: ops =>
    let (r, ms) := lruStep ms op
    let (rs, ms) := lruRun ms ops
    (r :: rs, ms)

/-- One operation on the cache is the operation on the list of what its slots hold. -/
theorem Chained.step (h : c.Chained l) (op : Op) :
    ∃ c' l', c.step op = some ((lruStep (l.map c.range) op).1, c') ∧ c'.Chained l'
      ∧ l'.map c'.range = (lruStep (l.map c.range) op).2 := by
  -- Both lookups are one, with different tests.
  have hlookup : ∀ hit : Memrange → Bool, ∃ c' l', (do
        let (i, c) ← c.lookupBy hit
        return (if i = 0 then none else some (c.range i), c) : Option (Option Memrange × _))
        = some ((l.map c.range).find? hit, c') ∧ c'.Chained l'
      ∧ l'.map c'.range = Lru.touch hit (l.map c.range) := by
    intro hit
    obtain ⟨i, c', hc', hfound, l', hl', hmap⟩ := h.lookupBy hit
    refine ⟨c', l', ?_, hl', hmap⟩
    rw [hc', ← hfound]
    rfl
  cases op with
  | lookup obj t requirePeriod => exact hlookup _
  | lookupNotype obj requirePeriod => exact hlookup _
  | cacheWithType m =>
    obtain ⟨l', hl', hmap⟩ := h.cacheWithType m
    exact ⟨_, l', rfl, hl', hmap⟩
  | uncacheAll allocptr size =>
    obtain ⟨l', hl', hmap⟩ := h.uncacheAll allocptr size
    exact ⟨_, l', rfl, hl', hmap⟩

theorem Chained.run (h : c.Chained l) (ops : List Op) :
    ∃ c' l', c.run ops = some ((lruRun (l.map c.range) ops).1, c') ∧ c'.Chained l'
      ∧ l'.map c'.range = (lruRun (l.map c.range) ops).2 := by
  induction ops generalizing c l with
  | nil => exact ⟨c, l, rfl, h, rfl⟩
  | cons op ops ih =>
    obtain ⟨c1, l1, hstep, hl1, hmap⟩ := h.step op
    obtain ⟨c2, l2, hrun, hl2, hmap2⟩ := ih hl1
    rw [hmap] at hrun hmap2
    refine ⟨c2, l2, ?_, hl2, hmap2⟩
    simp only [MemrangeCache.run, hstep, hrun, Option.bind_eq_bind, Option.bind_some]
    rfl

theorem Chained.mem_iff_isValid (h : c.Chained l) : i ∈ l ↔ 0 < i ∧ c.isValid i = true := by
  constructor
  · exact fun hi => ⟨h.pos hi, (h.isValid_iff (h.pos hi) (h.le hi)).mpr hi⟩
  · rintro ⟨h0, hv⟩
    by_cases h32 : i - 1 < 32
    · rw [isValid_eq h32] at hv
      exact (h.mem_iff i).mpr ⟨h0, hv⟩
    · rw [isValid, BitVec.shiftLeft_eq_zero (Nat.le_of_not_lt h32)] at hv
      simp at hv

/-- However the cache is used, the chain visits the valid slots once each from its head, and the other
way round from its tail, and what they hold, in that order, and what the lookups find is as on a list
with the most recently used range in front. -/
theorem run_lru (ops : List Op) :
    ∃ c l, run {} ops = some ((lruRun [] ops).1, c)
      ∧ walk c.next 0 memrangeCacheMaxSize c.headMru = some l
      ∧ walk c.prev 0 memrangeCacheMaxSize c.tailMru = some l.reverse
      ∧ l.Nodup ∧ (∀ i, i ∈ l ↔ 0 < i ∧ c.isValid i = true)
      ∧ l.map c.range = (lruRun [] ops).2 := by
  obtain ⟨c, l, hrun, hl, hmap⟩ := chained_empty.run ops
  refine ⟨c, l, hrun, hl.linked.walk_eq hl.length_le, ?_, hl.nodup,
    fun i => hl.mem_iff_isValid, hmap⟩
  exact hl.reverse.walk_eq (by rw [List.length_reverse]; exact hl.length_le)

/-- Was the range cached, and not removed since, by the operations, the last in front? -/
def Stands (m : Memrange) : List Op → Prop
  | [] => False
  | .cacheWithType m' :: ops => m = m' ∨ Stands m ops
  | .uncacheAll p n :: ops => !m.beginsWithin p n ∧ Stands m ops
  | _ :: ops => Stands m ops

variable {ms : List Memrange} {past : List Op}

theorem lruStep_stands (h : ∀ m ∈ ms, Stands m past) (op : Op) :
    (∀ m ∈ (lruStep ms op).1, m ∈ ms) ∧ ∀ m ∈ (lruStep ms op).2, Stands m (op :: past) := by
  cases op with
  | lookup | lookupNotype =>
    exact ⟨fun m => List.mem_of_find?_eq_some, fun m hm => h m (Lru.mem_of_mem_touch hm)⟩
  | cacheWithType m' => exact ⟨nofun, fun m hm => (Lru.mem_of_mem_push hm).imp_right (h m)⟩
  | uncacheAll p n => exact ⟨nofun, fun m hm => (List.mem_filter.mp hm).symm.imp_right (h m)⟩

theorem lruRun_stands {ops : List Op} {i : Nat} {m : Memrange} (h : ∀ m ∈ ms, Stands m past)
    (hm : (lruRun ms ops).1[i]? = some (some m)) : Stands m ((ops.take i).reverse ++ past) := by
  induction ops generalizing ms past i with
  | nil => simp [lruRun] at hm
  | cons op ops ih =>
    obtain ⟨hfound, hleft⟩ := lruStep_stands h op
    cases i with
    | zero => exact h m (hfound m (Option.some.inj hm))
    | succ i => simpa using ih hleft hm

/-- **A lookup finds only a range that was cached and was not removed since.** -/
theorem run_stands (ops : List Op) : ∃ rs c, run {} ops = some (rs, c)
    ∧ ∀ i m, rs[i]? = some (some m) → Stands m (ops.take i).reverse := by
  obtain ⟨c, -, hrun, -⟩ := chained_empty.run ops
  refine ⟨_, c, hrun, fun i m hm => ?_⟩
  simpa using lruRun_stands (show ∀ m ∈ [], Stands m [] from nofun) hm

end Liballocs.MemrangeCache
