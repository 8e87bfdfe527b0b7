/-
What a query says of the symbols of a file.

The record looked at is the last that begins at or below the address.  But the first address behind a
record is accepted too, and the size of a relocation's target has its address added to it.
-/
import Liballocs.Lib.Bsearch
import Liballocs.StaticSymbol

namespace Liballocs

open Bsearch (LastLe)

/-- The size that is recorded for a symbol or for the target of a relocation. -/
def SymOrRelocRec.size (file : SymbolTables) : SymOrRelocRec → Nat
  | .sym kind idx _ => (file.table kind idx).stSize
  | .reloc _ size => size

theorem SymOrRelocRec.limitVaddr_eq (file : SymbolTables) (r : SymOrRelocRec) :
    r.limitVaddr file = r.vaddr file + r.size file := by
  cases r <;> rfl

/-- The size is reported as recorded, but for a relocation's target not at zero. -/
theorem SymOrRelocRec.outSize_eq_iff {file : SymbolTables} {r : SymOrRelocRec} :
    r.outSize file = r.size file ↔ ∀ base size, r = .reloc base size → base = 0 := by
  cases r with
  | sym kind idx bits => exact iff_of_true rfl nofun
  | reloc base size =>
    simp only [outSize, SymOrRelocRec.size, reloc.injEq]
    constructor
    · rintro h _ _ ⟨rfl, -⟩
      omega
    · intro h
      rw [h base size ⟨rfl, rfl⟩, Nat.zero_add]

namespace StaticEnv

variable {env : StaticEnv} {segment obj i : Nat}

/-- A record of a segment's metavector. -/
def record (env : StaticEnv) (segment i : Nat) : SymOrRelocRec :=
  (env.segmentMetavector segment).getD i default

/-- The address in the file of a record. -/
def start (env : StaticEnv) (segment i : Nat) : Nat :=
  (env.record segment i).vaddr (env.segmentFile segment)

/-- Where the symbol or relocation of a record ends. -/
def limit (env : StaticEnv) (segment i : Nat) : Nat :=
  env.start segment i + (env.record segment i).size (env.segmentFile segment)

/-- The records of a segment are in order and do not overlap. -/
def Disjoint (env : StaticEnv) (segment : Nat) : Prop :=
  ∀ i j, i < j → j < (env.segmentMetavector segment).length →
    env.limit segment i ≤ env.start segment j

/-- The loaded address is in what a record describes. -/
def Contains (env : StaticEnv) (segment obj i : Nat) : Prop :=
  i < (env.segmentMetavector segment).length
  ∧ (env.segmentFile segment).lAddr + env.start segment i ≤ obj
  ∧ obj < (env.segmentFile segment).lAddr + env.limit segment i

/-- The record is the last that does not begin above the address. -/
def LooksAt (env : StaticEnv) (segment obj i : Nat) : Prop :=
  LastLe (env.start segment) (env.segmentMetavector segment).length
    (obj - (env.segmentFile segment).lAddr) i

/-- The query returns, has found a record exactly if the address is in it, and reports its start, size
and type. -/
def Answers (env : StaticEnv) (obj bigalloc : Nat) : Prop :=
  let segment := env.segmentBigalloc bigalloc
  let file := env.segmentFile segment
  ∃ res, env.getInfo obj (some bigalloc) = some res ∧ ∀ out, res = some out ↔
    ∃ i, env.Contains segment obj i ∧ out =
      { outType := (env.record segment i).outType env.pointerToUninterpretedByte
        outBase := file.lAddr + env.start segment i
        outSize := (env.record segment i).size file
        outSite := file.loadSite }

theorem Contains.looksAt (h : env.Contains segment obj i) (hd : env.Disjoint segment) :
    env.LooksAt segment obj i := by
  obtain ⟨hi, hle, hlt⟩ := h
  refine ⟨hi, by omega, fun j hij hj => ?_⟩
  have := hd i j hij hj
  omega

/-- The lookup gives the record looked at, unless it ends below the address. -/
theorem lookupIn_eq_some_iff {r : SymOrRelocRec} (hf : Bsearch.Finds env.bsearchLeq)
    (hd : env.Disjoint segment) :
    env.lookupIn segment obj = some r ↔ ∃ i, env.LooksAt segment obj i ∧ r = env.record segment i
      ∧ obj - (env.segmentFile segment).lAddr ≤ env.limit segment i := by
  have hsorted : Bsearch.Sorted (env.start segment) (env.segmentMetavector segment).length := by
    intro i j hij hj
    rcases Nat.lt_or_eq_of_le hij with hlt | rfl
    · exact (Nat.le_add_right _ _).trans (hd i j hlt hj)
    · exact le_rfl
  have hfinds : ∀ i, (if (env.segmentMetavector segment).length = 0 then none
      else env.bsearchLeq (env.start segment) (env.segmentMetavector segment).length
        (obj - (env.segmentFile segment).lAddr)) = some i ↔ env.LooksAt segment obj i := by
    intro i
    split
    · rename_i h0
      exact iff_of_false nofun fun h => absurd h.lt (h0 ▸ Nat.not_lt_zero i)
    · exact hf _ _ _ hsorted i
  unfold lookupIn
  simp only [Option.bind_eq_some_iff, SymOrRelocRec.limitVaddr_eq]
  refine exists_congr fun i => (and_congr_left fun _ => hfinds i).trans (and_congr_right fun hi => ?_)
  rw [Option.ite_none_left_eq_some, not_or, Nat.not_lt, and_iff_right hi.lt.ne, and_comm,
    Option.some_inj, eq_comm]
  exact Iff.rfl

theorem getInfo_some (env : StaticEnv) (obj bigalloc : Nat) :
    env.getInfo obj (some bigalloc) = some ((env.lookupIn (env.segmentBigalloc bigalloc) obj).map
        (env.outInfo (env.segmentBigalloc bigalloc))) := by
  change some (Option.map _ (Option.map _ _)) = _
  rw [Option.map_map]
  rfl

/-- **The query is right of an address** if and only if the last record at or below it does not end
there, and if it contains it is not the target of a relocation, other than one at zero. -/
theorem getInfo_answers_iff (env : StaticEnv) (obj bigalloc : Nat)
    (hf : Bsearch.Finds env.bsearchLeq) (hd : env.Disjoint (env.segmentBigalloc bigalloc))
    (hobj : (env.segmentFile (env.segmentBigalloc bigalloc)).lAddr ≤ obj) :
    env.Answers obj bigalloc ↔ ∀ i, env.LooksAt (env.segmentBigalloc bigalloc) obj i →
      obj ≠ (env.segmentFile (env.segmentBigalloc bigalloc)).lAddr
        + env.limit (env.segmentBigalloc bigalloc) i
      ∧ (env.Contains (env.segmentBigalloc bigalloc) obj i → ∀ base size,
        env.record (env.segmentBigalloc bigalloc) i = .reloc base size → base = 0) := by
  unfold Answers
  simp only [getInfo_some, Option.some_inj, exists_eq_left', Option.map_eq_some_iff]
  generalize env.segmentBigalloc bigalloc = segment at *
  simp only [lookupIn_eq_some_iff hf hd]
  constructor
  · intro hans i hi
    have hbegin := hi.le
    constructor
    · rintro hend
      obtain ⟨j, hj, -⟩ := (hans _).mp ⟨_, ⟨i, hi, rfl, by omega⟩, rfl⟩
      have heq := (hj.looksAt hd).unique hi
      obtain ⟨-, -, hlt⟩ := heq ▸ hj
      omega
    · intro hin
      obtain ⟨r, ⟨j, hj, rfl, -⟩, heq⟩ := (hans _).mpr ⟨i, hin, rfl⟩
      obtain rfl := hj.unique hi
      exact SymOrRelocRec.outSize_eq_iff.mp (congrArg StaticInfo.outSize heq)
  · intro hcond out
    constructor
    · rintro ⟨_, ⟨i, hi, rfl, hle⟩, rfl⟩
      obtain ⟨hend, hreloc⟩ := hcond i hi
      have hbegin := hi.le
      have hin : env.Contains segment obj i := ⟨hi.lt, by omega, by omega⟩
      refine ⟨i, hin, ?_⟩
      rw [← SymOrRelocRec.outSize_eq_iff.mpr (hreloc hin)]
      rfl
    · rintro ⟨i, hin, rfl⟩
      have hi := hin.looksAt hd
      obtain ⟨-, hreloc⟩ := hcond i hi
      obtain ⟨-, -, hlt⟩ := id hin
      refine ⟨_, ⟨i, hi, rfl, by omega⟩, ?_⟩
      rw [← SymOrRelocRec.outSize_eq_iff.mpr (hreloc hin)]
      rfl

/-- A file at 0x1000: a symbol of 8 bytes at 16, a gap, 4 bytes at 32 that relocations lead to, a
symbol at 36. -/
def sampleStatic : StaticEnv where
  table := {}
  metavector := fun _ => [.sym .dynsym 0 8, .reloc 32 4, .sym .extrasym 1 16]
  file := fun _ => { lAddr := 0x1000, table := fun _ i => ⟨16 + 20 * i, 8⟩ }
  bsearchLeq := Bsearch.lastLe
  pointerToUninterpretedByte := 64

theorem sampleStatic_disjoint : sampleStatic.Disjoint 1 := by
  have h : ∀ j < 3, ∀ i < j, sampleStatic.limit 1 i ≤ sampleStatic.start 1 j := by decide
  exact fun i j hij hj => h j hj i hij

/-- An address in the first symbol and one in the gap. -/
theorem getInfo_answers_sample : sampleStatic.Answers 0x1012 1 ∧ sampleStatic.Answers 0x101c 1 := by
  have hlook : ∀ x, Bsearch.lastLe (sampleStatic.start 1) 3 (x - 0x1000) = some 0 →
      ∀ i, sampleStatic.LooksAt 1 x i → i = 0 :=
    fun x hx i hi => hi.unique (Bsearch.lastLe_eq_some_iff.mp hx)
  constructor
  · refine (getInfo_answers_iff sampleStatic 0x1012 1 Bsearch.lastLe_finds sampleStatic_disjoint
      (by decide)).mpr fun i hi => ?_
    obtain rfl := hlook 0x1012 (by decide) i hi
    exact ⟨by decide, fun _ _ _ hr => nomatch hr⟩
  · refine (getInfo_answers_iff sampleStatic 0x101c 1 Bsearch.lastLe_finds sampleStatic_disjoint
      (by decide)).mpr fun i hi => ?_
    obtain rfl := hlook 0x101c (by decide) i hi
    exact ⟨by decide, fun _ _ _ hr => nomatch hr⟩

/-- **Three wrong answers**: the first address behind a symbol is said to be in it; four bytes at 32
are reported as 36; and a query without a bigalloc reads past the table. -/
theorem getInfo_answers_wrong :
    ((∀ i < 3, ¬ sampleStatic.Contains 1 0x1018 i)
      ∧ sampleStatic.getInfo 0x1018 (some 1) = some (some ⟨64, 0x1010, 8, 0⟩))
    ∧ (sampleStatic.Contains 1 0x1020 1 ∧ sampleStatic.record 1 1 = .reloc 32 4
      ∧ sampleStatic.getInfo 0x1020 (some 1) = some (some ⟨64, 0x1020, 36, 0⟩))
    ∧ sampleStatic.getInfo (nbigallocs * 4096) none = none := by
  unfold Contains
  decide

end StaticEnv

end Liballocs
