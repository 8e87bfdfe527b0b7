/-
Which frame an address is found in.

The table has where each interval starts and not where it ends, so a program counter between two has
the lower layout.  The walk skips a frame when the address is above the next frame's base pointer,
whatever that holds, and stops at the first frame above the address.
-/
import Liballocs.StackWalk
import Liballocs.Lib.Bsearch
import Liballocs.Proofs.FrameTypes
import Mathlib.Data.List.Pairwise

namespace Liballocs

/-! ### The layout of a program counter -/

section

variable {subps : List Subprogram} {vaddr : Nat}

/-- The interval has the address. -/
def FrameInterval.Contains (i : FrameInterval) (vaddr : Nat) : Prop :=
  i.lower ≤ vaddr ∧ vaddr < i.upper

/-- Two intervals do not overlap. -/
def PcsApart (p q : FrameInterval × Subprogram) : Prop :=
  p.1.upper ≤ q.1.lower ∨ q.1.upper ≤ p.1.lower

instance : Std.Symm PcsApart := ⟨fun _ _ => Or.symm⟩

/-- The answer is the layout of the interval with the address, and nothing without one. -/
structure RightLayout (subps : List Subprogram) (vaddr : Nat)
    (answer : Option FrameTypeName × Nat) : Prop where
  inside : ∀ p ∈ allIntervals subps, p.1.Contains vaddr →
    answer = (some (frameRecord p).uniqtype, (frameRecord p).offsetFromFrameBase)
  outside : (∀ p ∈ allIntervals subps, ¬ p.1.Contains vaddr) → answer = (none, 0)

/-- The search finds the last interval that starts at or below the address. -/
theorem bsearchLeq_frameVaddrs {bsearchLeq : (Nat → Nat) → Nat → Nat → Option Nat}
    (hf : Bsearch.Finds bsearchLeq) (subps : List Subprogram) (vaddr : Nat)
    {found : Option FrameAllocsiteEntry}
    (hfound : found = (bsearchLeq (fun i => ((frameVaddrs subps)[i]?.map (·.allocsiteVaddr)).getD 0)
      (frameVaddrs subps).length vaddr).bind ((frameVaddrs subps)[·]?)) :
    (found = none ∧ ∀ p ∈ allIntervals subps, vaddr < p.1.lower)
    ∨ ∃ p ∈ allIntervals subps, found = some (frameRecord p)
      ∧ p.1.lower ≤ vaddr ∧ ∀ q ∈ allIntervals subps, q.1.lower ≤ vaddr → q.1.lower ≤ p.1.lower := by
  let r := fun p q : FrameInterval × Subprogram => p.1.lower ≤ q.1.lower
  have hsorted := List.pairwise_insertionSort r (allIntervals subps)
  have hmem : ∀ p, p ∈ (allIntervals subps).insertionSort r ↔ p ∈ allIntervals subps := by simp
  rw [frameVaddrs] at hfound
  generalize (allIntervals subps).insertionSort r = table at hsorted hmem hfound
  set key := fun i : Nat => ((table.map frameRecord)[i]?.map FrameAllocsiteEntry.allocsiteVaddr).getD 0 with hkey
  have hat : ∀ i (hi : i < table.length), key i = table[i].1.lower := fun i hi => by
    simp [hkey, hi, frameRecord]
  have hmono : Bsearch.Sorted key table.length := fun i j hij hj => by
    rw [hat i (hij.trans_lt hj), hat j hj]
    exact hsorted.rel_get_of_le (a := ⟨i, hij.trans_lt hj⟩) (b := ⟨j, hj⟩) hij
  rw [List.length_map] at hfound
  cases hs : bsearchLeq key table.length vaddr with
  | none =>
    refine .inl ⟨by rw [hfound, hs]; rfl, fun p hp => lt_of_not_ge fun hle => ?_⟩
    obtain ⟨i, hi, rfl⟩ := List.mem_iff_getElem.mp ((hmem p).mpr hp)
    obtain ⟨m, hm⟩ := Bsearch.exists_lastLe hi ((hat i hi).trans_le hle)
    rw [(hf key _ vaddr hmono m).mpr hm] at hs
    cases hs
  | some m =>
    have hm := (hf key _ vaddr hmono m).mp hs
    have hm' : m < table.length := hm.lt
    refine .inr ⟨table[m], (hmem _).mp (List.getElem_mem hm'), ?_, hat m hm' ▸ hm.le, ?_⟩
    · rw [hfound, hs]
      simp [hm']
    · intro q hq hqle
      obtain ⟨i, hi, rfl⟩ := List.mem_iff_getElem.mp ((hmem q).mpr hq)
      have him : i ≤ m := le_of_not_gt fun hlt =>
        absurd (hat i hi ▸ hm.last i hlt hi) hqle.not_gt
      exact hat i hi ▸ hat m hm' ▸ hmono i m him hm'

/-- **The layout of a program counter is right** exactly if some interval contains it, or all lie
above it. -/
theorem pcToFrameUniqtype_right_iff (bsearchLeq : (Nat → Nat) → Nat → Nat → Option Nat)
    (hf : Bsearch.Finds bsearchLeq) (fileAt : Nat → Option FramesFile) (subps : List Subprogram)
    (pc : Nat) (file : FramesFile) (hfile : fileAt pc = some file)
    (hinfo : file.framesInfo = some (frameVaddrs subps))
    (hapart : (allIntervals subps).Pairwise PcsApart) :
    RightLayout subps (file.targetVaddr pc) (pcToFrameUniqtype bsearchLeq fileAt pc)
      ↔ (∃ p ∈ allIntervals subps, p.1.Contains (file.targetVaddr pc))
        ∨ ∀ p ∈ allIntervals subps, file.targetVaddr pc < p.1.lower := by
  simp only [pcToFrameUniqtype, hfile, hinfo]
  generalize file.targetVaddr pc = vaddr
  rcases bsearchLeq_frameVaddrs hf subps vaddr rfl
    with ⟨hnone, habove⟩ | ⟨p, hp, hsome, hle, hlast⟩
  · rw [hnone]
    refine iff_of_true ⟨fun p hp hin => ?_, fun _ => rfl⟩ (.inr habove)
    exact absurd hin.1 (habove p hp).not_ge
  · rw [hsome]
    -- an interval that contains the address is the one that was found
    have hfound : ∀ q ∈ allIntervals subps, q.1.Contains vaddr → q = p := by
      intro q hq hin
      by_contra hne
      have hqp := hlast q hq hin.1
      have hlt := hin.2
      have hpos := p.1.lower_lt
      rcases hapart.forall hq hp hne with h | h <;> have := q.1.lower_lt <;> omega
    by_cases hin : p.1.Contains vaddr
    · refine iff_of_true ⟨fun q hq hq' => ?_, fun hout => absurd hin (hout p hp)⟩ (.inl ⟨p, hp, hin⟩)
      rw [hfound q hq hq']
    · have hout : ∀ q ∈ allIntervals subps, ¬ q.1.Contains vaddr := fun q hq hq' =>
        hin (hfound q hq hq' ▸ hq')
      refine iff_of_false (fun hright => ?_) fun hcond => ?_
      · cases hright.outside hout
      · rcases hcond with ⟨q, hq, hq'⟩ | habove
        · exact hout q hq hq'
        · exact absurd hle (habove p hp).not_ge

/-- A subprogram with a layout at 0x100 and, after a gap, another at 0x200. -/
def gappedSubprogram : Subprogram where
  name := 1
  intervals := [sampleInterval 0x100 0x120 [(-8, 8)] (by decide) (by decide),
    sampleInterval 0x200 0x240 [(-16, 8)] (by decide) (by decide)]

/-- A file with that subprogram, loaded at 0x1000. -/
def gappedFile (_ : Nat) : Option FramesFile := some ⟨0x1000, some (frameVaddrs [gappedSubprogram])⟩

theorem pcToFrameUniqtype_right_sample :
    RightLayout [gappedSubprogram] 0x210 (pcToFrameUniqtype Bsearch.lastLe gappedFile 0x1210) :=
  (pcToFrameUniqtype_right_iff Bsearch.lastLe Bsearch.lastLe_finds gappedFile [gappedSubprogram] 0x1210
    _ rfl rfl (by unfold PcsApart; decide)).mpr (.inl ⟨_, .tail _ (.head _), by decide, by decide⟩)

/-- **A program counter in a gap has the layout of the interval below**. -/
theorem pcToFrameUniqtype_gap :
    (∀ p ∈ allIntervals [gappedSubprogram], ¬ p.1.Contains 0x180)
    ∧ pcToFrameUniqtype Bsearch.lastLe gappedFile 0x1180 = (some ⟨1, 0x100, 0x120⟩, 16) := by
  unfold FrameInterval.Contains
  decide

end

/-! ### The walk -/

namespace UnwEnv

variable {env : UnwEnv} {obj : Nat} {ts : List WalkTurn}

/-- The extent of a frame's allocation, if the frame has a layout. -/
def extent (env : UnwEnv) (t : WalkTurn) : Option FrameInfo :=
  t.higher.bind fun higher => env.frameAllocation higher.1 t.ip

/-- All frames are searched for the one whose extent contains the address. -/
def exhaustive (env : UnwEnv) (obj : Nat) (ts : List WalkTurn) : Option FrameInfo :=
  (ts.filterMap env.extent).find? fun info => info.base ≤ obj ∧ obj < info.base + info.size

/-- The extents of the frames follow each other. -/
def Increasing (env : UnwEnv) (ts : List WalkTurn) : Prop :=
  (ts.filterMap env.extent).Pairwise fun info info' => info.base + info.size ≤ info'.base

/-- A frame with the address is not passed over, for the next one's base pointer. -/
def NotSkipped (env : UnwEnv) (obj : Nat) (t : WalkTurn) : Prop :=
  ∀ info ∈ env.extent t, info.base ≤ obj → obj < info.base + info.size →
    t.higher.all fun higher => higher.2.all (obj ≤ ·)

section

variable (habove : ∀ info ∈ ts.filterMap env.extent, obj < info.base)
include habove

theorem exhaustive_above : env.exhaustive obj ts = none := by
  refine List.find?_eq_none.mpr fun info hmem => ?_
  have hbase : ¬ info.base ≤ obj := (habove info hmem).not_ge
  simp [hbase]

theorem notSkipped_above : ∀ t ∈ ts, env.NotSkipped obj t := fun t ht info hinfo hle _ =>
  absurd hle (habove info (List.mem_filterMap.mpr ⟨t, ht, hinfo⟩)).not_ge

theorem walk_above : (env.walk obj ts).toOption = none := by
  induction ts with
  | nil => rfl
  | cons t rest ih =>
    have ih := ih fun info hmem => habove info
      ((List.Sublist.filterMap _ (List.sublist_cons_self t rest)).subset hmem)
    rw [walk]
    split
    · rfl
    · rename_i sp bp hhigher
      split
      · exact ih
      · split
        · exact ih
        · rename_i info halloc
          have hextent : env.extent t = some info := by rw [extent, hhigher]; exact halloc
          have hbase := habove info (List.mem_filterMap.mpr ⟨t, .head _, hextent⟩)
          rw [if_neg fun hin => absurd hin.1 hbase.not_ge, if_pos hbase]
          rfl

end

/-- By induction on the frames.  Those above the one with the address begin behind it. -/
theorem walk_eq_exhaustive_iff (hstep : ∀ t ∈ ts, t.higher.isSome) (hinc : env.Increasing ts) :
    (env.walk obj ts).toOption = env.exhaustive obj ts ↔ ∀ t ∈ ts, env.NotSkipped obj t := by
  induction ts with
  | nil => exact iff_of_true rfl (List.forall_mem_nil _)
  | cons t rest ih =>
    obtain ⟨⟨sp, bp⟩, hhigher⟩ := Option.isSome_iff_exists.mp (hstep t (.head _))
    have ih := ih (fun t ht => hstep t (.tail _ ht))
      (hinc.sublist (List.Sublist.filterMap _ (List.sublist_cons_self t rest)))
    have hextent : env.extent t = env.frameAllocation sp t.ip := by rw [extent, hhigher]; rfl
    simp only [walk, hhigher, List.forall_mem_cons]
    cases halloc : env.frameAllocation sp t.ip with
    | none =>
      have hskip : env.NotSkipped obj t := by simp [NotSkipped, hextent, halloc]
      simpa [exhaustive, hextent, halloc, hskip] using ih
    | some info =>
      rw [halloc] at hextent
      rw [Increasing, List.filterMap_cons_some hextent, List.pairwise_cons] at hinc
      by_cases hin : info.base ≤ obj ∧ obj < info.base + info.size
      · have habove : ∀ info' ∈ rest.filterMap env.extent, obj < info'.base := fun info' hmem =>
          hin.2.trans_le (hinc.1 info' hmem)
        have hfound : env.exhaustive obj (t :: rest) = some info := by
          simp [exhaustive, hextent, hin]
        rw [hfound]
        by_cases hbp : bp.any (· < obj)
        · refine iff_of_false ?_ fun hskip => ?_
          · rw [if_pos hbp, walk_above habove]
            simp
          · have hle := hskip.1 info hextent hin.1 hin.2
            cases bp with
            | none => simp at hbp
            | some v => simp [hhigher] at hle hbp; omega
        · refine iff_of_true ?_ ⟨fun info' hinfo' _ _ => ?_, notSkipped_above habove⟩
          · rw [if_neg hbp]
            simp [hin, Except.toOption]
          · cases bp with
            | none => simp [hhigher]
            | some v => simpa [hhigher] using hbp
      · have hskip : env.NotSkipped obj t := fun info' hinfo' h1 h2 => by
          obtain rfl : info = info' := Option.some.inj (hextent.symm.trans hinfo')
          exact absurd ⟨h1, h2⟩ hin
        have hrest : env.exhaustive obj (t :: rest) = env.exhaustive obj rest := by
          simp [exhaustive, hextent, hin]
        simp only [hrest, if_neg hin, hskip, true_and]
        split
        · exact ih
        · split
          · next hlt =>
            have habove : ∀ info' ∈ rest.filterMap env.extent, obj < info'.base := fun info' hmem => by
              have := hinc.1 info' hmem
              omega
            exact iff_of_true (exhaustive_above habove).symm (notSkipped_above habove)
          · exact ih

/-- **The walk answers as an exhaustive search does**, on frames with increasing extents that unwind
to the beginning, exactly if the frame with the address is not passed over. -/
theorem stackframeGetInfo_exhaustive_iff (env : UnwEnv) (obj : Nat) (frames : List UnwFrame)
    (hstep : ∀ t ∈ env.turns 0 false frames, t.higher.isSome)
    (hinc : env.Increasing (env.turns 0 false frames)) :
    (env.stackframeGetInfo obj frames).toOption = env.exhaustive obj (env.turns 0 false frames)
      ↔ ∀ t ∈ env.turns 0 false frames, env.NotSkipped obj t :=
  walk_eq_exhaustive_iff hstep hinc

end UnwEnv

/-- A stack of three frames, the middle one without a layout. -/
def sampleUnwEnv : UnwEnv where
  frameDesc := fun ip => if ip = 2 then (none, 0) else (some ⟨ip, 0, 0⟩, 0x40)
  posMaxoff := fun _ => 0x40
  mainBp := 0x2000
  beginningOfStack := 0x8000
  unwEnd := .top

/-- The frames, with the base pointer that is reported for the middle one. -/
def sampleFrames (bp : Nat) : List UnwFrame :=
  [⟨1, 0x1000, some 0x1000⟩, ⟨2, 0x1040, some bp⟩, ⟨3, 0x1080, none⟩]

theorem stackframeGetInfo_exhaustive_sample :
    (sampleUnwEnv.stackframeGetInfo 0x1020 (sampleFrames 0x1070)).toOption
      = sampleUnwEnv.exhaustive 0x1020 (sampleUnwEnv.turns 0 false (sampleFrames 0x1070)) :=
  (sampleUnwEnv.stackframeGetInfo_exhaustive_iff 0x1020 _ (by decide)
    (by unfold UnwEnv.Increasing; decide)).mpr (by unfold UnwEnv.NotSkipped; decide)

/-- **A low base pointer hides the frame below**: the address is in the innermost frame, above what is
reported as the next one's base pointer. -/
theorem stackframeGetInfo_skips :
    sampleUnwEnv.stackframeGetInfo 0x1020 (sampleFrames 0x1010) = .error .reachedHigherFrame
    ∧ sampleUnwEnv.exhaustive 0x1020 (sampleUnwEnv.turns 0 false (sampleFrames 0x1010))
      = some ⟨0x1000, ⟨1, 0, 0⟩, 1, 0x40⟩ := by decide

end Liballocs
