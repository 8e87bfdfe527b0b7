/-
Which mappings share a sequence.

The comments of `augment_sequence` give three rules: never more than one file; the sequence is named
after its file; and anonymous mappings come at the end, guards apart.  A run carries along the request
behind each entry.  A call keeps the rules exactly if `Fine` holds, which the code does not check.
-/
import Liballocs.Proofs.Affected

namespace Liballocs

/-- The entry without its bounds. -/
def MappingEntry.unbounded (e : MappingEntry) : MappingEntry := { e with begin := 0, end_ := 0 }

/-- The entry may come before the other: of anonymous ones, only guards before a file's. -/
def MappingEntry.MayPrecede (e f : MappingEntry) : Prop :=
  e.isAnon = true → e.prot ≠ protNone → f.isAnon = true

instance (e f : MappingEntry) : Decidable (e.MayPrecede f) :=
  inferInstanceAs (Decidable (_ → _))

theorem MappingEntry.mayPrecede_self (e : MappingEntry) : e.MayPrecede e := fun h _ => h

namespace MappingSequence

variable {s s' : MappingSequence} {r : Mapping} {objectBelow : Nat → Nat}
  {pre mid post : List MappingEntry} {x y e : MappingEntry} {i j : Nat} {cs : List Call}

/-! ### The request behind each entry -/

/-- How many entries a call keeps before the new one, a split one's piece included. -/
def keptBelow (s : MappingSequence) (r : Mapping) : Nat :=
  if s.CleanExtension r then s.nused
  else match s.firstOverlapped r with
    | none => 0
    | some first => first + ((s.mappings first).begin != r.begin).toNat

/-- The first entry that a call keeps, or keeps a piece of, behind the new one. -/
def keptAbove (s : MappingSequence) (r : Mapping) : Nat :=
  if s.CleanExtension r then s.nused
  else match s.lastOverlapped r with
    | none => 0
    | some last => last + 1 - ((s.mappings last).end_ != r.end_).toNat

/-- A sequence with the request that each of its entries came from. -/
structure Traced where
  seq : MappingSequence := {}
  origins : List Mapping := []

/-- A call, with the run-time linker's answers at its time. -/
structure Call where
  objectBelow : Nat → Nat
  mapping : Mapping

namespace Traced

/-- The mapping is taken into the sequence. -/
def Accepts (st : Traced) (c : Call) : Prop :=
  ∃ seq, st.seq.augmentSequence c.objectBelow c.mapping = some (true, seq)

/-- A call of `augment_sequence`, with the mapping that each entry comes from. -/
def step (st : Traced) (c : Call) : Option Traced := do
  let (ok, seq) ← st.seq.augmentSequence c.objectBelow c.mapping
  if ok then
    return ⟨seq, st.origins.take (st.seq.keptBelow c.mapping)
      ++ c.mapping :: st.origins.drop (st.seq.keptAbove c.mapping)⟩
  else return ⟨seq, st.origins⟩

/-- The calls one after the other, the last one first in the list. -/
def run : List Call → Option Traced
  | [] => some {}
  | c :: cs => (run cs).bind fun st => st.step c

/-- Each entry says what its request said, but for the bounds. -/
def ComesFrom (st : Traced) : Prop :=
  st.seq.entries.map MappingEntry.unbounded = st.origins.map fun o => o.entry.unbounded

/-- The invariant of grouping: the entries with a file all have that of the sequence, and they
precede the anonymous ones. -/
structure Grouped (st : Traced) : Prop where
  one_file : ∀ o ∈ st.origins, o.filename.isSome → o.filename = st.seq.filename
  anonymous_last : st.seq.entries.Pairwise MappingEntry.MayPrecede

end Traced

/-- What the code would have to check of a request. -/
def Fine (s : MappingSequence) (r : Mapping) : Prop :=
  if s.CleanExtension r then
    r.filename.isSome → ∀ e ∈ s.entries, e.isAnon = true → e.prot = protNone
  else
    (r.filename.isSome → s.filename.isSome)
    ∧ (r.filename.isNone → r.prot ≠ protNone → ∀ last, s.lastOverlapped r = some last →
      ∀ e ∈ s.entries.drop (last + 1), e.isAnon = true)

instance (s : MappingSequence) (r : Mapping) : Decidable (s.Fine r) :=
  inferInstanceAs (Decidable (ite _ _ _))

/-! ### What a call does to the entries, bounds apart -/

section

variable (h : Affected s r pre mid post x y)
include h

theorem Affected.keptBelow_eq (hclean : ¬ s.CleanExtension r) :
    s.keptBelow r = pre.length + (x.begin != r.begin).toNat := by
  rw [keptBelow, if_neg hclean, h.first]
  simp [h.mappings_first]

theorem Affected.keptAbove_eq (hclean : ¬ s.CleanExtension r) :
    s.keptAbove r = pre.length + mid.length - (y.end_ != r.end_).toNat := by
  have hpos := h.mid_length_pos
  rw [keptAbove, if_neg hclean, h.last]
  simp only [h.mappings_last]
  rw [Nat.sub_add_cancel (by omega)]

theorem Affected.take_eq (p : Bool) :
    s.entries.take (pre.length + p.toNat) = pre ++ if p then [x] else [] := by
  obtain ⟨ms, rfl⟩ := List.head?_eq_some_iff.mp h.head
  rw [h.entries, List.take_length_add_append]
  cases p <;> rfl

theorem Affected.drop_eq (q : Bool) :
    s.entries.drop (pre.length + mid.length - q.toNat) = (if q then [y] else []) ++ post := by
  obtain ⟨init, rfl, hE⟩ := exists_init h.entries h.getLast
  rw [hE]
  cases q with
  | true =>
    rw [List.drop_left' (by simp)]
    rfl
  | false =>
    rw [List.append_cons (pre ++ init), List.drop_left' (by simp)]
    rfl

end

/-- Bounds apart, a call keeps a front and a back and puts the new entry between. -/
theorem Augmented.map_unbounded (h : Augmented objectBelow s r s') :
    s'.entries.map MappingEntry.unbounded
      = (s.entries.take (s.keptBelow r)).map MappingEntry.unbounded
        ++ r.entry.unbounded :: (s.entries.drop (s.keptAbove r)).map MappingEntry.unbounded := by
  cases h with
  | extended hclean hbegin hroom hname =>
    have hbelow : s.keptBelow r = s.entries.length := by
      rw [keptBelow, if_pos hclean, length_entries]
    have habove : s.keptAbove r = s.entries.length := by
      rw [keptAbove, if_pos hclean, length_entries]
    rw [hbelow, habove, List.take_length, List.drop_length, entries_extend, List.map_append]
    rfl
  | overlapped hclean hbegin ho =>
    have ha := ho.affected
    rw [ha.keptBelow_eq hclean, ha.keptAbove_eq hclean, ha.take_eq, ha.drop_eq, ho.left]
    simp only [List.map_append, List.map_cons, apply_ite (List.map MappingEntry.unbounded)]
    rfl

theorem Augmented.keptBelow_le (h : Augmented objectBelow s r s') :
    s.keptBelow r ≤ s.keptAbove r + 1 := by
  cases h with
  | extended hclean hbegin hroom hname =>
    rw [keptBelow, keptAbove, if_pos hclean, if_pos hclean]
    omega
  | @overlapped _ pre mid post x y hclean hbegin ho =>
    have hpos := ho.affected.mid_length_pos
    have hp := Bool.toNat_le (x.begin != r.begin)
    have hq := Bool.toNat_le (y.end_ != r.end_)
    rw [ho.affected.keptBelow_eq hclean, ho.affected.keptAbove_eq hclean]
    omega

/-! ### The order of the entries -/

theorem pairwise_take_drop {l : List MappingEntry} (h : l.Pairwise MappingEntry.MayPrecede)
    (hij : i ≤ j + 1) : ∀ e ∈ l.take i, ∀ f ∈ l.drop j, e.MayPrecede f := by
  intro e he f hf
  obtain ⟨m, hm⟩ := List.mem_iff_getElem?.mp he
  obtain ⟨n, hn⟩ := List.mem_iff_getElem?.mp hf
  rw [List.getElem?_take] at hm
  rw [List.getElem?_drop] at hn
  split at hm
  · rename_i hlt
    obtain ⟨hml, rfl⟩ := List.getElem?_eq_some_iff.mp hm
    obtain ⟨hnl, rfl⟩ := List.getElem?_eq_some_iff.mp hn
    rcases Nat.lt_or_eq_of_le (show m ≤ j + n by omega) with hlt | rfl
    · exact List.pairwise_iff_getElem.mp h m (j + n) hml hnl hlt
    · exact MappingEntry.mayPrecede_self _
  · cases hm

/-- The order is kept exactly if the new entry may come where it is put. -/
theorem Augmented.pairwise_iff (h : Augmented objectBelow s r s')
    (hp : s.entries.Pairwise MappingEntry.MayPrecede) :
    s'.entries.Pairwise MappingEntry.MayPrecede
      ↔ (∀ e ∈ s.entries.take (s.keptBelow r), e.MayPrecede r.entry)
        ∧ ∀ e ∈ s.entries.drop (s.keptAbove r), r.entry.MayPrecede e := by
  have hmap : ∀ l : List MappingEntry, (l.map MappingEntry.unbounded).Pairwise
      MappingEntry.MayPrecede ↔ l.Pairwise MappingEntry.MayPrecede := fun l => List.pairwise_map
  have hlist : s'.entries.map MappingEntry.unbounded
      = (s.entries.take (s.keptBelow r) ++ r.entry :: s.entries.drop (s.keptAbove r)).map
        MappingEntry.unbounded := by
    rw [h.map_unbounded, List.map_append, List.map_cons]
  have hcross := pairwise_take_drop hp h.keptBelow_le
  rw [← hmap, hlist, hmap, List.pairwise_append, List.pairwise_cons]
  constructor
  · intro ⟨_, ⟨hbehind, _⟩, hfront⟩
    exact ⟨fun e he => hfront e he _ (.head _), hbehind⟩
  · intro ⟨hfront, hbehind⟩
    refine ⟨hp.sublist (List.take_sublist _ _), ⟨hbehind, hp.sublist (List.drop_sublist _ _)⟩, ?_⟩
    intro e he f hf
    rcases List.mem_cons.mp hf with rfl | hf
    · exact hfront e he
    · exact hcross e he f hf

/-! ### What the tests say -/

section

variable (h : Overlapped objectBelow s r s' pre mid post x y)
include h

theorem Overlapped.nused_pos : 0 < s.nused := by
  have hpos := h.affected.mid_length_pos
  have hlen := congrArg List.length h.affected.entries
  rw [length_entries, List.length_append, List.length_append] at hlen
  omega

/-- The tests of the overlap branch, unless request and sequence are anonymous. -/
theorem Overlapped.tests (hfile : r.filename.isSome ∨ s.filename.isSome) :
    (r.filename.isSome → s.filename.isSome → r.filename = s.filename)
      ∧ s.risingEdge r (precedingOverlap pre.length (x.begin != r.begin))
        (s.followingOverlap (pre.length + mid.length - 1) (y.end_ != r.end_)) = false := by
  have hc := h.consistent
  have hpos := h.nused_pos
  have hanon : ((r.filename.isNone && s.filename.isNone) || s.nused == 0) = false := by
    rw [Bool.or_eq_false_iff, Bool.and_eq_false_iff, beq_eq_false_iff_ne,
      ← Bool.not_eq_true, ← Bool.not_eq_true, Option.isNone_iff_eq_none, Option.isNone_iff_eq_none,
      ← ne_eq, ← ne_eq, ← Option.isSome_iff_ne_none, ← Option.isSome_iff_ne_none]
    exact ⟨hfile, by omega⟩
  unfold overlapFilenameIsConsistent at hc
  rw [if_neg (by rw [hanon]; exact Bool.false_ne_true)] at hc
  split at hc
  · cases hc
  · rename_i hdiffer
    rw [Bool.and_eq_true, Bool.not_eq_true'] at hc
    refine ⟨?_, hc.1⟩
    intro h1 h2
    simpa [h1, h2] using hdiffer

theorem Overlapped.preceding (hfile : r.filename.isSome) {k : Nat}
    (hk : precedingOverlap pre.length (x.begin != r.begin) = some k) :
    (s.mappings k).isAnon = false := by
  have hrise := (h.tests (.inl hfile)).2
  rw [hk] at hrise
  unfold risingEdge at hrise
  rw [Bool.or_eq_false_iff] at hrise
  simpa [hfile] using hrise.1

theorem Overlapped.following (hanon : r.filename.isNone) (hfile : s.filename.isSome)
    (hq : (y.end_ != r.end_) = true) : y.isAnon = true := by
  have hrise := (h.tests (.inr hfile)).2
  have hlast := h.affected.mappings_last
  have hpos := h.affected.mid_length_pos
  have hlen := congrArg List.length h.affected.entries
  rw [length_entries, List.length_append, List.length_append] at hlen
  have hk : s.followingOverlap (pre.length + mid.length - 1) (y.end_ != r.end_)
      = some (pre.length + mid.length - 1) := by
    simp only [followingOverlap, hq, if_true]
    exact if_neg (by omega)
  rw [hk] at hrise
  unfold risingEdge at hrise
  rw [Bool.or_eq_false_iff] at hrise
  simpa [hanon, hlast] using hrise.2

theorem Overlapped.front_mayPrecede (hp : s.entries.Pairwise MappingEntry.MayPrecede) :
    ∀ e ∈ s.entries.take (pre.length + (x.begin != r.begin).toNat), e.MayPrecede r.entry := by
  intro e he hanon hprot
  show r.filename.isNone = true
  by_contra hfile
  rw [Option.isNone_iff_eq_none, ← ne_eq, ← Option.isSome_iff_ne_none] at hfile
  have hlen := congrArg List.length h.affected.entries
  have hmid := h.affected.mid_length_pos
  have hle := Bool.toNat_le (x.begin != r.begin)
  rw [length_entries, List.length_append, List.length_append] at hlen
  generalize hi : pre.length + (x.begin != r.begin).toNat = i at he
  have hpos : 0 < i := by
    rw [Nat.pos_iff_ne_zero]
    intro h0
    rw [h0, List.take_zero] at he
    cases he
  have hk : precedingOverlap pre.length (x.begin != r.begin) = some (i - 1) := by
    rw [← hi] at hpos ⊢
    generalize (x.begin != r.begin) = p at hpos ⊢
    cases p with
    | true => rfl
    | false => exact if_neg hpos.ne'
  have hmem : s.mappings (i - 1) ∈ s.entries.drop (i - 1) := by
    have hget := (entries_eq_iff.mp (rfl : s.entries = s.entries)).2 (i - 1)
      (by rw [length_entries]; omega)
    exact List.mem_of_getElem? (i := 0) (by rw [List.getElem?_drop, Nat.add_zero, hget])
  have hlast := pairwise_take_drop hp (by omega) e he _ hmem hanon hprot
  rw [h.preceding hfile hk] at hlast
  cases hlast

end

/-! ### One call -/

namespace Traced

variable {st st' : Traced} {c : Call}

/-- What holds of every state of a run, well grouped or not. -/
structure Reached (st : Traced) : Prop where
  comesFrom : st.ComesFrom
  le : st.seq.nused ≤ mappingSequenceMaxLen
  fresh : st.seq.nused = 0 → st.seq.filename = none

theorem reached_init : Reached {} := ⟨rfl, Nat.zero_le _, fun _ => rfl⟩

theorem step_cases (hle : st.seq.nused ≤ mappingSequenceMaxLen) (h : st.step c = some st') :
    (¬ st.Accepts c ∧ st' = st) ∨ st.Accepts c ∧ Augmented c.objectBelow st.seq c.mapping st'.seq
        ∧ st'.origins = st.origins.take (st.seq.keptBelow c.mapping)
          ++ c.mapping :: st.origins.drop (st.seq.keptAbove c.mapping) := by
  obtain ⟨⟨ok, seq⟩, hcall, hrest⟩ := Option.bind_eq_some_iff.mp h
  cases ok with
  | false =>
    obtain rfl : ⟨seq, st.origins⟩ = st' := Option.some.inj hrest
    have hseq : seq = st.seq := augmentSequence_false hcall
    refine .inl ⟨?_, by rw [hseq]⟩
    intro ⟨seq', hyes⟩
    rw [hcall] at hyes
    cases hyes
  | true =>
    obtain rfl := Option.some.inj hrest
    exact .inr ⟨⟨seq, hcall⟩, augmentSequence_augmented hle hcall, rfl⟩

theorem Reached.step (h : st.Reached) (hstep : st.step c = some st') : st'.Reached := by
  rcases step_cases h.le hstep with ⟨-, rfl⟩ | ⟨-, haug, horigins⟩
  · exact h
  have hcomes : st'.ComesFrom := by
    have hold : st.seq.entries.map MappingEntry.unbounded
      = st.origins.map fun o => o.entry.unbounded := h.comesFrom
    show st'.seq.entries.map MappingEntry.unbounded = st'.origins.map _
    rw [haug.map_unbounded, horigins, List.map_append, List.map_cons, List.map_take, List.map_drop,
      List.map_take, List.map_drop, hold]
  have hpos : 0 < st'.seq.nused := by
    have hlen := congrArg List.length haug.map_unbounded
    rw [List.length_map, length_entries, List.length_append, List.length_cons] at hlen
    omega
  refine ⟨hcomes, haug.nused_le h.le, ?_⟩
  intro h0
  omega

theorem Reached.exists_origin (h : st.Reached) (he : e ∈ st.seq.entries)
    (hfile : e.isAnon = false) : ∃ o ∈ st.origins, o.filename.isSome := by
  have hmem : e.unbounded ∈ st.origins.map fun o => o.entry.unbounded := by
    have hcomes : st.seq.entries.map MappingEntry.unbounded = _ := h.comesFrom
    rw [← hcomes]
    exact List.mem_map_of_mem he
  obtain ⟨o, ho, heq⟩ := List.mem_map.mp hmem
  refine ⟨o, ho, ?_⟩
  have hanon : o.filename.isNone = false := (congrArg MappingEntry.isAnon heq).trans hfile
  rw [Option.isSome_iff_ne_none]
  intro hnone
  rw [hnone] at hanon
  cases hanon

theorem Grouped.filename_isSome (hg : st.Grouped) (h : st.Reached) (he : e ∈ st.seq.entries)
    (hfile : e.isAnon = false) : st.seq.filename.isSome := by
  obtain ⟨o, ho, hsome⟩ := h.exists_origin he hfile
  rw [← hg.one_file o ho hsome]
  exact hsome

theorem mem_origins {o : Mapping} {l : List Mapping}
    (h : o ∈ l.take i ++ r :: l.drop j) : o ∈ l ∨ o = r := by
  rcases List.mem_append.mp h with h | h
  · exact .inl (List.mem_of_mem_take h)
  · rcases List.mem_cons.mp h with h | h
    · exact .inr h
    · exact .inl (List.mem_of_mem_drop h)

section

variable (hg : st.Grouped) (h : st.Reached)

include hg h

/-- An extension keeps the rules exactly if it puts no file behind anonymous memory. -/
theorem Grouped.extend_iff (hclean : st.seq.CleanExtension r)
    (hname : st.seq.extensionFilenameIsConsistent objectBelow r = true)
    (haug : Augmented objectBelow st.seq r (st.seq.extend r)) :
    Grouped ⟨st.seq.extend r, st.origins.take i ++ r :: st.origins.drop j⟩ ↔ st.seq.Fine r := by
  have hone : ∀ o ∈ st.origins.take i ++ r :: st.origins.drop j, o.filename.isSome →
      o.filename = (st.seq.extend r).filename := by
    intro o ho hsome
    show o.filename = if st.seq.filename.isNone then r.filename else st.seq.filename
    rcases mem_origins ho with hold | rfl
    · have heq := hg.one_file o hold hsome
      rw [if_neg, heq]
      rw [← heq, Option.isNone_iff_eq_none, ← ne_eq, ← Option.isSome_iff_ne_none]
      exact hsome
    · split
      · rfl
      · rename_i hsome'
        unfold extensionFilenameIsConsistent at hname
        have hne : st.seq.nused ≠ 0 := by
          intro h0
          rw [h.fresh h0] at hsome'
          exact hsome' rfl
        have hnone : o.filename.isNone = false := by simpa using hsome
        simp only [hnone, hsome, Bool.false_and, Bool.and_false, Bool.false_or, Bool.true_and,
          beq_eq_false_iff_ne.mpr hne, Bool.and_eq_true, beq_iff_eq] at hname
        exact hname.2
  have hbelow : st.seq.entries.take (st.seq.keptBelow r) = st.seq.entries := by
    rw [keptBelow, if_pos hclean, ← length_entries, List.take_length]
  have habove : st.seq.entries.drop (st.seq.keptAbove r) = [] := by
    rw [keptAbove, if_pos hclean, ← length_entries, List.drop_length]
  have hpair := haug.pairwise_iff hg.anonymous_last
  rw [hbelow, habove] at hpair
  rw [Fine, if_pos hclean]
  constructor
  · intro hg' hfile e he hanon
    by_contra hprot
    have hr : r.filename.isNone = true := (hpair.mp hg'.anonymous_last).1 e he hanon hprot
    rw [Option.isNone_iff_eq_none] at hr
    rw [hr] at hfile
    cases hfile
  · intro hfine
    refine ⟨hone, hpair.mpr ⟨?_, by simp⟩⟩
    intro e he hanon hprot
    show r.filename.isNone = true
    by_contra hsome
    rw [Option.isNone_iff_eq_none, ← ne_eq, ← Option.isSome_iff_ne_none] at hsome
    exact hprot (hfine hsome e he hanon)

/-- An overlap keeps the rules exactly if it names a sequence with a name, and puts anonymous memory
before nothing of a file. -/
theorem Grouped.overlap_iff {s' : MappingSequence}
    {pre mid post : List MappingEntry} {x y : MappingEntry} (hclean : ¬ st.seq.CleanExtension r)
    (hbegin : st.seq.begin ≤ r.begin) (ho : Overlapped objectBelow st.seq r s' pre mid post x y) :
    Grouped ⟨s', st.origins.take i ++ r :: st.origins.drop j⟩ ↔ st.seq.Fine r := by
  have ha := ho.affected
  have hpos := ha.mid_length_pos
  have hname : s'.filename = st.seq.filename := (Prod.mk.inj (Prod.mk.inj ho.header).2).2
  have hpair := (Augmented.overlapped hclean hbegin ho).pairwise_iff hg.anonymous_last
  have hlast : pre.length + mid.length - 1 + 1 = pre.length + mid.length - Bool.false.toNat := by
    rw [Bool.toNat_false]
    omega
  have hbehind := ha.drop_eq false
  rw [ha.keptBelow_eq hclean, ha.take_eq, ha.keptAbove_eq hclean, ha.drop_eq] at hpair
  rw [Fine, if_neg hclean]
  constructor
  · intro hg'
    refine ⟨?_, ?_⟩
    · intro hfile
      have heq := hg'.one_file r (List.mem_append_right _ (.head _)) hfile
      rw [← hname]
      show s'.filename.isSome
      rw [← heq]
      exact hfile
    · intro hanon hprot last hl e he
      obtain rfl : pre.length + mid.length - 1 = last := Option.mem_unique ha.last hl
      rw [hlast, hbehind] at he
      exact (hpair.mp hg'.anonymous_last).2 e (List.mem_append_right _ he) hanon hprot
  · intro ⟨hnamed, hfree⟩
    refine ⟨?_, hpair.mpr ⟨?_, ?_⟩⟩
    · intro o hmem hsome
      show o.filename = s'.filename
      rw [hname]
      rcases mem_origins hmem with hold | rfl
      · exact hg.one_file o hold hsome
      · exact (ho.tests (.inl hsome)).1 hsome (hnamed hsome)
    · rw [← ha.take_eq]
      exact ho.front_mayPrecede hg.anonymous_last
    · intro e he hanon hprot
      rcases List.mem_append.mp he with hy | hpost
      · split at hy
        · rename_i hq
          obtain rfl := List.mem_singleton.mp hy
          by_contra hfile
          have hsome := hg.filename_isSome h ha.mem_getLast (by simpa using hfile)
          exact hfile (ho.following hanon hsome hq)
        · cases hy
      · exact hfree hanon hprot _ ha.last e (by rw [hlast, hbehind]; exact hpost)

/-- One accepted call keeps the rules exactly if the request is fine. -/
theorem Grouped.step_iff (hacc : st.Accepts c)
    (hstep : st.step c = some st') : st'.Grouped ↔ st.seq.Fine c.mapping := by
  rcases step_cases h.le hstep with ⟨hno, -⟩ | ⟨-, haug, horigins⟩
  · exact absurd hacc hno
  obtain ⟨s', origins⟩ := st'
  obtain rfl : origins = _ := horigins
  have haug' := haug
  cases haug with
  | extended hclean hbegin hroom hname => exact hg.extend_iff h hclean hname haug'
  | overlapped hclean hbegin ho => exact hg.overlap_iff h hclean hbegin ho

end

/-! ### Runs -/

theorem run_reached (h : run cs = some st) : st.Reached := by
  induction cs generalizing st with
  | nil =>
    obtain rfl : {} = st := Option.some.inj h
    exact reached_init
  | cons c cs ih =>
    obtain ⟨st0, h0, hstep⟩ := Option.bind_eq_some_iff.mp h
    exact (ih h0).step hstep

theorem grouped_init : Grouped {} := by
  refine ⟨?_, List.Pairwise.nil⟩
  intro o ho
  cases ho

theorem run_grouped (h : run cs = some st)
    (hfine : ∀ c cs', (c :: cs') <:+ cs → ∀ st0, run cs' = some st0 → st0.Accepts c →
      st0.seq.Fine c.mapping) : st.Grouped := by
  induction cs generalizing st with
  | nil =>
    obtain rfl : {} = st := Option.some.inj h
    exact grouped_init
  | cons c cs ih =>
    obtain ⟨st0, h0, hstep⟩ := Option.bind_eq_some_iff.mp h
    have hg0 : st0.Grouped := ih h0 fun d ds hds => hfine d ds (hds.trans (List.suffix_cons _ _))
    have hr0 := run_reached h0
    rcases step_cases hr0.le hstep with ⟨-, rfl⟩ | ⟨hacc, -⟩
    · exact hg0
    · exact (hg0.step_iff hr0 hacc hstep).mpr (hfine c cs (List.suffix_refl _) st0 h0 hacc)

/-- **Every state of a run is well grouped exactly if every accepted request is fine.**  The requests
are those the entries came from. -/
theorem run_grouped_iff (cs : List Call) :
    (∀ cs', cs' <:+ cs → ∀ st, run cs' = some st → st.ComesFrom)
      ∧ ((∀ cs', cs' <:+ cs → ∀ st, run cs' = some st → st.Grouped)
        ↔ ∀ c cs', (c :: cs') <:+ cs → ∀ st, run cs' = some st → st.Accepts c →
          st.seq.Fine c.mapping) := by
  refine ⟨fun cs' _ st h => (run_reached h).comesFrom, ?_⟩
  constructor
  · intro hall c cs' hsuffix st h hacc
    have hg := hall cs' ((List.suffix_cons _ _).trans hsuffix) st h
    obtain ⟨seq, hcall⟩ := hacc
    obtain ⟨st', hstep⟩ : ∃ st', st.step c = some st' := by
      rw [step, hcall]
      exact ⟨_, rfl⟩
    have hrun : run (c :: cs') = some st' := by
      rw [run, h]
      exact hstep
    exact (hg.step_iff (run_reached h) ⟨seq, hcall⟩ hstep).mp (hall _ hsuffix st' hrun)
  · intro hfine cs' hsuffix st h
    exact run_grouped h fun c ds hds => hfine c ds (hds.trans hsuffix)

/-- A page of a file, anonymous memory behind it, and another page of the file; and anonymous memory
over which pages of two files are mapped.  Every request is accepted. -/
theorem run_mixes :
    (∃ st, run [⟨id, ⟨12288, 16384, 1, 2, 8192, some "a", 0⟩⟩,
        ⟨id, ⟨8192, 12288, 3, 34, 0, none, 0⟩⟩, ⟨id, ⟨4096, 8192, 1, 2, 0, some "a", 0⟩⟩] = some st
      ∧ st.seq.nused = 3 ∧ ¬ st.Grouped)
    ∧ ∃ st, run [⟨id, ⟨8192, 12288, 1, 2, 0, some "b", 0⟩⟩,
        ⟨id, ⟨4096, 8192, 1, 2, 0, some "a", 0⟩⟩, ⟨id, ⟨4096, 20480, 3, 34, 0, none, 0⟩⟩] = some st
      ∧ st.origins.map Mapping.filename = [some "a", some "b", none] ∧ ¬ st.Grouped := by
  refine ⟨⟨_, rfl, rfl, ?_⟩, ⟨_, rfl, rfl, ?_⟩⟩
  · intro hg
    exact absurd hg.anonymous_last (by decide)
  · intro hg
    exact absurd hg.one_file (by decide)

/-- A file and its trailing anonymous memory. -/
theorem run_grouped_trailing :
    let cs : List Call := [⟨id, ⟨8192, 12288, 3, 34, 0, none, 0⟩⟩,
      ⟨id, ⟨4096, 8192, 1, 2, 0, some "a", 0⟩⟩]
    ∃ st, run cs = some st ∧ st.seq.nused = 2 ∧ st.Grouped := by
  intro cs
  refine ⟨_, rfl, rfl, ?_⟩
  refine (run_grouped_iff cs).2.mpr ?_ cs (List.suffix_refl _) _ rfl
  intro c cs' hsuffix st h _
  rcases List.suffix_cons_iff.mp hsuffix with heq | hsuffix
  · cases heq
    obtain rfl := Option.some.inj h
    decide
  rcases List.suffix_cons_iff.mp hsuffix with heq | hsuffix
  · cases heq
    obtain rfl := Option.some.inj h
    decide
  · exact absurd (List.suffix_nil.mp hsuffix) (List.cons_ne_nil _ _)

end Traced

end MappingSequence

end Liballocs
