/-
When the index of small objects stays inside its table.

A walk along a bucket ends at a null entry, which a full bucket has not.  If no bucket is full, the
checked functions are those of `GenericSmall.lean`; the object at the first byte of a full one cannot
be unindexed.
-/
import Liballocs.SmallAccess
import Liballocs.Proofs.GenericSmall

namespace Liballocs.ChunkRec

open SmallObject Columns

variable {env : Env} {begin ptr k j i : Nat} {must : Bool} {c : ChunkRec} {o o' : SmallObject}
  {e : Entry} {objs : List SmallObject} {l : List Entry}

/-- No entry of the bucket is null. -/
def Full (c : ChunkRec) (k : Nat) : Prop :=
  ∀ layer < 2 ^ c.logPitch, (c.metadataRecs (k + layer * c.rect.width)).isNull = false

instance (c : ChunkRec) (k : Nat) : Decidable (c.Full k) :=
  inferInstanceAs (Decidable (∀ layer < _, _))

/-- Every bucket has a null entry. -/
def NoneFull (c : ChunkRec) : Prop := ∀ k < c.rect.width, ¬ c.Full k

instance (c : ChunkRec) : Decidable c.NoneFull := inferInstanceAs (Decidable (∀ k < _, _))

/-! ### Full buckets -/

theorem IsChunk.read_eq (h : IsChunk env begin c) (hk : k < c.rect.width) {n : Nat}
    (hn : n < 2 ^ c.logPitch) :
    c.rect.read (k + n * c.rect.width) = c.metadataRecs (k + n * c.rect.width) := if_pos (h.room hk hn)

section

variable (h : Indexes env begin c objs)
include h

theorem Indexes.full_iff (hk : k < c.rect.width) :
    c.Full k ↔ (entriesOf begin c.logPitch objs k).length = 2 ^ c.logPitch := by
  obtain ⟨l, hl, hperm⟩ := h.columns k hk
  have hle := entriesOf_length_le (k := k) h.chunk.logPitch_le h.valid h.apart
  rw [← hperm.length_eq] at hle ⊢
  constructor
  · intro hfull
    by_contra hne
    have hlt : l.length < 2 ^ c.logPitch := by omega
    have hnull : (c.rect.read (k + l.length * c.rect.width)).isNull = true := hl.read_null
    rw [h.chunk.read_eq hk hlt, hfull l.length hlt] at hnull
    exact Bool.noConfusion hnull
  · intro hlen layer hlayer
    have hi : layer < l.length := hlen.symm ▸ hlayer
    rw [← h.chunk.read_eq hk hlayer, hl.read_eq hi]
    exact hl.not_null (List.getElem_mem hi)

theorem Indexes.noneFull_iff :
    c.NoneFull ↔
      ∀ k < c.rect.width, (entriesOf begin c.logPitch objs k).length < 2 ^ c.logPitch := by
  refine forall₂_congr fun k hk => ?_
  have hle := entriesOf_length_le (k := k) h.chunk.logPitch_le h.valid h.apart
  rw [h.full_iff hk]
  omega

theorem Indexes.perm_column (hk : k < c.rect.width)
    (hl : IsColumn Entry.isNull c.rect k l) : l.Perm (entriesOf begin c.logPitch objs k) := by
  obtain ⟨l', hl', hperm⟩ := h.columns k hk
  rw [hl.unique hl']
  exact hperm

theorem Indexes.room_below (hn : c.NoneFull) (hk : k < c.rect.width)
    (hl : IsColumn Entry.isNull c.rect k l) : k + l.length * c.rect.width < c.rect.size := by
  refine h.chunk.room hk ?_
  rw [(h.perm_column hk hl).length_eq]
  exact h.noneFull_iff.mp hn k hk

theorem Indexes.column_room (hn : c.NoneFull) (hk : k < c.rect.width) :
    ∃ l, IsColumn Entry.isNull c.rect k l ∧ k + l.length * c.rect.width < c.rect.size := by
  obtain ⟨l, hl, -⟩ := h.columns k hk
  exact ⟨l, hl, h.room_below hn hk hl⟩

/-- The first byte of a full bucket is in an object, which has an entry there. -/
theorem Indexes.exists_first (hk : k < c.rect.width) (hfull : c.Full k) :
    ∃ o ∈ objs, o.Contains (base begin c.logPitch k) ∧ (o.bucket begin c.logPitch = k
        ∨ o.bucket begin c.logPitch + 1 = k ∧ o.Spills begin c.logPitch) := by
  have hlp := h.chunk.logPitch_le
  have hnodup := entriesOf_offsets_nodup (k := k) hlp h.valid h.apart
  have hsub : (entriesOf begin c.logPitch objs k).map Entry.bucketOffset ⊆ List.range (2 ^ c.logPitch) :=
    entriesOf_offsets_subset hlp h.valid
  have hlen : (List.range (2 ^ c.logPitch)).length
      ≤ ((entriesOf begin c.logPitch objs k).map Entry.bucketOffset).length := by
    rw [List.length_map, List.length_range, (h.full_iff hk).mp hfull]
  have hperm := (hnodup.subperm hsub).perm_of_length_le hlen
  obtain ⟨e, he, h0⟩ := List.mem_map.mp (hperm.mem_iff.mpr (List.mem_range.mpr (pitch_pos c.logPitch)))
  rcases mem_entriesOf.mp he with ⟨o, ho, hok, rfl⟩ | ⟨o, ho, hok, hs, rfl⟩
  · have hbase := base_bucket c.logPitch (h.valid o ho).begin_le
    have hpos := (h.valid o ho).size_pos
    rw [startEntry_offset hlp (h.valid o ho)] at h0
    rw [hok, h0] at hbase
    exact ⟨o, ho, ⟨by omega, by simp only [end_]; omega⟩, .inl hok⟩
  · have hmem := (start_mem_bucket c.logPitch (h.valid o ho).begin_le).2
    rw [hok] at hmem
    have hend := hs
    simp only [Spills, hok] at hend
    exact ⟨o, ho, ⟨hmem.le, hend⟩, .inr ⟨hok, hs⟩⟩

end

/-! ### Lookups -/

/-- How the walk along a bucket ends at an entry, if it does. -/
def endsWith : Scan → Option Scan
  | .next => none
  | s => some s

theorem lookupBucket_eq_searchList (js : List Nat) :
    c.lookupBucket env begin ptr k must js
      = searchList (fun i => (c.lookupBucket env begin ptr k must [i]).map endsWith) .next js := by
  induction js with
  | nil => rfl
  | cons i js ih =>
    rw [searchList, ← ih]
    simp only [lookupBucket]
    split
    · cases c.getStartFromContinuation env begin k with
      | none => rfl
      | some r =>
        simp only [some_bind]
        split
        · rfl
        · split <;> rfl
    · split <;> rfl

theorem lookupCell?_eq (hstart : (c.rect.read i).isContinuation env = true →
      c.getStartFromContinuation? env begin k = c.getStartFromContinuation env begin k) :
    c.lookupCell? env begin ptr k must i
      = (c.lookupBucket env begin ptr k must [i]).map endsWith := by
  simp only [lookupCell?, lookupBucket]
  split
  · rename_i hcont
    rw [hstart hcont]
    cases c.getStartFromContinuation env begin k with
    | none => rfl
    | some r =>
      simp only [some_bind]
      split
      · rfl
      · split <;> rfl
  · split <;> rfl

theorem getStartFromContinuation?_eq_or (env : Env) (c : ChunkRec) (begin k : Nat) :
    c.getStartFromContinuation? env begin k = c.getStartFromContinuation env begin k
      ∨ c.getStartFromContinuation? env begin k = none := by
  rw [getStartFromContinuation?]
  cases c.rect.walk? Entry.isNull (k - 1) with
  | none => exact .inr rfl
  | some js => exact .inl rfl

theorem lookupCell?_sound {r : Option Scan} (hr : c.lookupCell? env begin ptr k must i = some r) :
    (c.lookupBucket env begin ptr k must [i]).map endsWith = some r := by
  rcases getStartFromContinuation?_eq_or env c begin k with hstart | hstart
  · rw [← hr, lookupCell?_eq fun _ => hstart]
  · by_cases hcont : (c.rect.read i).isContinuation env = true
    · simp [lookupCell?, hcont, hstart] at hr
    · rw [← hr, lookupCell?_eq fun hc => absurd hc hcont]

theorem cellsOf_eq_walk {r : Columns Entry} (hw : 0 < r.width)
    (hl : IsColumn Entry.isNull r k l) : r.cellsOf k l.length = r.walk Entry.isNull k :=
  (hl.walk_eq isNull_default hw).symm

section

variable (h : Indexes env begin c objs)
include h

theorem Indexes.getStartFromContinuation?_eq (hn : c.NoneFull) (hk : k < c.rect.width) :
    c.getStartFromContinuation? env begin k = c.getStartFromContinuation env begin k := by
  obtain ⟨l, hl, hroom⟩ := h.column_room hn ((Nat.sub_le k 1).trans_lt hk)
  rw [getStartFromContinuation?, hl.walk?_eq isNull_default (Nat.zero_lt_of_lt hk) hroom]
  rfl

theorem Indexes.lookupBucket?_eq (hn : c.NoneFull) (hk : k < c.rect.width) :
    c.lookupBucket? env begin ptr k must
      = c.lookupBucket env begin ptr k must (c.rect.walk Entry.isNull k) := by
  have hw := Nat.zero_lt_of_lt hk
  obtain ⟨l, hl, hroom⟩ := h.column_room hn hk
  rw [lookupBucket_eq_searchList, ← cellsOf_eq_walk hw hl]
  refine hl.searchFrom?_eq hroom (fun i _ => ?_)
    (Nat.lt_succ_of_le (hl.length_le isNull_default hw))
  exact lookupCell?_eq fun _ => h.getStartFromContinuation?_eq hn hk

theorem Indexes.lookupBucket?_sound (hk : k < c.rect.width) {r : Scan}
    (hr : c.lookupBucket? env begin ptr k must = some r) :
    c.lookupBucket env begin ptr k must (c.rect.walk Entry.isNull k) = some r := by
  obtain ⟨l, hl, -⟩ := h.columns k hk
  rw [lookupBucket_eq_searchList, ← cellsOf_eq_walk (Nat.zero_lt_of_lt hk) hl]
  exact hl.searchFrom?_sound (fun i _ r hr => lookupCell?_sound hr) hr

theorem Indexes.lookupFrom?_eq (hn : c.NoneFull) (earliest : Nat) :
    ∀ k must, k < c.rect.width →
      c.lookupFrom? env begin ptr earliest must k = c.lookupFrom env begin ptr earliest must k := by
  intro k
  induction k with
  | zero =>
    intro must hk
    rw [lookupFrom?, h.lookupBucket?_eq hn hk]
    cases hs : c.lookupBucket env begin ptr 0 must (c.rect.walk Entry.isNull 0) with
    | none => simp [lookupFrom, hs]
    | some s => cases s <;> simp [lookupFrom, hs]
  | succ k ih =>
    intro must hk
    rw [lookupFrom?, h.lookupBucket?_eq hn hk, ih true (Nat.lt_of_succ_lt hk)]
    cases hs : c.lookupBucket env begin ptr (k + 1) must (c.rect.walk Entry.isNull (k + 1)) with
    | none => simp [lookupFrom, hs]
    | some s => cases s <;> simp [lookupFrom, hs]

theorem Indexes.lookupFrom?_sound (earliest : Nat) :
    ∀ k must r, k < c.rect.width → c.lookupFrom? env begin ptr earliest must k = some r →
      c.lookupFrom env begin ptr earliest must k = some r := by
  intro k
  induction k with
  | zero =>
    intro must r hk hr
    rw [lookupFrom?] at hr
    obtain ⟨s, hs, hr⟩ := of_bind hr
    rw [lookupFrom, h.lookupBucket?_sound hk hs]
    exact hr
  | succ k ih =>
    intro must r hk hr
    rw [lookupFrom?] at hr
    obtain ⟨s, hs, hr⟩ := of_bind hr
    rw [lookupFrom, h.lookupBucket?_sound hk hs, some_bind]
    cases s with
    | hit f => exact hr
    | fail => exact hr
    | next =>
      dsimp only at hr ⊢
      split at hr
      · rename_i hcond
        rw [if_pos hcond]
        exact ih true r (Nat.lt_of_succ_lt hk) hr
      · rename_i hcond
        rw [if_neg hcond]
        exact hr

theorem Indexes.lookupSmallAlloc?_eq (hn : c.NoneFull) (h1 : begin ≤ ptr)
    (h2 : ptr < begin + c.powerOfTwoSize) :
    c.lookupSmallAlloc? env begin ptr = c.lookupSmallAlloc env begin ptr := by
  obtain ⟨hlt, hmod⟩ := h.chunk.bucket_lt h1 h2
  exact h.lookupFrom?_eq hn _ _ false (hmod.symm ▸ hlt)

theorem Indexes.lookupSmallAlloc?_sound (h1 : begin ≤ ptr) (h2 : ptr < begin + c.powerOfTwoSize)
    {r : Option Found} (hr : c.lookupSmallAlloc? env begin ptr = some r) :
    c.lookupSmallAlloc env begin ptr = some r := by
  obtain ⟨hlt, hmod⟩ := h.chunk.bucket_lt h1 h2
  exact h.lookupFrom?_sound _ _ false r (hmod.symm ▸ hlt) hr

end

/-! ### Unindexing -/

section

variable {r : Columns Entry} {l : List Entry}

section

variable (hw : 0 < c.rect.width) (hl : IsColumn Entry.isNull c.rect (j % c.rect.width) l)

include hw hl

theorem weAreBiggestOffset?_eq (hroom : j % c.rect.width + l.length * c.rect.width < c.rect.size) :
    c.weAreBiggestOffset? j = some (c.weAreBiggestOffset j) := by
  rw [weAreBiggestOffset, ← searchList_all, ← cellsOf_eq_walk hw hl]
  exact hl.searchFrom?_eq hroom (fun _ _ => rfl) (Nat.lt_succ_of_le (hl.length_le isNull_default hw))

theorem weAreBiggestOffset?_sound {b : Bool}
    (hb : c.weAreBiggestOffset? j = some b) : c.weAreBiggestOffset j = b := by
  refine Option.some.inj ?_
  rw [weAreBiggestOffset, ← searchList_all, ← cellsOf_eq_walk hw hl]
  exact hl.searchFrom?_sound (fun _ _ _ hr => hr) hb

end

section

variable (hw : 0 < r.width) (hl : IsColumn Entry.isNull r k l)

include hw hl

theorem findContinuation?_sound {x : Option Nat} (hx : findContinuation? env r k = some x) :
    (r.walk Entry.isNull k).find? (fun i => (r.read i).isContinuation env) = x := by
  refine Option.some.inj ?_
  rw [← searchList_find?, ← cellsOf_eq_walk hw hl]
  exact hl.searchFrom?_sound (fun _ _ _ hr => hr) hx

theorem removeContinuation?_eq (hroom : k + l.length * r.width < r.size) :
    removeContinuation? env r k = removeContinuation env r k := by
  have hfind? : findContinuation? env r k
      = some ((r.walk Entry.isNull k).find? fun i => (r.read i).isContinuation env) := by
    rw [← searchList_find?, ← cellsOf_eq_walk hw hl]
    exact hl.searchFrom?_eq hroom (fun _ _ => rfl) (Nat.lt_succ_of_le (hl.length_le isNull_default hw))
  rw [removeContinuation?, hfind?, removeContinuation]
  cases hfind : (r.walk Entry.isNull k).find? fun i => (r.read i).isContinuation env with
  | none => rfl
  | some i =>
    obtain ⟨p, hp, rfl, -⟩ :=
      (hl.mem_walk_iff isNull_default hw).mp (List.mem_of_find?_eq_some hfind)
    exact (hl.remove?_eq isNull_default hw hp).trans (if_pos hroom)

end

/-- The bucket after one, or the second layer of the first after the last, with the cell below it. -/
theorem IsChunk.next_room {E : Nat → List Entry} (h : IsChunk env begin c)
    (hw : r.width = c.rect.width) (hs : r.size = c.rect.size) (hholds : r.Holds Entry.isNull E)
    (hlen : ∀ m < c.rect.width, (E m).length < 2 ^ c.logPitch) (h2 : 1 < 2 ^ c.logPitch)
    (hk : k < c.rect.width) :
    ∃ l, IsColumn Entry.isNull r (k + 1) l ∧ k + 1 + l.length * r.width < r.size := by
  by_cases hk' : k + 1 < c.rect.width
  · obtain ⟨l, hl, hperm⟩ := hholds (k + 1) (hw.symm ▸ hk')
    refine ⟨l, hl, ?_⟩
    rw [hw, hs, hperm.length_eq]
    exact h.room hk' (hlen _ hk')
  · have h0 : 0 < c.rect.width := Nat.zero_lt_of_lt hk
    obtain ⟨l, hl, hperm⟩ := hholds 0 (hw.symm ▸ h0)
    have hlast : k + 1 = 0 + r.width := by omega
    have hlt := hlen 0 h0
    rw [← hperm.length_eq] at hlt
    refine ⟨l.tail, hlast ▸ hl.tail, ?_⟩
    rw [hlast, ← add_mul_width, hw, hs, List.length_tail]
    exact h.room h0 (by omega)

end

theorem Indexes.unindexSmallAllocInternalWithEnt?_eq (h : Indexes env begin c (o :: objs))
    (hn : c.NoneFull) (hj : IsEntryOf c begin o j) :
    c.unindexSmallAllocInternalWithEnt? env j = c.unindexSmallAllocInternalWithEnt env j := by
  have hk := h.bucket_lt (.head _)
  have hw := Nat.zero_lt_of_lt hk
  have hlen := h.noneFull_iff.mp hn
  obtain ⟨-, hmod⟩ := h.columns.read_mem isNull_default hk hj.1
  obtain ⟨l, hl, hroom⟩ := h.column_room hn hk
  obtain ⟨p, hp, hjp, -⟩ := (hl.mem_walk_iff isNull_default hw).mp hj.1
  obtain ⟨r1, hr1, hs1, hholds1⟩ := h.remove_start hj
  have hremove : c.rect.remove? Entry.isNull j = some r1 := by
    rw [← hr1, hjp]
    exact (hl.remove?_eq isNull_default hw hp).trans (if_pos hroom)
  have hbig := weAreBiggestOffset?_eq hw (hmod.symm ▸ hl) (hmod.symm ▸ hroom)
  have hlen1 : ∀ m < c.rect.width, (Function.update (entriesOf begin c.logPitch (o :: objs))
      (o.bucket begin c.logPitch)
      (entriesOf begin c.logPitch objs (o.bucket begin c.logPitch)) m).length < 2 ^ c.logPitch := by
    intro m hm
    have hlt := hlen m hm
    by_cases hmk : m = o.bucket begin c.logPitch
    · rw [hmk, Function.update_self]
      rw [hmk, entriesOf_cons, List.length_append] at hlt
      omega
    · rwa [Function.update_of_ne hmk]
  have h2 : 1 < 2 ^ c.logPitch := by
    have hlt := hlen _ hk
    rw [entriesOf_cons, entriesIn_start, List.length_append, List.length_singleton] at hlt
    omega
  obtain ⟨l', hl', hroom'⟩ := h.chunk.next_room hs1.width hs1.size hholds1 hlen1 h2 hk
  have hcont : removeContinuation? env r1 (o.bucket begin c.logPitch + 1)
      = removeContinuation env r1 (o.bucket begin c.logPitch + 1) :=
    removeContinuation?_eq (hs1.width.symm ▸ hw) hl' hroom'
  simp [unindexSmallAllocInternalWithEnt?, unindexSmallAllocInternalWithEnt, hbig, hremove, hr1,
    hmod, hcont, some_bind]

section

variable (h : Indexes env begin c objs)

include h

theorem Indexes.unindexSmallAllocInternal?_eq (hn : c.NoneFull)
    (ho : o ∈ objs) (hc : o.Shows begin c.logPitch ptr) :
    c.unindexSmallAllocInternal? env begin ptr = c.unindexSmallAllocInternal env begin ptr := by
  have h1 := (h.valid o ho).begin_le.trans hc.1.1
  have h2 := hc.1.2.trans_le (h.valid o ho).end_le
  obtain ⟨f, hf, -, hent⟩ := (h.lookupSmallAlloc_eq h1 h2).1 o ho hc
  have hwith := (h.perm (List.perm_cons_erase ho)).unindexSmallAllocInternalWithEnt?_eq hn hent
  simp [unindexSmallAllocInternal?, unindexSmallAllocInternal, h.lookupSmallAlloc?_eq hn h1 h2,
    hf, some_bind, hwith]

/-! ### Indexing -/

/-- A new object's buckets are not full, so indexing it stays in the table. -/
theorem Indexes.indexSmallAllocInternal?_eq
    (hv : o.Valid env begin c.powerOfTwoSize) (ha : ∀ o' ∈ objs, o.Apart o') :
    c.indexSmallAllocInternal? begin o.site o.start o.size
      = c.indexSmallAllocInternal begin o.site o.start o.size := by
  have hv' : o.Valid env begin (c.rect.width * 2 ^ c.logPitch) := by
    rw [h.chunk.width_eq.2.2]
    exact hv
  have hk := SmallObject.bucket_lt hv'
  have hw := Nat.zero_lt_of_lt hk
  have hroom := h.room_for hv ha hk (entriesIn_start begin c.logPitch o)
  obtain ⟨l, hl, hperm⟩ := h.columns _ hk
  have hfirst := hl.firstNull?_eq isNull_default hw (hperm.length_eq ▸ hroom)
  obtain ⟨r1, hr1, hw1, hs1, hholds1⟩ := h.columns.put isNull_default hk hroom
    (startEntry_isNull h.chunk.minimum h.chunk.logPitch_le hv)
  have hsecond : o.Spills begin c.logPitch →
      r1.firstNull? Entry.isNull (o.bucket begin c.logPitch + 1)
        = some (r1.firstNull Entry.isNull (o.bucket begin c.logPitch + 1)) := by
    intro hs
    have hk' := hs.bucket_lt hv'
    obtain ⟨l', hl', hperm'⟩ := hholds1 _ (hw1.symm ▸ hk')
    rw [Function.update_of_ne (Nat.succ_ne_self _)] at hperm'
    refine hl'.firstNull?_eq isNull_default (hw1.symm ▸ hw) ?_
    rw [hw1, hs1, hperm'.length_eq]
    exact h.room_for hv ha hk' (entriesIn_cont hs)
  have hrange : c.bucketRangeEnd begin (o.bucket begin c.logPitch) < o.start + o.size
      ↔ o.Spills begin c.logPitch := by
    rw [Spills, base_succ]
    rfl
  unfold startEntry offset firstSize at hr1
  unfold indexSmallAllocInternal? indexSmallAllocInternal
  rw [show memrectNbucketOf o.start begin c.logPitch = o.bucket begin c.logPitch from rfl]
  simp only [hfirst, hr1, Option.bind_eq_bind, Option.bind_some, hrange]
  split
  · rename_i hs
    simp [hsecond hs, Option.bind_some]
  · rfl

/-! ### The sanity check -/

theorem Indexes.checkBucketSanity?_eq (hn : c.NoneFull)
    (hk : k < c.rect.width) : c.checkBucketSanity? env begin k = some () := by
  have hw := Nat.zero_lt_of_lt hk
  obtain ⟨l, hl, hroom⟩ := h.column_room hn hk
  rw [← searchList_none () (c.rect.cellsOf k l.length)]
  refine hl.searchFrom?_eq hroom (fun i hi => ?_) (Nat.lt_succ_of_le (hl.length_le isNull_default hw))
  rw [cellsOf_eq_walk hw hl] at hi
  split
  · rename_i hcont
    obtain ⟨o, ho, rfl, hs, -⟩ := h.exists_spills (h.read_mem hk hi) hcont
    obtain ⟨j, -, hstart⟩ := h.getStartFromContinuation_eq ho hs
    rw [h.getStartFromContinuation?_eq hn hk, hstart]
    rfl
  · rfl

/-! ### A full bucket, and an object that does not show -/

/-- An object whose size is cut cannot be unindexed by its own address. -/
theorem Indexes.unindexSmallAllocInternal?_not_shown (ho : o ∈ objs)
    (hn : ¬ o.Shown begin c.logPitch) : c.unindexSmallAllocInternal? env begin o.start = none := by
  have hv := h.valid o ho
  have hc : o.Contains o.start := ⟨le_rfl, Nat.lt_add_of_pos_right hv.size_pos⟩
  have h2 := hc.2.trans_le hv.end_le
  refine Option.eq_none_iff_forall_not_mem.mpr fun c' hc' => ?_
  obtain ⟨r, hr, hc'⟩ := of_bind hc'
  have hsound := h.lookupSmallAlloc?_sound hv.begin_le h2 hr
  rw [h.lookupSmallAlloc_not_shown ho hn, Option.some.injEq] at hsound
  subst hsound
  simp at hc'


/-- An object with an entry in a full bucket cannot be unindexed. -/
theorem Indexes.unindexSmallAllocInternalWithEnt?_full
    (hk : k < c.rect.width) (hfull : c.Full k) (ho : o ∈ objs) (hj : IsEntryOf c begin o j)
    (hok : o.bucket begin c.logPitch = k
      ∨ o.bucket begin c.logPitch + 1 = k ∧ o.Spills begin c.logPitch) :
    c.unindexSmallAllocInternalWithEnt? env j = none := by
  have hw := Nat.zero_lt_of_lt hk
  have hb := h.bucket_lt ho
  obtain ⟨-, hmod⟩ := h.columns.read_mem isNull_default hb hj.1
  obtain ⟨l, hl, hperm⟩ := h.columns k hk
  have hnoroom : ¬ k + l.length * c.rect.width < c.rect.size := by
    obtain ⟨-, -, hsize⟩ := h.chunk.width_eq
    rw [hperm.length_eq, (h.full_iff hk).mp hfull, Nat.mul_comm, hsize]
    exact (Nat.le_add_left _ _).not_gt
  obtain ⟨l0, hl0, -⟩ := h.columns _ hb
  obtain ⟨p, hp, hjp, -⟩ := (hl0.mem_walk_iff isNull_default hw).mp hj.1
  refine Option.eq_none_iff_forall_not_mem.mpr fun c' hc' => ?_
  obtain ⟨big, hbig, hc'⟩ := of_bind hc'
  obtain ⟨r1, hr1, hc'⟩ := of_bind hc'
  rcases hok with rfl | ⟨hok, hs⟩
  · obtain ⟨q, hq, hjq, -⟩ := (hl.mem_walk_iff isNull_default hw).mp hj.1
    rw [hjq, hl.remove?_eq isNull_default hw hq, if_neg hnoroom] at hr1
    exact absurd hr1 (by simp)
  · obtain rfl : c.weAreBiggestOffset j = big := weAreBiggestOffset?_sound hw (hmod.symm ▸ hl0) hbig
    rw [h.weAreBiggestOffset_of_spills ho hj hs, hmod, hok, if_pos rfl] at hc'
    obtain ⟨r, hr, -⟩ := of_bind hc'
    obtain ⟨x, hx, hr⟩ := of_bind hr
    obtain ⟨r1', hr1', hs1, -⟩ := hl0.remove_eq isNull_default hw hp
    obtain rfl : r1' = r1 := by
      rw [hjp, hl0.remove?_eq isNull_default hw hp] at hr1
      split at hr1
      · exact Option.mem_unique hr1' hr1
      · exact absurd hr1 (by simp)
    have hl1 := hl.of_other hk hb (by omega) hs1
    have hw1 : 0 < r1'.width := hs1.width.symm ▸ hw
    have hfind := findContinuation?_sound hw1 hl1 hx
    have hmem : o.contEntry begin c.logPitch ∈ l := hperm.mem_iff.mpr (hok ▸ contEntry_mem ho hs)
    obtain ⟨q, hq, hlq⟩ := List.getElem_of_mem hmem
    cases x with
    | none =>
      have hread := hl1.read_eq hq
      have hno := List.find?_eq_none.mp hfind _
        ((hl1.mem_walk_iff isNull_default hw1).mpr ⟨q, hq, rfl, hread⟩)
      rw [hread, hlq, contEntry_isContinuation h.chunk.minimum (h.valid o ho)] at hno
      exact hno rfl
    | some i =>
      obtain ⟨q', hq', rfl, -⟩ :=
        (hl1.mem_walk_iff isNull_default hw1).mp (List.mem_of_find?_eq_some hfind)
      dsimp only at hr
      rw [hl1.remove?_eq isNull_default hw1 hq', hs1.width, hs1.size, if_neg hnoroom] at hr
      exact absurd hr (by simp)

/-- A lookup at the first byte of a full bucket fails, or its object cannot be unindexed. -/
theorem Indexes.lookupSmallAlloc?_full (hshown : ∀ o ∈ objs, o.Shown begin c.logPitch)
    (hk : k < c.rect.width) (hfull : c.Full k) :
    ∃ o ∈ objs, o.Contains (base begin c.logPitch k)
      ∧ ∀ r, c.lookupSmallAlloc? env begin (base begin c.logPitch k) = some r →
        ∃ f, r = some f ∧ c.unindexSmallAllocInternalWithEnt? env f.ent = none := by
  obtain ⟨o, ho, hc, hok⟩ := h.exists_first hk hfull
  have h1 := (h.valid o ho).begin_le.trans hc.1
  have h2 := hc.2.trans_le (h.valid o ho).end_le
  refine ⟨o, ho, hc, fun r hr => ?_⟩
  obtain ⟨f, hf, -, hent⟩ := (h.lookupSmallAlloc_shown hshown h1 h2).1 o ho hc
  have hsound := h.lookupSmallAlloc?_sound h1 h2 hr
  rw [hf] at hsound
  exact ⟨f, (Option.some.inj hsound).symm,
    h.unindexSmallAllocInternalWithEnt?_full hk hfull ho hent hok⟩

end

end Liballocs.ChunkRec
