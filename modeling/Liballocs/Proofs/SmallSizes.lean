/-
The size that a lookup among small objects reports.

By its start entry an object is reported with the size of its part in the first bucket, and through its
continuation without a size.  So the size is right just if the object stays in one bucket.  An object
that fills a bucket of 256 bytes is not found at all: its size is cut to zero.
-/
import Liballocs.Proofs.SmallChunk

namespace Liballocs.ChunkRec

open SmallObject

variable {env : Env} {begin ptr k earliest : Nat} {c c' : ChunkRec} {o : SmallObject}
  {objs : List SmallObject} {f : Found} {must : Bool} {js : List Nat}

/-! ### How an object is found -/

/-- The result comes from a start entry, or through a continuation. -/
def HitIn (env : Env) (c : ChunkRec) (begin k : Nat) (js : List Nat) (f : Found) : Prop :=
  (∃ i ∈ js, f.ent = i ∧ f.outObjectSize = some (c.rect.read i).thisbucketSize
      ∧ 0 < (c.rect.read i).thisbucketSize)
    ∨ ((∃ i ∈ js, (c.rect.read i).isContinuation env = true) ∧ f.outObjectSize = none
      ∧ c.getStartFromContinuation env begin k = some (f.ent, f.outObjectStart))

theorem HitIn.cons {i : Nat} (h : HitIn env c begin k js f) : HitIn env c begin k (i :: js) f := by
  rcases h with ⟨j, hj, hf⟩ | ⟨⟨j, hj, hc⟩, hf⟩
  · exact .inl ⟨j, .tail _ hj, hf⟩
  · exact .inr ⟨⟨j, .tail _ hj, hc⟩, hf⟩

theorem lookupBucket_hit
    (h : c.lookupBucket env begin ptr k must js = some (.hit f)) : HitIn env c begin k js f := by
  induction js with
  | nil => simp [lookupBucket] at h
  | cons i js ih =>
    unfold lookupBucket at h
    dsimp only at h
    split at h
    · rename_i hcont
      obtain ⟨⟨ent, start⟩, hstart, h⟩ := of_bind h
      split at h
      · obtain rfl := Scan.hit.inj (Option.some.inj h)
        exact .inr ⟨⟨i, .head _, hcont⟩, rfl, hstart⟩
      · split at h
        · exact absurd (Option.some.inj h) (by simp)
        · exact (ih h).cons
    · split at h
      · rename_i hin
        obtain rfl := Scan.hit.inj (Option.some.inj h)
        exact .inl ⟨i, .head _, rfl, rfl, by omega⟩
      · exact (ih h).cons

theorem lookupFrom_hit (h : c.lookupFrom env begin ptr earliest must k = some (some f)) :
    ∃ m ≤ k, HitIn env c begin m (c.rect.walk Entry.isNull m) f := by
  induction k generalizing must with
  | zero =>
    unfold lookupFrom at h
    obtain ⟨r, hr, h⟩ := of_bind h
    cases r with
    | hit f' =>
      obtain rfl : f' = f := Option.some.inj (Option.some.inj h)
      exact ⟨0, le_rfl, lookupBucket_hit hr⟩
    | fail => exact absurd h (by simp)
    | next => exact absurd h (by simp)
  | succ k ih =>
    unfold lookupFrom at h
    obtain ⟨r, hr, h⟩ := of_bind h
    cases r with
    | hit f' =>
      obtain rfl : f' = f := Option.some.inj (Option.some.inj h)
      exact ⟨k + 1, le_rfl, lookupBucket_hit hr⟩
    | fail => exact absurd h (by simp)
    | next =>
      dsimp only at h
      split at h
      · obtain ⟨m, hm, hhit⟩ := ih h
        exact ⟨m, Nat.le_succ_of_le hm, hhit⟩
      · exact absurd h (by simp)

/-! ### What is reported -/

theorem firstSize_eq_iff (hlp : c.logPitch ≤ 8) (h : o.Valid env begin c.powerOfTwoSize) :
    o.firstSize begin c.logPitch = o.size ↔ ¬ o.Spills begin c.logPitch := by
  have hfirst := start_add_firstSize hlp h
  unfold Spills
  simp only [end_] at *
  omega

section

variable (h : Indexes env begin c objs) (ho : o ∈ objs)
  (hptr : begin ≤ ptr) (hend : ptr < begin + c.powerOfTwoSize)
  (hf : c.lookupSmallAlloc env begin ptr = some (some f)) (hfound : IsFound c begin o f)

include h ho hptr hend hf hfound

/-- The object was found by its start entry, or goes on into a second bucket without a size. -/
theorem Indexes.outObjectSize_cases :
    f.outObjectSize = some (o.firstSize begin c.logPitch)
      ∨ f.outObjectSize = none ∧ o.Spills begin c.logPitch := by
  obtain ⟨hw, hw32, hsize⟩ := h.chunk.width_eq
  have hbucket : memrectNbucketOf ptr begin c.logPitch < c.rect.width :=
    Nat.div_lt_of_lt_mul (by rw [Nat.mul_comm, hsize]; omega)
  obtain ⟨m, hm, hhit⟩ := lookupFrom_hit hf
  have hmw : m < c.rect.width := (Nat.le_trans hm (Nat.mod_le _ _)).trans_lt hbucket
  rcases hhit with ⟨i, -, hent, hout, hpos⟩ | ⟨⟨i, hi, hcont⟩, hout, hstart⟩
  · left
    rw [← hent, hfound.2.2, startEntry_eq h.chunk.logPitch_le (h.valid o ho)] at hout hpos
    rw [hout, Nat.mod_eq_of_lt (shown_of_mod_pos h.chunk.logPitch_le (h.valid o ho) hpos)]
  · right
    refine ⟨hout, ?_⟩
    obtain ⟨o', ho', hb, hs, -⟩ := h.exists_spills (h.read_mem hmw hi) hcont
    obtain ⟨j, -, hstart'⟩ := h.getStartFromContinuation_eq ho' hs
    rw [hb, hstart, Option.some.injEq, Prod.mk.injEq] at hstart'
    have hsame : o'.start = o.start := hstart'.2.symm.trans hfound.1
    have hpos := (h.valid o ho).size_pos
    have hpos' := (h.valid o' ho').size_pos
    have hself : o.Contains o.start := ⟨le_rfl, by simp only [end_]; omega⟩
    have heq : o = o' := h.eq_of_contains ho ho' hself ⟨by omega, by simp only [end_]; omega⟩
    rw [heq]
    exact hs

theorem Indexes.outObjectSize_iff : f.outObjectSize = some o.size ↔ ¬ o.Spills begin c.logPitch := by
  have hiff := firstSize_eq_iff h.chunk.logPitch_le (h.valid o ho)
  rcases h.outObjectSize_cases ho hptr hend hf hfound with hout | ⟨hout, hs⟩
  · rw [hout, Option.some.injEq]
    exact hiff
  · rw [hout]
    simp [hs]

end

section

variable (h : Indexes env begin c objs) (ho : o ∈ objs)

include h ho

/-- An object shows where a lookup of one of its addresses finds something, and is what is found. -/
theorem Indexes.isFound_of_lookup (hc : o.Contains ptr)
    (hf : c.lookupSmallAlloc env begin ptr = some (some f)) : IsFound c begin o f := by
  have hv := h.valid o ho
  obtain ⟨hfound, hnone⟩ := h.lookupSmallAlloc_eq (hv.begin_le.trans hc.1) (hc.2.trans_le hv.end_le)
  by_cases hs : o.Shows begin c.logPitch ptr
  · obtain ⟨f', hf', hfound⟩ := hfound o ho hs
    obtain rfl : f' = f := Option.some.inj (Option.mem_unique hf' hf)
    exact hfound
  · rw [hnone fun o' ho' hs' => hs (h.eq_of_contains ho' ho hs'.1 hc ▸ hs')] at hf
    exact absurd (Option.some.inj hf) (by simp)

/-- The lookups that find the object all write its size just if it stays in one bucket.  Where it goes
on, it is found at the first address of the second one. -/
theorem Indexes.forall_outObjectSize_iff :
    (∀ ptr, o.Contains ptr → ∀ f, c.lookupSmallAlloc env begin ptr = some (some f) →
      f.outObjectSize = some o.size) ↔ ¬ o.Spills begin c.logPitch := by
  have hv := h.valid o ho
  constructor
  · intro hall hs
    have hc : o.Contains (base begin c.logPitch (o.bucket begin c.logPitch + 1)) :=
      ⟨(start_mem_bucket c.logPitch hv.begin_le).2.le, hs⟩
    have h1 := hv.begin_le.trans hc.1
    have h2 := hc.2.trans_le hv.end_le
    obtain ⟨f, hf, hfound⟩ := (h.lookupSmallAlloc_eq h1 h2).1 o ho ⟨hc, .inr le_rfl⟩
    exact (h.outObjectSize_iff ho h1 h2 hf hfound).mp (hall _ hc f hf) hs
  · intro hs ptr hc f hf
    exact (h.outObjectSize_iff ho (hv.begin_le.trans hc.1) (hc.2.trans_le hv.end_le) hf
      (h.isFound_of_lookup ho hc hf)).mpr hs

theorem Indexes.forall_getInfo_iff :
    (∀ ptr oldSize, o.Contains ptr →
        c.getInfo env begin ptr oldSize = some (some (o.start, o.size)))
      ↔ ¬ o.Spills begin c.logPitch ∧ o.Shown begin c.logPitch := by
  have hv := h.valid o ho
  constructor
  · intro hall
    constructor
    · refine (h.forall_outObjectSize_iff ho).mp fun ptr hc f hf => ?_
      -- a size that is not written is whatever was there before
      have h0 := hall ptr 0 hc
      have h1 := hall ptr 1 hc
      simp only [getInfo, hf, some_bind, Option.map_some, Option.pure_def,
        Option.some.injEq, Prod.mk.injEq] at h0 h1
      cases hout : f.outObjectSize with
      | none =>
        rw [hout] at h0 h1
        exact absurd (h0.2.trans h1.2.symm) (by simp)
      | some n =>
        rw [hout] at h0
        exact congrArg some h0.2
    · by_contra hn
      have hc : o.Contains o.start := ⟨le_rfl, Nat.lt_add_of_pos_right hv.size_pos⟩
      have h0 := hall o.start 0 hc
      simp [getInfo, h.lookupSmallAlloc_not_shown ho hn] at h0
  · rintro ⟨hs, hshown⟩ ptr oldSize hc
    have h1 := hv.begin_le.trans hc.1
    have h2 := hc.2.trans_le hv.end_le
    obtain ⟨f, hf, hfound⟩ := (h.lookupSmallAlloc_eq h1 h2).1 o ho (hshown.shows hc)
    simp [getInfo, hf, hfound.1, (h.outObjectSize_iff ho h1 h2 hf hfound).mpr hs]

end

/-! ### Sequences of operations -/

/-- **The size is reported from everywhere in a live object just if it does not go on into a second
bucket**; and `get_info` finds it everywhere if it does not fill 256 bytes of its bucket either. -/
theorem lookupSmallAlloc_size_iff (env : Env) (begin : Nat) (c : ChunkRec) (es : List Event)
    (hchunk : IsChunk env begin c) (hfresh : c.Fresh)
    (hes : ValidEvents env begin c.powerOfTwoSize es) (hshown : ShownEvents begin c.logPitch es) :
    ∃ c', c.run env begin es = some c' ∧ ∀ o ∈ live es,
      ((∀ ptr, o.Contains ptr → ∀ f, c'.lookupSmallAlloc env begin ptr = some (some f) →
          f.outObjectSize = some o.size) ↔ ¬ o.Spills begin c.logPitch)
      ∧ ((∀ ptr oldSize, o.Contains ptr →
          c'.getInfo env begin ptr oldSize = some (some (o.start, o.size)))
        ↔ ¬ o.Spills begin c.logPitch ∧ o.Shown begin c.logPitch) := by
  obtain ⟨c', hrun, -, hpitch, hind⟩ := hchunk.run_indexes hfresh es hes hshown
  refine ⟨c', hrun, fun o ho => ?_⟩
  rw [← hpitch]
  exact ⟨hind.forall_outObjectSize_iff ho, hind.forall_getInfo_iff ho⟩

/-- The size of an object in one bucket, next to one that goes on. -/
theorem lookupSmallAlloc_size_sample : ∃ c,
    sampleChunkRec.run sampleSmallEnv 4194304 [.index sampleShort, .index sampleLong] = some c
      ∧ ∀ oldSize, c.getInfo sampleSmallEnv 4194304 4194306 oldSize = some (some (4194305, 2)) := by
  obtain ⟨c, hrun, hsizes⟩ := lookupSmallAlloc_size_iff sampleSmallEnv 4194304 sampleChunkRec _
    sampleChunkRec_isChunk sampleChunkRec_fresh sample_validEvents trivial
  refine ⟨c, hrun, fun oldSize => ?_⟩
  exact (hsizes sampleShort (.head _)).2.mpr (by decide) 4194306 oldSize
    (by unfold Contains; decide)

/-- An object that fills a bucket of 256 bytes. -/
def sampleFilling : SmallObject := { start := 4194304, size := 256, site := 5000000 }

/-- With a pitch of eight, the start entry of an object of 20 bytes has the size 5 and the
continuation writes none, and `get_info` gives the one or leaves what was there.  With a pitch of 256,
an object of 256 bytes is not found by its own address. -/
theorem lookupSmallAlloc_size_wrong : sampleFns.Lawful
    ∧ (∃ c, (makeSuballocatedChunk sampleFns 4096 8).run sampleSmallEnv 4194304
          [.index sampleLong] = some c
      ∧ sampleLong.size = 20
      ∧ c.lookupSmallAlloc sampleSmallEnv 4194304 4194307 = some (some ⟨0, 4194307, some 5⟩)
      ∧ c.lookupSmallAlloc sampleSmallEnv 4194304 4194320 = some (some ⟨0, 4194307, none⟩)
      ∧ c.getInfo sampleSmallEnv 4194304 4194307 0 = some (some (4194307, 5))
      ∧ c.getInfo sampleSmallEnv 4194304 4194320 0 = some (some (4194307, 0)))
    ∧ ∃ c, (makeSuballocatedChunk sampleFns 131072 300).run sampleSmallEnv 4194304
          [.index sampleFilling] = some c
      ∧ ¬ sampleFilling.Spills 4194304 8
      ∧ c.getInfo sampleSmallEnv 4194304 4194304 0 = some none := by
  rw [show makeSuballocatedChunk sampleFns 4096 8 = { powerOfTwoSize := 4096, logPitch := 3 } from rfl,
    show makeSuballocatedChunk sampleFns 131072 300 = { powerOfTwoSize := 2 ^ 17, logPitch := 8 }
      from rfl]
  refine ⟨sampleFns_lawful, ?_, ?_⟩ <;> decide +kernel

end Liballocs.ChunkRec
