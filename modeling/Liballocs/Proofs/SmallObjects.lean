/-
Small objects and the entries they have in the buckets of a chunk.

In one bucket the entries of objects that are apart have different offsets.  So a bucket never has more
entries than bytes, and an object that spills over has the biggest offset in its bucket.
-/
import Liballocs.GenericSmall
import Mathlib.Data.List.Pairwise
import Mathlib.Data.List.Perm.Subperm

namespace Liballocs

/-- An object that is indexed in a chunk, with the site that allocated it. -/
structure SmallObject where
  start : Nat
  size : Nat
  site : Nat
deriving DecidableEq

namespace SmallObject

/-- The address behind the last byte. -/
def end_ (o : SmallObject) : Nat := o.start + o.size

/-- The objects have no byte in common. -/
def Apart (o o' : SmallObject) : Prop := o.end_ ≤ o'.start ∨ o'.end_ ≤ o.start

/-- The address is that of one of the object's bytes. -/
def Contains (o : SmallObject) (ptr : Nat) : Prop := o.start ≤ ptr ∧ ptr < o.end_

section

variable (begin lp : Nat)

/-- The bucket the object starts in. -/
def bucket (o : SmallObject) : Nat := memrectNbucketOf o.start begin lp

/-- Where in its bucket the object starts. -/
def offset (o : SmallObject) : Nat := memrectBucketOffsetOfAddr o.start begin lp

/-- The first address of a bucket. -/
def base (k : Nat) : Nat := begin + k * 2 ^ lp

/-- The object goes on into the bucket after its first. -/
def Spills (o : SmallObject) : Prop := base begin lp (o.bucket begin lp + 1) < o.end_

instance (o : SmallObject) : Decidable (o.Spills begin lp) := inferInstanceAs (Decidable (_ < _))

/-- The size of the part in the first bucket. -/
def firstSize (o : SmallObject) : Nat := thisbucketSizeOf begin lp o.start o.size

/-- The entry in the bucket the object starts in. -/
def startEntry (o : SmallObject) : Entry :=
  .regularInitial o.site (o.offset begin lp) (o.firstSize begin lp)

/-- The entry in the bucket after that. -/
def contEntry (o : SmallObject) : Entry :=
  .continuation o.size (sizeInContinuationBucket lp (o.size - o.firstSize begin lp))

/-- The size of the part in the first bucket fits the eight bits that the start entry has for it. -/
def Shown (o : SmallObject) : Prop := o.firstSize begin lp < 2 ^ 8

instance (o : SmallObject) : Decidable (o.Shown begin lp) := inferInstanceAs (Decidable (_ < _))

/-- The object can be found by the address, which in the first bucket takes an uncut size. -/
def Shows (o : SmallObject) (ptr : Nat) : Prop :=
  o.Contains ptr ∧ (o.Shown begin lp ∨ base begin lp (o.bucket begin lp + 1) ≤ ptr)

/-- The entries of an object in a bucket. -/
def entriesIn (k : Nat) (o : SmallObject) : List Entry :=
  if o.bucket begin lp = k then [o.startEntry begin lp]
  else if o.bucket begin lp + 1 = k ∧ o.Spills begin lp then [o.contEntry begin lp] else []

/-- The entries of some objects in a bucket. -/
def entriesOf (objs : List SmallObject) (k : Nat) : List Entry :=
  objs.flatMap (entriesIn begin lp k)

end

variable {env : Env} {begin lp size k ptr n : Nat} {o o' : SmallObject} {e e' : Entry}
  {objs : List SmallObject}

/-- The object is inside the chunk at `begin`, under four megabytes, and its allocation site is a user
address. -/
structure Valid (env : Env) (begin size : Nat) (o : SmallObject) : Prop where
  size_pos : 0 < o.size
  size_lt : o.size < 2 ^ 22
  begin_le : begin ≤ o.start
  end_le : o.end_ ≤ begin + size
  site_ge : env.minimumUserAddress ≤ o.site
  site_lt : o.site < 2 ^ 47

/-! ### Buckets -/

theorem pitch_pos (lp : Nat) : 0 < 2 ^ lp := Nat.pow_pos (by decide)

theorem base_succ (begin lp k : Nat) : base begin lp (k + 1) = base begin lp k + 2 ^ lp := by
  simp only [base, Nat.add_mul, Nat.one_mul]
  omega

theorem base_mono (begin lp : Nat) {k k' : Nat} (h : k ≤ k') : base begin lp k ≤ base begin lp k' :=
  Nat.add_le_add_left (Nat.mul_le_mul_right _ h) _

theorem base_bucket_of (lp : Nat) (h : begin ≤ ptr) :
    base begin lp (memrectNbucketOf ptr begin lp) + memrectBucketOffsetOfAddr ptr begin lp = ptr := by
  have := Nat.div_add_mod' (ptr - begin) (2 ^ lp)
  simp only [base, memrectNbucketOf, memrectBucketOffsetOfAddr]
  omega

theorem bucketOffset_lt (begin lp ptr : Nat) : memrectBucketOffsetOfAddr ptr begin lp < 2 ^ lp :=
  Nat.mod_lt _ (pitch_pos lp)

theorem mem_bucket (lp : Nat) (h : begin ≤ ptr) :
    base begin lp (memrectNbucketOf ptr begin lp) ≤ ptr
      ∧ ptr < base begin lp (memrectNbucketOf ptr begin lp + 1) := by
  have h1 := base_bucket_of lp h
  have h2 := bucketOffset_lt begin lp ptr
  rw [base_succ]
  omega

theorem bucket_unique (h : begin ≤ ptr) (h1 : base begin lp k ≤ ptr)
    (h2 : ptr < base begin lp (k + 1)) : memrectNbucketOf ptr begin lp = k := by
  obtain ⟨h3, h4⟩ := mem_bucket lp h
  rcases Nat.lt_trichotomy (memrectNbucketOf ptr begin lp) k with hlt | heq | hlt
  · have := base_mono begin lp hlt
    rw [Nat.succ_eq_add_one] at this
    omega
  · exact heq
  · have := base_mono begin lp hlt
    rw [Nat.succ_eq_add_one] at this
    omega

theorem base_bucket (lp : Nat) (h : begin ≤ o.start) :
    base begin lp (o.bucket begin lp) + o.offset begin lp = o.start := base_bucket_of lp h

theorem start_mem_bucket (lp : Nat) (h : begin ≤ o.start) :
    base begin lp (o.bucket begin lp) ≤ o.start
      ∧ o.start < base begin lp (o.bucket begin lp + 1) := mem_bucket lp h

theorem offset_lt (begin lp : Nat) (o : SmallObject) : o.offset begin lp < 2 ^ lp := bucketOffset_lt _ _ _

theorem bucket_lt (h : o.Valid env begin (n * 2 ^ lp)) : o.bucket begin lp < n := by
  have h1 := h.size_pos
  have h2 := h.begin_le
  have h3 := h.end_le
  simp only [end_] at h3
  exact Nat.div_lt_of_lt_mul (by rw [Nat.mul_comm]; omega)

theorem Spills.bucket_lt (h : o.Valid env begin (n * 2 ^ lp)) (hs : o.Spills begin lp) :
    o.bucket begin lp + 1 < n := by
  by_contra hc
  have hmono := base_mono begin lp (Nat.le_of_not_lt hc)
  have hend := h.end_le
  simp only [Spills] at hs
  simp only [base] at hmono hs
  omega

/-! ### Entries -/

theorem pitch_le (h : lp ≤ 8) : 2 ^ lp ≤ 256 := Nat.pow_le_pow_right (by decide) h

section

variable (hlp : lp ≤ 8) (h : o.Valid env begin size)

include hlp h

theorem start_add_firstSize :
    o.start + o.firstSize begin lp = min o.end_ (base begin lp (o.bucket begin lp + 1)) := by
  have hp := pitch_le hlp
  have hbegin := h.begin_le
  have hoff := o.offset_lt begin lp
  have hbase := base_bucket lp hbegin
  have hsucc := base_succ begin lp (o.bucket begin lp)
  have hend : begin ≤ o.start + o.size := by omega
  simp only [firstSize, thisbucketSizeOf, end_]
  rw [show memrectNbucketOf o.start begin lp = o.bucket begin lp from rfl,
    show memrectBucketOffsetOfAddr o.start begin lp = o.offset begin lp from rfl]
  split
  · rename_i heq
    have hmem := (mem_bucket lp hend).2
    rw [heq] at hmem
    rw [Nat.mod_eq_of_lt (by omega)]
    omega
  · rename_i hne
    have hge : base begin lp (o.bucket begin lp + 1) ≤ o.start + o.size := by
      by_contra hc
      exact hne (bucket_unique hend (by omega) (by omega))
    rw [Nat.mod_eq_of_lt (by omega)]
    omega

theorem firstSize_le : o.firstSize begin lp ≤ 2 ^ lp := by
  have h1 := start_add_firstSize hlp h
  have h3 := base_succ begin lp (o.bucket begin lp)
  have h4 := base_bucket lp h.begin_le
  omega

/-- A size that is cut is cut to nothing. -/
theorem shown_of_mod_pos (hpos : 0 < o.firstSize begin lp % 2 ^ 8) : o.Shown begin lp := by
  have h1 := firstSize_le hlp h
  have h2 := pitch_le hlp
  unfold Shown
  omega

theorem startEntry_eq :
    o.startEntry begin lp = ⟨o.site, o.offset begin lp, o.firstSize begin lp % 2 ^ 8⟩ := by
  have h2 := o.offset_lt begin lp
  have h3 := pitch_le hlp
  simp only [startEntry, Entry.regularInitial, Nat.mod_eq_of_lt h.site_lt,
    Nat.mod_eq_of_lt (show o.offset begin lp < 2 ^ 8 by omega)]

end

/-- With a pitch of at most 128, no size is cut. -/
theorem Valid.shown (h : o.Valid env begin size) (hlp : lp ≤ 7) : o.Shown begin lp := by
  have h1 := firstSize_le (hlp.trans (by decide)) h
  have h2 : 2 ^ lp ≤ 128 := Nat.pow_le_pow_right (by decide) hlp
  unfold Shown
  omega

theorem Shown.shows (h : o.Shown begin lp) (hc : o.Contains ptr) : o.Shows begin lp ptr := ⟨hc, .inl h⟩

theorem startEntry_isNull (hmin : 2 ^ 22 ≤ env.minimumUserAddress) (hlp : lp ≤ 8)
    (h : o.Valid env begin size) : (o.startEntry begin lp).isNull = false := by
  have := h.site_ge
  rw [startEntry_eq hlp h]
  simp only [Entry.isNull, beq_eq_false_iff_ne]
  omega

theorem startEntry_isContinuation (hlp : lp ≤ 8) (h : o.Valid env begin size) :
    (o.startEntry begin lp).isContinuation env = false := by
  have := h.site_ge
  rw [startEntry_eq hlp h]
  simp only [Entry.isContinuation, Bool.and_eq_false_iff, decide_eq_false_iff_not]
  exact .inr (by omega)

theorem contEntry_discr (h : o.Valid env begin size) : (o.contEntry begin lp).discr = o.size :=
  Nat.mod_eq_of_lt h.size_lt

theorem contEntry_isNull (lp : Nat) (h : o.Valid env begin size) :
    (o.contEntry begin lp).isNull = false := by
  have := h.size_pos
  simp only [Entry.isNull, contEntry_discr h, beq_eq_false_iff_ne]
  omega

theorem contEntry_isContinuation (hmin : 2 ^ 22 ≤ env.minimumUserAddress)
    (h : o.Valid env begin size) : (o.contEntry begin lp).isContinuation env = true := by
  have h1 := h.size_pos
  have h2 := h.size_lt
  simp only [Entry.isContinuation, contEntry_discr h, Bool.and_eq_true, bne_iff_ne,
    decide_eq_true_eq]
  omega

theorem contEntry_size (h : o.Valid env begin size) :
    (o.contEntry begin lp).continuationSize = o.size := by
  rw [Entry.continuationSize, contEntry_discr h, Nat.mod_eq_of_lt h.size_lt]

/-! ### The entries of a bucket -/

theorem mem_entriesIn : e ∈ entriesIn begin lp k o ↔
    (o.bucket begin lp = k ∧ e = o.startEntry begin lp)
      ∨ (o.bucket begin lp + 1 = k ∧ o.Spills begin lp ∧ e = o.contEntry begin lp) := by
  unfold entriesIn
  split
  · rename_i hk
    simp [hk, show ∀ k, k + 1 ≠ k by omega]
  · rename_i hk
    split
    · rename_i hs
      simp [hk, hs]
    · rename_i hs
      simp only [List.not_mem_nil, hk, false_and, false_or, false_iff]
      exact fun hc => hs ⟨hc.1, hc.2.1⟩

theorem mem_entriesOf : e ∈ entriesOf begin lp objs k ↔
    (∃ o ∈ objs, o.bucket begin lp = k ∧ e = o.startEntry begin lp)
      ∨ ∃ o ∈ objs, o.bucket begin lp + 1 = k ∧ o.Spills begin lp ∧ e = o.contEntry begin lp := by
  simp only [entriesOf, List.mem_flatMap, mem_entriesIn]
  constructor
  · rintro ⟨o, ho, h | h⟩
    · exact .inl ⟨o, ho, h⟩
    · exact .inr ⟨o, ho, h⟩
  · rintro (⟨o, ho, h⟩ | ⟨o, ho, h⟩)
    · exact ⟨o, ho, .inl h⟩
    · exact ⟨o, ho, .inr h⟩

theorem startEntry_offset (hlp : lp ≤ 8) (h : o.Valid env begin size) :
    (o.startEntry begin lp).bucketOffset = o.offset begin lp := by rw [startEntry_eq hlp h]

section

variable (ha : o.Apart o') (h : o.Valid env begin size) (h' : o'.Valid env begin size)
include ha h h'

theorem Apart.not_both_spill (hk : o.bucket begin lp = o'.bucket begin lp) (hs : o.Spills begin lp)
    (hs' : o'.Spills begin lp) : False := by
  have m := (start_mem_bucket lp h.begin_le).2
  have m' := (start_mem_bucket lp h'.begin_le).2
  rw [← hk] at m'
  simp only [Spills, ← hk] at hs hs'
  rcases ha with ha | ha <;> omega

/-- An object that starts in the bucket another spills into starts after its first byte. -/
theorem Apart.offset_pos (hk : o'.bucket begin lp + 1 = o.bucket begin lp)
    (hs : o'.Spills begin lp) : 0 < o.offset begin lp := by
  have hb := base_bucket lp h.begin_le
  have m' := (start_mem_bucket lp h'.begin_le).2
  rw [hk] at m'
  simp only [Spills, hk] at hs
  simp only [Apart, end_] at ha hs
  omega

theorem Apart.offset_lt_of_spills (hk : o.bucket begin lp = o'.bucket begin lp)
    (hs : o'.Spills begin lp) : o.offset begin lp < o'.offset begin lp := by
  have hb := base_bucket lp h.begin_le
  have hb' := base_bucket lp h'.begin_le
  have hoff := o.offset_lt begin lp
  have hsucc := base_succ begin lp (o'.bucket begin lp)
  have hpos := h.size_pos
  rw [hk] at hb
  simp only [Spills] at hs
  simp only [Apart, end_] at ha hs
  omega

theorem Apart.offset_ne (hk : o.bucket begin lp = o'.bucket begin lp) :
    o.offset begin lp ≠ o'.offset begin lp := by
  have hb := base_bucket lp h.begin_le
  have hb' := base_bucket lp h'.begin_le
  have h1 := h.size_pos
  have h2 := h'.size_pos
  rw [hk] at hb
  simp only [Apart, end_] at ha
  omega

end

theorem contEntry_offset (o : SmallObject) : (o.contEntry begin lp).bucketOffset = 0 := rfl

theorem Apart.symm (h : o.Apart o') : o'.Apart o := Or.symm h

instance : Std.Symm Apart := ⟨fun _ _ => Apart.symm⟩

theorem Apart.entries_ne (ha : o.Apart o') (hlp : lp ≤ 8) (h : o.Valid env begin size)
    (h' : o'.Valid env begin size) (he : e ∈ entriesIn begin lp k o)
    (he' : e' ∈ entriesIn begin lp k o') : e.bucketOffset ≠ e'.bucketOffset := by
  rcases mem_entriesIn.mp he with ⟨hk, rfl⟩ | ⟨hk, hs, rfl⟩ <;>
    rcases mem_entriesIn.mp he' with ⟨hk', rfl⟩ | ⟨hk', hs', rfl⟩
  · rw [startEntry_offset hlp h, startEntry_offset hlp h']
    exact ha.offset_ne h h' (hk.trans hk'.symm)
  · rw [startEntry_offset hlp h, contEntry_offset]
    have := ha.offset_pos h h' (hk'.trans hk.symm) hs'
    omega
  · rw [startEntry_offset hlp h', contEntry_offset]
    have := ha.symm.offset_pos h' h (hk.trans hk'.symm) hs
    omega
  · exact (ha.not_both_spill h h' (by omega) hs hs').elim

section

variable (hlp : lp ≤ 8) (hv : ∀ o ∈ objs, o.Valid env begin size)
include hlp hv

theorem entriesOf_offsets_nodup
    (ha : objs.Pairwise Apart) : ((entriesOf begin lp objs k).map Entry.bucketOffset).Nodup := by
  rw [List.Nodup, List.pairwise_map, entriesOf, List.pairwise_flatMap]
  refine ⟨fun o _ => ?_, ha.imp_of_mem fun {o o'} ho ho' hoo' e he e' he' =>
    hoo'.entries_ne hlp (hv o ho) (hv o' ho') he he'⟩
  unfold entriesIn
  split
  · exact List.pairwise_singleton _ _
  · split
    · exact List.pairwise_singleton _ _
    · exact List.Pairwise.nil

theorem entriesOf_offsets_subset :
    (entriesOf begin lp objs k).map Entry.bucketOffset ⊆ List.range (2 ^ lp) := by
  intro x hx
  obtain ⟨e, he, rfl⟩ := List.mem_map.mp hx
  rw [List.mem_range]
  rcases mem_entriesOf.mp he with ⟨o, ho, -, rfl⟩ | ⟨o, ho, -, -, rfl⟩
  · rw [startEntry_offset hlp (hv o ho)]
    exact o.offset_lt begin lp
  · exact pitch_pos lp

theorem entriesOf_length_le (ha : objs.Pairwise Apart) : (entriesOf begin lp objs k).length ≤ 2 ^ lp := by
  have hnodup := entriesOf_offsets_nodup (k := k) hlp hv ha
  have hle := (hnodup.subperm (entriesOf_offsets_subset hlp hv)).length_le
  rwa [List.length_map, List.length_range] at hle

end

theorem startEntry_mem (ho : o ∈ objs) :
    o.startEntry begin lp ∈ entriesOf begin lp objs (o.bucket begin lp) :=
  mem_entriesOf.mpr (.inl ⟨o, ho, rfl, rfl⟩)

theorem contEntry_mem (ho : o ∈ objs) (hs : o.Spills begin lp) :
    o.contEntry begin lp ∈ entriesOf begin lp objs (o.bucket begin lp + 1) :=
  mem_entriesOf.mpr (.inr ⟨o, ho, rfl, hs, rfl⟩)

end SmallObject

end Liballocs
