/-
What a lookup among small objects returns.

`Indexes` says that the columns hold the entries of some objects that are apart.  Going down from the
address's bucket, the walk meets the object that contains it by its start entry in the first bucket,
or by its continuation.
-/
import Liballocs.Proofs.SmallObjects

namespace Liballocs.ChunkRec

open SmallObject

variable {env : Env} {begin ptr k j : Nat} {c : ChunkRec} {o o' : SmallObject} {e : Entry}
  {objs : List SmallObject} {js : List Nat} {r : Scan}

/-- A chunk of user space with a pitch of up to `MAX_PITCH`; its number of buckets fits an `unsigned`.
-/
structure IsChunk (env : Env) (begin : Nat) (c : ChunkRec) : Prop where
  logPitch_le : c.logPitch ≤ 8
  size_eq : ∃ n < 32, c.powerOfTwoSize = 2 ^ (c.logPitch + n)
  minimum : 2 ^ 22 ≤ env.minimumUserAddress
  begin_ge : env.minimumUserAddress ≤ begin
  end_le : begin + c.powerOfTwoSize ≤ 2 ^ 64

/-- The table has the entries of these objects, which are apart, and no others. -/
structure Indexes (env : Env) (begin : Nat) (c : ChunkRec) (objs : List SmallObject) : Prop where
  chunk : IsChunk env begin c
  valid : ∀ o ∈ objs, o.Valid env begin c.powerOfTwoSize
  apart : objs.Pairwise Apart
  columns : c.rect.Holds Entry.isNull (entriesOf begin c.logPitch objs)
  biggest : ∀ o ∈ objs, o.size ≤ c.biggestObject
  biggest_lt : c.biggestObject < 2 ^ 22

/-! ### The table -/

theorem IsChunk.width_eq (h : IsChunk env begin c) :
    0 < c.rect.width ∧ c.rect.width < 2 ^ 32 ∧ c.rect.width * 2 ^ c.logPitch = c.powerOfTwoSize := by
  obtain ⟨n, hn, hsize⟩ := h.size_eq
  have hw : c.rect.width = 2 ^ n := by
    show c.powerOfTwoSize / 2 ^ c.logPitch % 2 ^ 32 = 2 ^ n
    rw [hsize, Nat.pow_add, Nat.mul_div_cancel_left _ (pitch_pos _)]
    exact Nat.mod_eq_of_lt (Nat.pow_lt_pow_right (by decide) hn)
  rw [hw]
  refine ⟨Nat.pow_pos (by decide), Nat.pow_lt_pow_right (by decide) hn, ?_⟩
  rw [hsize, Nat.pow_add, Nat.mul_comm]

theorem IsChunk.bucket_lt (h : IsChunk env begin c) (h1 : begin ≤ ptr)
    (h2 : ptr < begin + c.powerOfTwoSize) :
    memrectNbucketOf ptr begin c.logPitch < c.rect.width
      ∧ memrectNbucketOf ptr begin c.logPitch % 2 ^ 32 = memrectNbucketOf ptr begin c.logPitch := by
  obtain ⟨-, hw32, hsize⟩ := h.width_eq
  have hlt : memrectNbucketOf ptr begin c.logPitch < c.rect.width :=
    Nat.div_lt_of_lt_mul (by rw [Nat.mul_comm, hsize]; omega)
  exact ⟨hlt, Nat.mod_eq_of_lt (hlt.trans hw32)⟩

theorem isNull_default : Entry.isNull default = true := rfl

section

variable (h : Indexes env begin c objs)
include h

section

variable (ho : o ∈ objs)

include ho

theorem Indexes.valid' : o.Valid env begin (c.rect.width * 2 ^ c.logPitch) := by
  rw [h.chunk.width_eq.2.2]
  exact h.valid o ho

theorem Indexes.bucket_lt :
    o.bucket begin c.logPitch < c.rect.width := SmallObject.bucket_lt (h.valid' ho)

theorem Indexes.eq_or_apart (ho' : o' ∈ objs) : o = o' ∨ o.Apart o' := by
  by_cases heq : o = o'
  · exact .inl heq
  · exact .inr (h.apart.forall ho ho' heq)

theorem Indexes.eq_of_contains (ho' : o' ∈ objs) (hc : o.Contains ptr)
    (hc' : o'.Contains ptr) : o = o' := by
  refine (h.eq_or_apart ho ho').resolve_right fun ha => ?_
  obtain ⟨h1, h2⟩ := hc
  obtain ⟨h3, h4⟩ := hc'
  rcases ha with ha | ha <;> omega

end

theorem Indexes.read_mem (hk : k < c.rect.width) (hj : j ∈ c.rect.walk Entry.isNull k) :
    c.rect.read j ∈ entriesOf begin c.logPitch objs k := (h.columns.read_mem isNull_default hk hj).1

theorem Indexes.exists_cell (hk : k < c.rect.width) (he : e ∈ entriesOf begin c.logPitch objs k) :
    ∃ j ∈ c.rect.walk Entry.isNull k, c.rect.read j = e := h.columns.exists_cell isNull_default hk he

end

/-- The cell holds the object's start entry. -/
def IsEntryOf (c : ChunkRec) (begin : Nat) (o : SmallObject) (j : Nat) : Prop :=
  j ∈ c.rect.walk Entry.isNull (o.bucket begin c.logPitch)
    ∧ c.rect.read j = o.startEntry begin c.logPitch

/-- The object of a continuation is the one with the biggest offset in the previous bucket. -/
theorem Indexes.getStartFromContinuation_eq (h : Indexes env begin c objs) (ho : o ∈ objs)
    (hs : o.Spills begin c.logPitch) :
    ∃ j, IsEntryOf c begin o j
      ∧ c.getStartFromContinuation env begin (o.bucket begin c.logPitch + 1) = some (j, o.start) := by
  have hlp := h.chunk.logPitch_le
  obtain ⟨j0, hj0, hread0⟩ := h.exists_cell (h.bucket_lt ho) (startEntry_mem ho)
  set starts := (c.rect.walk Entry.isNull (o.bucket begin c.logPitch)).filter fun i =>
    !(c.rect.read i).isContinuation env with hstarts
  have hmem0 : j0 ∈ starts := by
    rw [hstarts, List.mem_filter, hread0, startEntry_isContinuation hlp (h.valid o ho)]
    exact ⟨hj0, rfl⟩
  obtain ⟨j, hj⟩ : ∃ j, starts.argmax (fun i => (c.rect.read i).bucketOffset) = some j := by
    cases hmax : starts.argmax fun i => (c.rect.read i).bucketOffset with
    | none => exact absurd hmem0 (by rw [List.argmax_eq_none.mp hmax]; exact List.not_mem_nil)
    | some j => exact ⟨j, rfl⟩
  have hjmem := List.argmax_mem hj
  have hmax : (c.rect.read j0).bucketOffset ≤ (c.rect.read j).bucketOffset :=
    List.le_of_mem_argmax (f := fun i => (c.rect.read i).bucketOffset) hmem0 hj
  rw [hstarts, List.mem_filter] at hjmem
  obtain ⟨hjw, hnc⟩ := hjmem
  -- the entry that was found starts an object, and only `o` has an offset as big as `o`'s
  have hread : c.rect.read j = o.startEntry begin c.logPitch := by
    rcases mem_entriesOf.mp (h.read_mem (h.bucket_lt ho) hjw) with
      ⟨o', ho', hk, heq⟩ | ⟨o', ho', -, -, heq⟩
    · rcases h.eq_or_apart ho' ho with rfl | ha
      · exact heq
      · have hlt := ha.offset_lt_of_spills (h.valid o' ho') (h.valid o ho) hk hs
        rw [hread0, heq, startEntry_offset hlp (h.valid o ho),
          startEntry_offset hlp (h.valid o' ho')] at hmax
        omega
    · rw [heq, contEntry_isContinuation h.chunk.minimum (h.valid o' ho')] at hnc
      exact absurd hnc (by decide)
  refine ⟨j, ⟨hjw, hread⟩, ?_⟩
  have hbase := base_bucket c.logPitch (h.valid o ho).begin_le
  simp only [getStartFromContinuation, Nat.add_one_ne_zero, if_false, Nat.add_sub_cancel,
    some_bind, ← hstarts, hj, hread,
    startEntry_offset hlp (h.valid o ho)]
  exact congrArg (fun x => some (j, x)) hbase

/-! ### One bucket -/

/-- The lookup has found the object. -/
def IsFound (c : ChunkRec) (begin : Nat) (o : SmallObject) (f : Found) : Prop :=
  f.outObjectStart = o.start ∧ IsEntryOf c begin o f.ent

/-- An entry of the object in the bucket shows that it contains the address. -/
def Gives (c : ChunkRec) (begin ptr k : Nat) (o : SmallObject) (e : Entry) : Prop :=
  (o.bucket begin c.logPitch = k ∧ e = o.startEntry begin c.logPitch
      ∧ o.start ≤ ptr ∧ ptr < o.start + o.firstSize begin c.logPitch % 2 ^ 8) ∨
    (o.bucket begin c.logPitch + 1 = k ∧ o.Spills begin c.logPitch
      ∧ e = o.contEntry begin c.logPitch ∧ ptr < o.end_)

/-- What the walk along the cells `js` of a bucket says. -/
def ScanSpec (c : ChunkRec) (begin ptr k : Nat) (must : Bool) (objs : List SmallObject)
    (js : List Nat) : Scan → Prop
  | .hit f => ∃ o ∈ objs, o.Shows begin c.logPitch ptr ∧ IsFound c begin o f
  | .fail => must = true ∧ ∃ o ∈ objs, o.bucket begin c.logPitch + 1 = k
      ∧ o.Spills begin c.logPitch ∧ o.end_ ≤ ptr
  | .next => ∀ j ∈ js, ∀ o ∈ objs, ¬ Gives c begin ptr k o (c.rect.read j)

theorem ScanSpec.cons (hspec : ScanSpec c begin ptr k must objs js r)
    (hno : ∀ o ∈ objs, ¬ Gives c begin ptr k o (c.rect.read j)) :
    ScanSpec c begin ptr k must objs (j :: js) r := by
  cases r with
  | hit f => exact hspec
  | fail => exact hspec
  | next => exact List.forall_mem_cons.mpr ⟨hno, hspec⟩

section

variable (h : Indexes env begin c objs)
include h

theorem Indexes.startEntry_ne_contEntry (ho : o ∈ objs)
    (ho' : o' ∈ objs) : o.startEntry begin c.logPitch ≠ o'.contEntry begin c.logPitch := by
  intro heq
  have h1 := startEntry_isContinuation h.chunk.logPitch_le (h.valid o ho)
  rw [heq, contEntry_isContinuation h.chunk.minimum (h.valid o' ho')] at h1
  exact Bool.noConfusion h1

theorem Indexes.lookupBucket_start (hj : j ∈ c.rect.walk Entry.isNull k) (ho : o ∈ objs)
    (hok : o.bucket begin c.logPitch = k) (hread : c.rect.read j = o.startEntry begin c.logPitch)
    (hr : c.lookupBucket env begin ptr k must js = some r)
    (hspec : ScanSpec c begin ptr k must objs js r) :
    ∃ r', c.lookupBucket env begin ptr k must (j :: js) = some r'
      ∧ ScanSpec c begin ptr k must objs (j :: js) r' := by
  have hlp := h.chunk.logPitch_le
  have hbase : c.bucketRangeBase begin k + o.offset begin c.logPitch = o.start := by
    rw [← hok]
    exact base_bucket c.logPitch (h.valid o ho).begin_le
  have hfirst := start_add_firstSize hlp (h.valid o ho)
  simp only [lookupBucket, hread, startEntry_isContinuation hlp (h.valid o ho),
    Bool.false_eq_true, if_false]
  rw [startEntry_eq hlp (h.valid o ho)]
  dsimp only
  rw [hbase]
  split
  · rename_i hhit
    have hpos : 0 < o.firstSize begin c.logPitch % 2 ^ 8 := by omega
    have hmod := Nat.mod_le (o.firstSize begin c.logPitch) (2 ^ 8)
    have hshown := shown_of_mod_pos hlp (h.valid o ho) hpos
    refine ⟨_, rfl, o, ho, hshown.shows ⟨hhit.1, by omega⟩, rfl, ?_⟩
    exact ⟨hok ▸ hj, hread⟩
  · rename_i hmiss
    refine ⟨r, hr, hspec.cons ?_⟩
    rintro o' ho' (⟨hk', he, h1, h2⟩ | ⟨-, -, he, -⟩)
    · have hbase' := base_bucket c.logPitch (h.valid o' ho').begin_le
      rw [hread, startEntry_eq hlp (h.valid o ho), startEntry_eq hlp (h.valid o' ho'),
        Entry.mk.injEq] at he
      rw [hk', ← he.2.1] at hbase'
      have hstart : o'.start = o.start := hbase'.symm.trans hbase
      exact hmiss ⟨by omega, by omega⟩
    · exact h.startEntry_ne_contEntry ho ho' (hread.symm.trans he)

theorem Indexes.lookupBucket_cont (hptr : base begin c.logPitch k ≤ ptr) (ho : o ∈ objs)
    (hok : o.bucket begin c.logPitch + 1 = k) (hs : o.Spills begin c.logPitch)
    (hread : c.rect.read j = o.contEntry begin c.logPitch)
    (hr : c.lookupBucket env begin ptr k must js = some r)
    (hspec : ScanSpec c begin ptr k must objs js r) :
    ∃ r', c.lookupBucket env begin ptr k must (j :: js) = some r'
      ∧ ScanSpec c begin ptr k must objs (j :: js) r' := by
  obtain ⟨jo, hjo, hstart⟩ := h.getStartFromContinuation_eq ho hs
  have hend : o.start + o.size = o.end_ := rfl
  rw [hok] at hstart
  simp only [lookupBucket, hread, contEntry_isContinuation h.chunk.minimum (h.valid o ho),
    if_true, hstart, some_bind, contEntry_size (h.valid o ho), hend]
  have hmem := (start_mem_bucket c.logPitch (h.valid o ho).begin_le).2
  rw [hok] at hmem
  split
  · rename_i hhit
    exact ⟨_, rfl, o, ho, ⟨⟨by omega, hhit⟩, .inr (hok ▸ hptr)⟩, rfl, hjo⟩
  · rename_i hmiss
    split
    · rename_i hmust
      exact ⟨_, rfl, hmust, o, ho, hok, hs, by omega⟩
    · refine ⟨r, hr, hspec.cons ?_⟩
      rintro o' ho' (⟨-, he, -⟩ | ⟨hk', hs', -, h2⟩)
      · exact h.startEntry_ne_contEntry ho' ho (he.symm.trans hread)
      · rcases h.eq_or_apart ho ho' with rfl | ha
        · exact hmiss h2
        · exact ha.not_both_spill (h.valid o ho) (h.valid o' ho') (by omega) hs hs'

theorem Indexes.lookupBucket_spec (hk : k < c.rect.width) (hptr : base begin c.logPitch k ≤ ptr)
    (must : Bool) :
    ∀ js ⊆ c.rect.walk Entry.isNull k, ∃ r, c.lookupBucket env begin ptr k must js = some r
      ∧ ScanSpec c begin ptr k must objs js r := by
  intro js
  induction js with
  | nil => exact fun _ => ⟨.next, rfl, fun j hj => absurd hj List.not_mem_nil⟩
  | cons j js ih =>
    intro hjs
    obtain ⟨hj, hjs⟩ := List.cons_subset.mp hjs
    obtain ⟨r, hr, hspec⟩ := ih hjs
    rcases mem_entriesOf.mp (h.read_mem hk hj) with
      ⟨o, ho, hok, hread⟩ | ⟨o, ho, hok, hs, hread⟩
    · exact h.lookupBucket_start hj ho hok hread hr hspec
    · exact h.lookupBucket_cont hptr ho hok hs hread hr hspec

/-- If the walk along a whole bucket goes on, no object gives itself away there. -/
theorem Indexes.not_gives (hk : k < c.rect.width)
    (hnext : ScanSpec c begin ptr k must objs (c.rect.walk Entry.isNull k) .next) (ho : o ∈ objs) :
    (o.bucket begin c.logPitch = k →
        ¬ (o.start ≤ ptr ∧ ptr < o.start + o.firstSize begin c.logPitch % 2 ^ 8))
      ∧ (o.bucket begin c.logPitch + 1 = k → o.Spills begin c.logPitch → o.end_ ≤ ptr) := by
  refine ⟨fun hok hc => ?_, fun hok hs => Nat.le_of_not_lt fun hc => ?_⟩
  · obtain ⟨j, hj, hread⟩ := h.exists_cell hk (hok ▸ startEntry_mem ho)
    exact hnext j hj o ho (.inl ⟨hok, hread, hc⟩)
  · obtain ⟨j, hj, hread⟩ := h.exists_cell hk (hok ▸ contEntry_mem ho hs)
    exact hnext j hj o ho (.inr ⟨hok, hs, hread, hc⟩)

end

/-! ### The buckets below -/

section

variable (h : Indexes env begin c objs) (ho : o ∈ objs) (hc : o.Contains ptr)
include h ho hc

/-- An object with an address further up leaves no room for one that spills out of the bucket before
and ends below it. -/
theorem Indexes.no_fail (hok : o.bucket begin c.logPitch + 1 ≤ k) (ho' : o' ∈ objs)
    (hok' : o'.bucket begin c.logPitch + 1 = k) (hs : o'.Spills begin c.logPitch)
    (hend : o'.end_ ≤ ptr) : False := by
  obtain ⟨h1, h2⟩ := hc
  rcases h.eq_or_apart ho ho' with rfl | ha
  · omega
  · have m := (start_mem_bucket c.logPitch (h.valid o ho).begin_le).2
    have m' := start_mem_bucket c.logPitch (h.valid o' ho').begin_le
    rw [hok'] at m'
    have hmono := base_mono begin c.logPitch hok
    simp only [Spills, hok'] at hs
    rcases ha with ha | ha <;> omega

/-- If the walk along a bucket goes on, the object starts further down: neither its start nor its
continuation has been seen. -/
theorem Indexes.bucket_add_two_le (hk : k < c.rect.width) (hptr : base begin c.logPitch k ≤ ptr)
    (hnext : ScanSpec c begin ptr k must objs (c.rect.walk Entry.isNull k) .next)
    (hshown : o.Shown begin c.logPitch ∨ base begin c.logPitch (o.bucket begin c.logPitch + 1) ≤ ptr)
    (hbelow : must = true → o.bucket begin c.logPitch + 1 ≤ k)
    (hown : must = false → ptr < base begin c.logPitch (k + 1)) :
    o.bucket begin c.logPitch + 2 ≤ k := by
  obtain ⟨hno1, hno2⟩ := h.not_gives hk hnext ho
  have m := start_mem_bucket c.logPitch (h.valid o ho).begin_le
  have hfirst := start_add_firstSize h.chunk.logPitch_le (h.valid o ho)
  have hne : o.bucket begin c.logPitch ≠ k := by
    intro hb
    cases must with
    | true => exact absurd (hbelow rfl) (by omega)
    | false =>
      rw [hb] at hshown
      have hshown := hshown.resolve_right (hown rfl).not_ge
      refine hno1 hb ⟨hc.1, ?_⟩
      rw [Nat.mod_eq_of_lt hshown, hfirst, hb]
      exact Nat.lt_min.mpr ⟨hc.2, hown rfl⟩
  have hlt : o.bucket begin c.logPitch < k := by
    by_contra hge
    have hgt : k + 1 ≤ o.bucket begin c.logPitch := by omega
    have hmono := base_mono begin c.logPitch hgt
    cases must with
    | true => exact absurd (hbelow rfl) (by omega)
    | false =>
      have hptr' := hown rfl
      have hstart := hc.1
      omega
  by_contra hge
  have hb : o.bucket begin c.logPitch + 1 = k := by omega
  have hspills : o.Spills begin c.logPitch := by
    simp only [Spills, hb]
    exact hptr.trans_lt hc.2
  exact absurd hc.2 (hno2 hb hspills).not_gt

/-- From a bucket at or above the one where it shows, the object is found. -/
theorem Indexes.lookupFrom_found {earliest : Nat} (he : earliest < o.start)
    (hshown : o.Shown begin c.logPitch
      ∨ base begin c.logPitch (o.bucket begin c.logPitch + 1) ≤ ptr) :
    ∀ k must, k < c.rect.width → base begin c.logPitch k ≤ ptr →
      (must = true → o.bucket begin c.logPitch + 1 ≤ k) →
      (must = false → ptr < base begin c.logPitch (k + 1)) →
      ∃ f, c.lookupFrom env begin ptr earliest must k = some (some f) ∧ IsFound c begin o f := by
  have m := start_mem_bucket c.logPitch (h.valid o ho).begin_le
  intro k
  induction k using Nat.strong_induction_on with
  | _ k ih =>
    intro must hk hptr hbelow hown
    obtain ⟨r, hr, hspec⟩ := h.lookupBucket_spec hk hptr must _ (List.Subset.refl _)
    cases r with
    | hit f =>
      obtain ⟨o', ho', hc', hf⟩ := hspec
      rw [h.eq_of_contains ho ho' hc hc'.1]
      exact ⟨f, by rw [lookupFrom.eq_def]; simp [hr], hf⟩
    | fail =>
      obtain ⟨hmust, o', ho', hok', hs, hend⟩ := hspec
      exact (h.no_fail ho hc (hbelow hmust) ho' hok' hs hend).elim
    | next =>
      have hle := h.bucket_add_two_le ho hc hk hptr hspec hshown hbelow hown
      obtain ⟨k, rfl⟩ : ∃ j, k = j + 1 := ⟨k - 1, by omega⟩
      have hlt : o.bucket begin c.logPitch + 1 ≤ k := by omega
      have hmono := base_mono begin c.logPitch (Nat.le_succ_of_le hlt)
      rw [Nat.succ_eq_add_one] at hmono
      have hrange : c.bucketRangeEnd begin k = base begin c.logPitch (k + 1) :=
        (base_succ begin c.logPitch k).symm
      have hcond : c.bucketRangeEnd begin k > earliest := by
        rw [hrange]
        omega
      obtain ⟨f, hf, hfound⟩ := ih k (Nat.lt_succ_self k) true (by omega)
        ((base_mono _ _ (Nat.le_succ k)).trans hptr) (fun _ => hlt)
        (fun hc => absurd hc (by decide))
      refine ⟨f, ?_, hfound⟩
      rw [lookupFrom]
      simp only [hr, some_bind, if_pos hcond]
      exact hf

end

theorem Indexes.lookupFrom_none (h : Indexes env begin c objs)
    (hc : ∀ o ∈ objs, ¬ o.Shows begin c.logPitch ptr) (earliest : Nat) : ∀ k must, k < c.rect.width → base begin c.logPitch k ≤ ptr →
      c.lookupFrom env begin ptr earliest must k = some none := by
  intro k
  induction k using Nat.strong_induction_on with
  | _ k ih =>
    intro must hk hptr
    obtain ⟨r, hr, hspec⟩ := h.lookupBucket_spec hk hptr must _ (List.Subset.refl _)
    rw [lookupFrom.eq_def]
    simp only [hr, some_bind]
    cases r with
    | hit f =>
      obtain ⟨o, ho, ho', -⟩ := hspec
      exact absurd ho' (hc o ho)
    | fail => rfl
    | next =>
      cases k with
      | zero => rfl
      | succ k =>
        dsimp only
        split
        · exact ih k (Nat.lt_succ_self k) true (by omega) ((base_mono _ _ (Nat.le_succ k)).trans hptr)
        · rfl

/-- **A lookup finds the object that shows at the address, or nothing if there is none.** -/
theorem Indexes.lookupSmallAlloc_eq (h : Indexes env begin c objs) (h1 : begin ≤ ptr)
    (h2 : ptr < begin + c.powerOfTwoSize) :
    (∀ o ∈ objs, o.Shows begin c.logPitch ptr →
        ∃ f, c.lookupSmallAlloc env begin ptr = some (some f) ∧ IsFound c begin o f)
      ∧ ((∀ o ∈ objs, ¬ o.Shows begin c.logPitch ptr) →
        c.lookupSmallAlloc env begin ptr = some none) := by
  obtain ⟨hbucket, hmod⟩ := h.chunk.bucket_lt h1 h2
  obtain ⟨m1, m2⟩ := mem_bucket c.logPitch h1
  -- no object is bigger than the address it starts at, so the subtraction does not wrap around
  have hmin := h.chunk.minimum
  have hbegin := h.chunk.begin_ge
  have hend := h.chunk.end_le
  have hbig := h.biggest_lt
  have hearly : (ptr + 2 ^ 64 - c.biggestObject) % 2 ^ 64 = ptr - c.biggestObject := by
    omega
  simp only [lookupSmallAlloc, hmod, hearly]
  constructor
  · intro o ho hc
    have hsz := h.biggest o ho
    have hlt := hc.1.2
    simp only [end_] at hlt
    exact h.lookupFrom_found ho hc.1 (by omega) hc.2 _ false hbucket m1 (fun hc => absurd hc (by decide))
      fun _ => m2
  · intro hc
    exact h.lookupFrom_none hc _ _ false hbucket m1

theorem Indexes.lookupSmallAlloc_not_shown (h : Indexes env begin c objs) (ho : o ∈ objs)
    (hn : ¬ o.Shown begin c.logPitch) : c.lookupSmallAlloc env begin o.start = some none := by
  have hv := h.valid o ho
  have hc : o.Contains o.start := ⟨le_rfl, Nat.lt_add_of_pos_right hv.size_pos⟩
  refine (h.lookupSmallAlloc_eq hv.begin_le (hc.2.trans_le hv.end_le)).2 fun o' ho' hs' => ?_
  obtain rfl := h.eq_of_contains ho' ho hs'.1 hc
  exact hs'.2.elim hn fun hle => absurd hle (start_mem_bucket c.logPitch hv.begin_le).2.not_ge

/-- Where every object shows, a lookup finds the one that contains the address. -/
theorem Indexes.lookupSmallAlloc_shown (h : Indexes env begin c objs)
    (hshown : ∀ o ∈ objs, o.Shown begin c.logPitch) (h1 : begin ≤ ptr)
    (h2 : ptr < begin + c.powerOfTwoSize) :
    (∀ o ∈ objs, o.Contains ptr →
        ∃ f, c.lookupSmallAlloc env begin ptr = some (some f) ∧ IsFound c begin o f)
      ∧ ((∀ o ∈ objs, ¬ o.Contains ptr) → c.lookupSmallAlloc env begin ptr = some none) := by
  obtain ⟨hfound, hnone⟩ := h.lookupSmallAlloc_eq h1 h2
  exact ⟨fun o ho hc => hfound o ho ((hshown o ho).shows hc),
    fun hno => hnone fun o ho hc => hno o ho hc.1⟩

end Liballocs.ChunkRec
