/-
The parameters that are chosen for a chunk of small objects.

A layer has to fill a page, or else the pitch is lowered, which below 512 bytes is impossible.  The
guess is cut to 256, one too many: the size of an object that fills such a bucket does not fit eight
bits.  And the number of buckets is an `unsigned`.
-/
import Liballocs.Proofs.GenericSmall

namespace Liballocs

variable {n m g chunkSize K P : Nat} {fns : PowerFns}

/-! ### Powers of two -/

section

variable (hfns : fns.Lawful)
include hfns

theorem PowerFns.Lawful.integerLog2_two_pow {k : Nat} (hk : k < 64) : fns.integerLog2 (2 ^ k) = k := by
  obtain ⟨h1, h2⟩ := hfns.integerLog2 (2 ^ k) (Nat.pow_pos (by decide))
    (Nat.pow_lt_pow_right (by decide) hk)
  have hle := (Nat.pow_le_pow_iff_right (by decide)).mp h1
  have hlt := (Nat.pow_lt_pow_iff_right (by decide)).mp h2
  omega

/-- The guess decides the pitch, before the layer is compared with a page. -/
theorem PowerFns.Lawful.guessed (g : Nat) :
    ∃ P ≤ 8, fns.nextPowerOfTwoGe (if g > maxPitch then maxPitch else g) = 2 ^ P
      ∧ (P ≤ 7 ↔ g ≤ 128) ∧ (g ≤ 128 → ∀ m, P ≤ m ↔ g ≤ 2 ^ m) := by
  have hle : (if g > maxPitch then maxPitch else g) ≤ 256 := by
    split <;> simp only [maxPitch] at * <;> omega
  obtain ⟨P, hP, hiff⟩ := hfns.nextPowerOfTwoGe _ (hle.trans (by decide))
  refine ⟨P, (hiff 8).mpr hle, hP, ?_, fun hg => ?_⟩
  · rw [hiff 7]
    split <;> simp only [maxPitch] at * <;> omega
  · rwa [if_neg (by simp only [maxPitch]; omega)] at hiff

/-! ### The chunk -/

theorem PowerFns.Lawful.makeSuballocatedChunk_eq (chunkSize : Nat) (hP8 : P ≤ 8)
    (hP : fns.nextPowerOfTwoGe (if g > maxPitch then maxPitch else g) = 2 ^ P) :
    makeSuballocatedChunk fns chunkSize g =
      { powerOfTwoSize := fns.nextPowerOfTwoGe chunkSize
        logPitch := if 8 * (fns.nextPowerOfTwoGe chunkSize / 2 ^ P) % 2 ^ 64 < 4096 then
            fns.integerLog2 (8 * fns.nextPowerOfTwoGe chunkSize % 2 ^ 64 / 4096 % 2 ^ 32)
          else P } := by
  unfold makeSuballocatedChunk
  simp only [hP, hfns.integerLog2_two_pow (show P < 64 by omega)]
  rfl

section

variable (hP8 : P ≤ 8)
  (hP : fns.nextPowerOfTwoGe (if g > maxPitch then maxPitch else g) = 2 ^ P)
  (hK : fns.nextPowerOfTwoGe chunkSize = 2 ^ K)

include hP8 hP hK

theorem PowerFns.Lawful.makeSuballocatedChunk_lowered (h9 : 9 ≤ K) (hlt : K < P + 9) :
    makeSuballocatedChunk fns chunkSize g = { powerOfTwoSize := 2 ^ K, logPitch := K - 9 } := by
  have hlayer : 2 ^ K / 2 ^ P ≤ 2 ^ 8 := by
    rw [Nat.div_le_iff_le_mul_add_pred (Nat.pow_pos (by decide)), ← Nat.pow_add]
    have : 2 ^ K ≤ 2 ^ (P + 8) := Nat.pow_le_pow_right (by decide) (by omega)
    omega
  have hpow : 2 ^ K = 2 ^ (K - 9) * 512 := by
    rw [show (512 : Nat) = 2 ^ 9 from rfl, ← Nat.pow_add]
    congr 1
    omega
  have hle : 2 ^ (K - 9) ≤ 2 ^ 8 := Nat.pow_le_pow_right (by decide) (by omega)
  rw [hfns.makeSuballocatedChunk_eq chunkSize hP8 hP, hK, if_pos (by omega),
    show 8 * 2 ^ K % 2 ^ 64 / 4096 % 2 ^ 32 = 2 ^ (K - 9) by omega,
    hfns.integerLog2_two_pow (by omega)]

theorem PowerFns.Lawful.makeSuballocatedChunk_kept (hge : P + 9 ≤ K) (hle : K ≤ P + 60) :
    makeSuballocatedChunk fns chunkSize g = { powerOfTwoSize := 2 ^ K, logPitch := P } := by
  have hlayer : 8 * (2 ^ K / 2 ^ P) = 2 ^ (K - P + 3) := by
    rw [Nat.pow_div (by omega) (by decide), Nat.pow_add, Nat.mul_comm]
  have hlt : 2 ^ (K - P + 3) < 2 ^ 64 := Nat.pow_lt_pow_right (by decide) (by omega)
  have hpage : 4096 ≤ 2 ^ (K - P + 3) :=
    show 2 ^ 12 ≤ 2 ^ (K - P + 3) from Nat.pow_le_pow_right (by decide) (by omega)
  rw [hfns.makeSuballocatedChunk_eq chunkSize hP8 hP, hK, hlayer, Nat.mod_eq_of_lt hlt,
    if_neg hpage.not_gt]

end

end

/-- Helpers that count the logarithm of zero as 64, and take the next power of two modulo `2 ^ 64`. -/
def sampleFns : PowerFns where
  nextPowerOfTwoGe := fun n => if n ≤ 1 then 1 else 2 ^ (Nat.log2 (n - 1) + 1) % 2 ^ 64
  integerLog2 := fun n => if n = 0 then 64 else Nat.log2 n

theorem sampleFns_lawful : sampleFns.Lawful where
  nextPowerOfTwoGe := by
    intro n hn
    simp only [sampleFns]
    split
    · refine ⟨0, rfl, fun m => ?_⟩
      have := Nat.pow_pos (n := m) (show 0 < 2 by decide)
      omega
    · have hlt : Nat.log2 (n - 1) < 63 := (Nat.log2_lt (by omega)).mpr (by omega)
      refine ⟨Nat.log2 (n - 1) + 1, ?_, fun m => ?_⟩
      · exact Nat.mod_eq_of_lt (Nat.pow_lt_pow_right (by decide) (by omega))
      · rw [Nat.add_one_le_iff, Nat.log2_lt (by omega)]
        omega
  integerLog2 := by
    intro n h0 _
    simp only [sampleFns, if_neg (show n ≠ 0 by omega)]
    exact ⟨Nat.log2_self_le (by omega), Nat.lt_log2_self⟩

theorem sampleFns_big (hn : 2 ^ 63 < n) : sampleFns.nextPowerOfTwoGe n = 0 := by
  have hle : 63 ≤ Nat.log2 (n - 1) := (Nat.le_log2 (by omega)).mpr (by omega)
  simp only [sampleFns]
  rw [if_neg (by omega)]
  exact Nat.mod_eq_zero_of_dvd (Nat.pow_dvd_pow 2 (by omega))

/-! ### Usable parameters -/

namespace ChunkRec

open SmallObject

/-- What indexing computes for an object goes into the fields of its entries uncut. -/
structure Represented (c : ChunkRec) (begin ptr sizeBytes : Nat) : Prop where
  bucketOffset : ∀ site tb, (Entry.regularInitial site
    (memrectBucketOffsetOfAddr ptr begin c.logPitch) tb).bucketOffset
      = memrectBucketOffsetOfAddr ptr begin c.logPitch
  thisbucketSize : ∀ site off, (Entry.regularInitial site off
    (thisbucketSizeOf begin c.logPitch ptr sizeBytes)).thisbucketSize
      = thisbucketSizeOf begin c.logPitch ptr sizeBytes
  continuationShare : c.bucketRangeEnd begin (memrectNbucketOf ptr begin c.logPitch) < ptr + sizeBytes →
    (Entry.continuation sizeBytes (sizeInContinuationBucket c.logPitch
        (sizeBytes - thisbucketSizeOf begin c.logPitch ptr sizeBytes))).thisbucketSize
      = sizeInContinuationBucket c.logPitch
          (sizeBytes - thisbucketSizeOf begin c.logPitch ptr sizeBytes)

/-- The parameters of the chunk suit a region of `chunkSize` bytes and every object in it. -/
structure Usable (c : ChunkRec) (chunkSize : Nat) : Prop where
  pitch : 1 ≤ 2 ^ c.logPitch
  covers : chunkSize ≤ c.rect.width * 2 ^ c.logPitch
  entries : 2 ^ c.logPitch * c.rect.width = c.powerOfTwoSize
  fields : ∀ begin ptr sizeBytes, 0 < sizeBytes → begin ≤ ptr →
    ptr + sizeBytes ≤ begin + chunkSize → c.Represented begin ptr sizeBytes

variable {c : ChunkRec} {K : Nat}

theorem width_eq_of_lt (hK : c.powerOfTwoSize = 2 ^ K) (hle : c.logPitch ≤ K)
    (hlt : K < c.logPitch + 32) : c.rect.width = 2 ^ (K - c.logPitch) := by
  show c.powerOfTwoSize / 2 ^ c.logPitch % 2 ^ 32 = _
  rw [hK, Nat.pow_div hle (by decide)]
  exact Nat.mod_eq_of_lt (Nat.pow_lt_pow_right (by decide) (by omega))

theorem sizeInContinuationBucket_le (lp n : Nat) : sizeInContinuationBucket lp n ≤ 2 ^ lp := by
  unfold sizeInContinuationBucket
  split
  · exact Nat.zero_le _
  · omega

theorem represented_of_pitch (hlp : c.logPitch ≤ 7) {begin ptr sizeBytes : Nat} (hptr : begin ≤ ptr) :
    c.Represented begin ptr sizeBytes := by
  have hpitch : 2 ^ c.logPitch ≤ 128 := Nat.pow_le_pow_right (by decide) hlp
  have hoff := SmallObject.bucketOffset_lt begin c.logPitch ptr
  have htb : thisbucketSizeOf begin c.logPitch ptr sizeBytes < 2 ^ 8 := by
    unfold thisbucketSizeOf
    split
    · rename_i heq
      have h1 := (SmallObject.mem_bucket c.logPitch (show begin ≤ ptr + sizeBytes by omega)).2
      have h2 := (SmallObject.mem_bucket c.logPitch hptr).1
      rw [heq, SmallObject.base_succ] at h1
      rw [Nat.mod_eq_of_lt (by omega)]
      omega
    · rw [Nat.mod_eq_of_lt (by omega)]
      omega
  refine ⟨fun _ _ => Nat.mod_eq_of_lt (by omega), fun _ _ => Nat.mod_eq_of_lt htb, fun _ => ?_⟩
  have hshare := sizeInContinuationBucket_le c.logPitch
    (sizeBytes - thisbucketSizeOf begin c.logPitch ptr sizeBytes)
  exact Nat.mod_eq_of_lt (by omega)

/-- With a pitch of 256, the size of an object that fills a bucket is cut to zero. -/
theorem not_represented_256 (hlp : c.logPitch = 8) : ¬ c.Represented 0 0 256 := by
  intro h
  have htb := h.thisbucketSize 0 0
  simp [hlp, Entry.regularInitial, thisbucketSizeOf, memrectNbucketOf, memrectBucketOffsetOfAddr] at htb

theorem usable_of_eq (hK : c.powerOfTwoSize = 2 ^ K) (hcs : chunkSize ≤ 2 ^ K)
    (hle : c.logPitch ≤ K) (hlt : K < c.logPitch + 32) (hlp : c.logPitch ≤ 7) : c.Usable chunkSize := by
  have hw := width_eq_of_lt hK hle hlt
  have hmul : c.rect.width * 2 ^ c.logPitch = 2 ^ K := by
    rw [hw, ← Nat.pow_add, Nat.sub_add_cancel hle]
  refine ⟨Nat.pow_pos (by decide), hmul.symm ▸ hcs, ?_, fun begin ptr _ _ hptr _ =>
    represented_of_pitch hlp hptr⟩
  rw [Nat.mul_comm, hmul, hK]

/-- What has to hold of a chunk and the first object that is indexed in it. -/
def RightSized (chunkSize guessedAverageSize : Nat) : Prop :=
  256 < chunkSize ∧ (chunkSize ≤ 65536 ∨
    guessedAverageSize ≤ 128 ∧ ∀ k, guessedAverageSize ≤ 2 ^ k → chunkSize ≤ 2 ^ (31 + k))

/-- For a chunk of the right size, the pitch is at most 128 and the buckets can be counted. -/
theorem RightSized.make (hfns : fns.Lawful) (h : RightSized chunkSize g) :
    ∃ K lp, makeSuballocatedChunk fns chunkSize g = { powerOfTwoSize := 2 ^ K, logPitch := lp }
      ∧ chunkSize ≤ 2 ^ K ∧ lp ≤ K ∧ K < lp + 32 ∧ lp ≤ 7 := by
  obtain ⟨hsmall, hlarge⟩ := h
  obtain ⟨P, hP8, hP, h128, hg⟩ := hfns.guessed g
  have hbound : (chunkSize ≤ 2 ^ 16 ∨ P ≤ 7 ∧ chunkSize ≤ 2 ^ (31 + P)) := by
    rcases hlarge with h' | ⟨h', hle⟩
    · exact .inl h'
    · exact .inr ⟨h128.mpr h', hle P ((hg h' P).mp le_rfl)⟩
  have h63 : chunkSize ≤ 2 ^ 63 := by
    rcases hbound with h' | ⟨-, h'⟩
    · omega
    · exact h'.trans (Nat.pow_le_pow_right (by decide) (by omega))
  obtain ⟨K, hK, hiff⟩ := hfns.nextPowerOfTwoGe chunkSize h63
  rw [← hiff, ← hiff] at hbound
  have h9 : 9 ≤ K := by
    by_contra hc
    have := (hiff 8).mp (by omega)
    omega
  have hcs := (hiff K).mp le_rfl
  by_cases hlow : K < P + 9
  · exact ⟨K, K - 9, hfns.makeSuballocatedChunk_lowered hP8 hP hK h9 hlow, hcs, by omega, by omega,
      by omega⟩
  · exact ⟨K, P, hfns.makeSuballocatedChunk_kept hP8 hP hK (by omega) (by omega), hcs, by omega,
      by omega, by omega⟩

/-- A chunk without buckets is not usable. -/
theorem not_usable_of_width (hw : c.rect.width = 0) (h : 0 < chunkSize ∨ 0 < c.powerOfTwoSize) :
    ¬ c.Usable chunkSize := by
  intro hu
  have hcov := hu.covers
  have hent := hu.entries
  rw [hw] at hcov hent
  omega

/-- With a logarithm of 64 for zero, a chunk of at most 256 bytes gets no buckets. -/
theorem sampleFns_small (h : chunkSize ≤ 256) (g : Nat) :
    ¬ (makeSuballocatedChunk sampleFns chunkSize g).Usable chunkSize := by
  obtain ⟨P, hP8, hP, -⟩ := sampleFns_lawful.guessed g
  obtain ⟨K, hK, hiff⟩ := sampleFns_lawful.nextPowerOfTwoGe chunkSize (h.trans (by decide))
  have hK8 : 2 ^ K ≤ 2 ^ 8 := Nat.pow_le_pow_right (by decide) ((hiff 8).mpr h)
  have hpos : 0 < 2 ^ K := Nat.pow_pos (by decide)
  have hlayer : 2 ^ K / 2 ^ P ≤ 2 ^ 8 := (Nat.div_le_self _ _).trans hK8
  rw [sampleFns_lawful.makeSuballocatedChunk_eq chunkSize hP8 hP, hK, if_pos (by omega),
    show 8 * 2 ^ K % 2 ^ 64 / 4096 % 2 ^ 32 = 0 by omega]
  refine not_usable_of_width ?_ (.inr hpos)
  show 2 ^ K / 2 ^ 64 % 2 ^ 32 = 0
  omega

/-- Above 64 KiB the pitch is that of the guess, or there are no buckets. -/
theorem sampleFns_large (h : 65536 < chunkSize) (hP8 : P ≤ 8)
    (hP : sampleFns.nextPowerOfTwoGe (if g > maxPitch then maxPitch else g) = 2 ^ P)
    (hu : (makeSuballocatedChunk sampleFns chunkSize g).Usable chunkSize) :
    ∃ K, chunkSize ≤ 2 ^ K
      ∧ makeSuballocatedChunk sampleFns chunkSize g = { powerOfTwoSize := 2 ^ K, logPitch := P } := by
  by_cases hbig : 2 ^ 63 < chunkSize
  · refine absurd hu (not_usable_of_width ?_ (.inl (by omega)))
    show sampleFns.nextPowerOfTwoGe chunkSize / _ % 2 ^ 32 = 0
    rw [sampleFns_big hbig, Nat.zero_div, Nat.zero_mod]
  · obtain ⟨K, hK, hiff⟩ := sampleFns_lawful.nextPowerOfTwoGe chunkSize (not_lt.mp hbig)
    have hK17 : 17 ≤ K := by
      by_contra hc
      have := (hiff 16).mp (by omega)
      omega
    by_cases hle : K ≤ P + 60
    · exact ⟨K, (hiff K).mp le_rfl,
        sampleFns_lawful.makeSuballocatedChunk_kept hP8 hP hK (by omega) hle⟩
    · -- eight bytes for each of so many entries are more than there is
      have hK63 : K ≤ 63 := (hiff 63).mpr (not_lt.mp hbig)
      have hover : 8 * 2 ^ K % 2 ^ 64 = 0 := by
        rw [show 8 * 2 ^ K = 2 ^ (K + 3) by rw [Nat.pow_add, Nat.mul_comm]]
        exact Nat.mod_eq_zero_of_dvd (Nat.pow_dvd_pow 2 (by omega))
      have hlayer : 8 * (2 ^ K / 2 ^ P) % 2 ^ 64 = 0 := by
        rw [Nat.pow_div (by omega) (by decide),
          show 8 * 2 ^ (K - P) = 2 ^ (K - P + 3) by rw [Nat.pow_add, Nat.mul_comm]]
        exact Nat.mod_eq_zero_of_dvd (Nat.pow_dvd_pow 2 (by omega))
      have hlt : 2 ^ K < 2 ^ 64 := Nat.pow_lt_pow_right (by decide) (by omega)
      rw [sampleFns_lawful.makeSuballocatedChunk_eq chunkSize hP8 hP, hK, hlayer, hover] at hu
      refine absurd hu (not_usable_of_width ?_ (.inl (by omega)))
      show 2 ^ K / 2 ^ 64 % 2 ^ 32 = 0
      rw [Nat.div_eq_of_lt hlt, Nat.zero_mod]

/-- **The parameters are usable just for chunks** over 256 bytes that, if over 64 KiB, have a first
object of at most 128 bytes and at most `2 ^ 31` buckets. -/
theorem makeSuballocatedChunk_usable_iff (chunkSize guessedAverageSize : Nat) :
    (∀ fns : PowerFns, fns.Lawful →
        (makeSuballocatedChunk fns chunkSize guessedAverageSize).Usable chunkSize)
      ↔ RightSized chunkSize guessedAverageSize := by
  constructor
  · intro h
    have hu := h sampleFns sampleFns_lawful
    have hsmall : 256 < chunkSize := by
      by_contra hc
      exact sampleFns_small (not_lt.mp hc) _ hu
    refine ⟨hsmall, ?_⟩
    by_cases hle : chunkSize ≤ 65536
    · exact .inl hle
    obtain ⟨P, hP8, hP, h128, hg⟩ := sampleFns_lawful.guessed guessedAverageSize
    obtain ⟨K, hcs, hmake⟩ := sampleFns_large (not_le.mp hle) hP8 hP hu
    rw [hmake] at hu
    have hP7 : P ≤ 7 := by
      by_contra hc
      exact not_represented_256 (c := { powerOfTwoSize := 2 ^ K, logPitch := P })
        (show P = 8 by omega) (hu.fields 0 0 256 (by decide) (by decide) (by omega))
    have hg128 := h128.mp hP7
    refine .inr ⟨hg128, fun k hk => ?_⟩
    by_contra hc
    -- with more than `2 ^ 31` buckets, their number is cut to zero
    have hkP := (hg hg128 k).mpr hk
    have hK32 : P + 32 ≤ K := by
      by_contra hlt
      have : 2 ^ K ≤ 2 ^ (31 + k) := Nat.pow_le_pow_right (by decide) (by omega)
      omega
    refine not_usable_of_width ?_ (.inl (by omega)) hu
    show 2 ^ K / 2 ^ P % 2 ^ 32 = 0
    rw [Nat.pow_div (by omega) (by decide)]
    exact Nat.mod_eq_zero_of_dvd (Nat.pow_dvd_pow 2 (by omega))
  · intro h fns hfns
    obtain ⟨K, lp, hmake, hcs, hle, hlt, h7⟩ := h.make hfns
    rw [hmake]
    exact usable_of_eq rfl hcs hle hlt h7

/-- A first object of 300 bytes in a chunk of 128 KiB gives a pitch of 256, where an object that fills
a bucket gets the size zero; and four gigabytes of single bytes get no buckets. -/
theorem makeSuballocatedChunk_unusable :
    sampleFns.Lawful
    ∧ (∃ c, makeSuballocatedChunk sampleFns 131072 300 = c ∧ c.logPitch = 8
      ∧ (Entry.regularInitial 5000000 (memrectBucketOffsetOfAddr 4194304 4194304 c.logPitch)
          (thisbucketSizeOf 4194304 c.logPitch 4194304 300)).thisbucketSize = 0
      ∧ ¬ c.Usable 131072)
    ∧ ∃ c, makeSuballocatedChunk sampleFns (2 ^ 32) 1 = c ∧ c.rect.width = 0
      ∧ ¬ c.Usable (2 ^ 32) := by
  refine ⟨sampleFns_lawful, ⟨{ powerOfTwoSize := 2 ^ 17, logPitch := 8 }, rfl, rfl, rfl, fun h => ?_⟩,
    { powerOfTwoSize := 2 ^ 32, logPitch := 0 }, rfl, rfl, fun h => ?_⟩
  · exact not_represented_256 (c := { powerOfTwoSize := 2 ^ 17, logPitch := 8 }) rfl
      (h.fields 0 0 256 (by decide) (by decide) (by decide))
  · exact not_usable_of_width (c := { powerOfTwoSize := 2 ^ 32, logPitch := 0 }) rfl
      (.inl (by decide)) h

/-- **From its creation on, a chunk of the right size indexes exactly its live objects**, wherever in
user space it is put: a lookup finds the one with the address. -/
theorem makeSuballocatedChunk_indexes (hfns : fns.Lawful) (h : RightSized chunkSize g) :
    ∃ c, makeSuballocatedChunk fns chunkSize g = c ∧ chunkSize ≤ c.powerOfTwoSize
      ∧ ∀ env begin es, 2 ^ 22 ≤ env.minimumUserAddress → env.minimumUserAddress ≤ begin →
        begin + c.powerOfTwoSize ≤ 2 ^ 64 → ValidEvents env begin c.powerOfTwoSize es →
        ∃ c', c.run env begin es = some c' ∧ Indexes env begin c' (live es) ∧
          ∀ ptr, begin ≤ ptr → ptr < begin + c.powerOfTwoSize →
            (∀ o ∈ live es, o.Contains ptr →
                ∃ f, c'.lookupSmallAlloc env begin ptr = some (some f) ∧ IsFound c' begin o f)
              ∧ ((∀ o ∈ live es, ¬ o.Contains ptr) →
                c'.lookupSmallAlloc env begin ptr = some none) := by
  obtain ⟨K, lp, hmake, hcs, hle, hlt, h7⟩ := h.make hfns
  refine ⟨_, hmake, hcs, fun env begin es hmin hbegin hend hes => ?_⟩
  have hchunk : IsChunk env begin { powerOfTwoSize := 2 ^ K, logPitch := lp } :=
    ⟨h7.trans (by decide), ⟨K - lp, by omega, by rw [Nat.add_sub_cancel' hle]⟩, hmin, hbegin, hend⟩
  obtain ⟨c', hrun, hsize, hind, hshown⟩ := hchunk.run_shown h7 ⟨fun _ => rfl, rfl⟩ hes
  exact ⟨c', hrun, hind, fun ptr h1 h2 => hind.lookupSmallAlloc_shown hshown h1 (hsize.symm ▸ h2)⟩

/-- In a page, one of two objects is unindexed again. -/
theorem makeSuballocatedChunk_indexes_page : ∃ c c' f,
    makeSuballocatedChunk sampleFns 4096 16 = c
      ∧ c.run sampleSmallEnv 4194304
          [.unindex sampleShort 4194306, .index sampleShort, .index sampleLong] = some c'
      ∧ c'.lookupSmallAlloc sampleSmallEnv 4194304 4194325 = some (some f)
      ∧ IsFound c' 4194304 sampleLong f
      ∧ c'.lookupSmallAlloc sampleSmallEnv 4194304 4194306 = some none := by
  obtain ⟨c, hmake, -, hruns⟩ := makeSuballocatedChunk_indexes sampleFns_lawful
    (⟨by decide, .inl (by decide)⟩ : RightSized 4096 16)
  obtain rfl : { powerOfTwoSize := 4096, logPitch := 3 } = c := hmake
  have hlong : sampleLong.Valid sampleSmallEnv 4194304 4096 :=
    ⟨by decide, by decide, by decide, by decide, by decide, by decide⟩
  have hshort : sampleShort.Valid sampleSmallEnv 4194304 4096 :=
    ⟨by decide, by decide, by decide, by decide, by decide, by decide⟩
  have hes : ValidEvents sampleSmallEnv 4194304 4096
      [.unindex sampleShort 4194306, .index sampleShort, .index sampleLong] := by
    refine ⟨⟨⟨trivial, hlong, fun o ho => absurd ho List.not_mem_nil⟩, hshort, fun o ho => ?_⟩,
      .head _, by unfold Contains; decide⟩
    rw [List.mem_singleton.mp ho]
    exact .inl (by decide)
  obtain ⟨c', hrun, -, hlookup⟩ := hruns sampleSmallEnv 4194304 _ (by decide) (by decide) (by decide) hes
  have hlive : live [.unindex sampleShort 4194306, .index sampleShort, .index sampleLong]
      = [sampleLong] := rfl
  obtain ⟨f, hf, hfound⟩ := (hlookup 4194325 (by decide) (by decide)).1 sampleLong
    (hlive ▸ List.mem_cons_self) (by unfold Contains; decide)
  refine ⟨_, c', f, rfl, hrun, hf, hfound, (hlookup 4194306 (by decide) (by decide)).2 ?_⟩
  intro o ho
  rw [hlive, List.mem_singleton] at ho
  rw [ho]
  unfold Contains
  decide

end ChunkRec

end Liballocs
