/-
Which addresses the allocation sites of a file answer for.

The search returns the last site at or below an address, and nothing compares the two.  So an address
that is not recorded has the entry, and the type, of the site below it.
-/
import Liballocs.AllocsiteQuery
import Liballocs.Proofs.Allocsites

namespace Liballocs.Allocsites

variable {env : AllocsiteEnv} {s : Allocsites} {uniqtype : Nat → Nat} {a k : Nat}
  {file : AllocsFileMetadata} {info : AllocsitesVector}

/-- The address in the file of a site of a vector. -/
def siteVaddr (env : AllocsiteEnv) (info : AllocsitesVector) (k : Nat) : Nat :=
  env.allocsiteVaddr (entryAddr env info.ptr k)

/-- The address is in a loaded file, whose sites are sorted. -/
structure InFile (env : AllocsiteEnv) (s : Allocsites) (a : Nat) (file : AllocsFileMetadata)
    (info : AllocsitesVector) : Prop where
  getFile : s.getFile env a = some file
  slot : ∃ slot < allocsitesIndexSize,
    file.allocsitesInfo = some slot ∧ s.vectorsByBaseId slot = info
  sorted : ∀ j k, j < k → k < info.count → siteVaddr env info j < siteVaddr env info k

/-- A chunk allocated at the address is reported as unrecognised, by either query. -/
def Unrecognised (q : QueryEnv) (a : Nat) : Prop :=
  (∀ ins : Insert, ins.isWithType = false → ins.initial.allocSite.toNat = a →
    (extractAndOutputAllocSiteAndType q ins).err = some .unrecognisedAllocSite)
  ∧ ∀ ent : Entry, ent.discr = a → (ent.outTypeAndSite q).1 = some .unrecognisedAllocSite

/-- An address has the entry of its own site only, and a chunk from elsewhere no type. -/
structure Answered (env : AllocsiteEnv) (s : Allocsites) (uniqtype : Nat → Nat) (a : Nat)
    (file : AllocsFileMetadata) (info : AllocsitesVector) : Prop where
  recorded : ∀ k < info.count, siteVaddr env info k = a - file.lAddr →
    s.findAllocsiteEntryAt env a = .ok (some (entryAddr env info.ptr k))
  unrecorded : (∀ k < info.count, siteVaddr env info k ≠ a - file.lAddr) →
    s.findAllocsiteEntryAt env a = .ok none ∧ s.allocsiteId env a = .ok (allocsiteIdBound - 1)
      ∧ Unrecognised (s.queryEnv env uniqtype) a

/-- The entry is that of the last site that is not above the address. -/
theorem InFile.findAllocsiteEntryAt_spec (h : InFile env s a file info)
    (hf : Bsearch.Finds env.bsearchLeq) :
    ∃ found : Option Nat, s.findAllocsiteEntryAt env a = .ok (found.map (entryAddr env info.ptr))
      ∧ ∀ k, found = some k ↔ Bsearch.LastLe (siteVaddr env info) info.count (a - file.lAddr) k := by
  obtain ⟨slot, hlt, hslot, rfl⟩ := h.slot
  refine ⟨_, ?_, hf _ _ _ fun i j hij hj => ?_⟩
  · unfold findAllocsiteEntryAt
    simp only [h.getFile, hslot, read, if_pos hlt]
    rfl
  · rcases Nat.lt_or_eq_of_le hij with hlt | rfl
    · exact (h.sorted i j hlt hj).le
    · exact le_rfl

theorem unrecognised_of_none (hnone : s.findAllocsiteEntryAt env a = .ok none) :
    Unrecognised (s.queryEnv env uniqtype) a := by
  have htype : (s.queryEnv env uniqtype).findAllocsiteEntryAt a = none := by
    simp only [queryEnv, hnone]
    rfl
  constructor
  · intro ins hins hsite
    simp [extractAndOutputAllocSiteAndType, hins, hsite, htype, Bool.false_eq_true, Option.getD_none]
  · intro ent hent
    unfold Entry.outTypeAndSite
    split
    · simp [hent, htype, Option.getD_none]
    · rfl

/-- **An address is answered for by its own site, or not at all**, exactly if it is recorded or lies
below all sites of its file. -/
theorem findAllocsiteEntryAt_answered_iff (env : AllocsiteEnv) (s : Allocsites) (uniqtype : Nat → Nat)
    (a : Nat) (file : AllocsFileMetadata) (info : AllocsitesVector)
    (hf : Bsearch.Finds env.bsearchLeq) (h : InFile env s a file info) :
    Answered env s uniqtype a file info
      ↔ (∃ k < info.count, siteVaddr env info k = a - file.lAddr)
        ∨ ∀ k < info.count, a - file.lAddr < siteVaddr env info k := by
  obtain ⟨found, hfind, hiff⟩ := h.findAllocsiteEntryAt_spec hf
  constructor
  · intro hans
    by_contra hcond
    obtain ⟨hun, k, hk, hle⟩ := by simpa using hcond
    -- some site is not above the address, so the search finds the last such site
    obtain ⟨m, hm⟩ := Bsearch.exists_lastLe hk hle
    have hnone := (hans.unrecorded hun).1
    rw [hfind, (hiff m).mpr hm] at hnone
    exact nomatch hnone
  · intro hcond
    constructor
    · intro k hk heq
      rw [hfind, (hiff k).mpr ⟨hk, heq.le, fun j hkj hj => heq ▸ h.sorted k j hkj hj⟩,
        Option.map_some]
    · intro hun
      have hbelow := hcond.resolve_left fun hrec => hrec.elim fun k hk => hun k hk.1 hk.2
      have hnone : found = none := by
        rw [Option.eq_none_iff_forall_ne_some]
        intro k hk
        have hlast := (hiff k).mp hk
        exact absurd hlast.le (hbelow k hlast.lt).not_ge
      rw [hnone, Option.map_none] at hfind
      refine ⟨hfind, ?_, unrecognised_of_none hfind⟩
      unfold allocsiteId
      simp only [h.getFile, hfind, bind, Except.bind]
      rfl

/-- A file at zero with the sites 0x100, 0x118 and 0x130. -/
def threeSites : Allocsites where
  vectorsByBaseId := fun _ => { count := 3, ptr := 0x100 }
  files := [{ sampleFile 0 3 with allocsitesInfo := some 0 }]

theorem threeSites_inFile (h : a < 2 ^ 24) : InFile sampleEnv threeSites a
    { sampleFile 0 3 with allocsitesInfo := some 0 } { count := 3, ptr := 0x100 } where
  getFile := by
    simp only [getFile, sampleEnv, Nat.div_eq_of_lt h]
    rfl
  slot := ⟨0, by decide, rfl, rfl⟩
  sorted := by
    intro j k hjk _
    change 0x100 + j * 24 < 0x100 + k * 24
    omega

/-- The second site, and an address below the first. -/
theorem findAllocsiteEntryAt_answered_sample :
    Answered sampleEnv threeSites (fun _ => 64) 0x118
      { sampleFile 0 3 with allocsitesInfo := some 0 } { count := 3, ptr := 0x100 }
    ∧ Answered sampleEnv threeSites (fun _ => 64) 0xff
      { sampleFile 0 3 with allocsitesInfo := some 0 } { count := 3, ptr := 0x100 } := by
  constructor
  · exact (findAllocsiteEntryAt_answered_iff _ _ _ _ _ _ Bsearch.lastLe_finds
      (threeSites_inFile (by decide))).mpr (.inl ⟨1, by decide, rfl⟩)
  · exact (findAllocsiteEntryAt_answered_iff _ _ _ _ _ _ Bsearch.lastLe_finds
      (threeSites_inFile (by decide))).mpr (.inr (by decide))

/-- **An address between two sites is taken for the lower one**: it has the entry and the id of that
site, and a heap chunk or a small object from there its type. -/
theorem findAllocsiteEntryAt_unrecorded :
    InFile sampleEnv threeSites 0x120 { sampleFile 0 3 with allocsitesInfo := some 0 }
      { count := 3, ptr := 0x100 }
    ∧ (∀ k < 3, siteVaddr sampleEnv { count := 3, ptr := 0x100 } k ≠ 0x120)
    ∧ threeSites.findAllocsiteEntryAt sampleEnv 0x120 = .ok (some 0x118)
    ∧ threeSites.allocsiteId sampleEnv 0x120 = .ok 1
    ∧ (let q := threeSites.queryEnv sampleEnv fun _ => 64
      let out := extractAndOutputAllocSiteAndType q (.ofInitial ⟨0, 0x120, 0, 0⟩)
      (out.err, out.outType) = (none, 64)
        ∧ (Entry.regularInitial 0x120 0 16).outTypeAndSite q = (none, 64, some 0x120)) :=
  ⟨threeSites_inFile (by decide), by decide, rfl, rfl, by decide, by decide⟩

end Liballocs.Allocsites
