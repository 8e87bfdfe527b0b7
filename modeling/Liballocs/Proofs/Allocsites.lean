/-
Which sequences of loads give every allocation site an id of its own.

`Loaded` describes the spine: the vectors follow each other, the last ends where the count of sites
ends, and every file with sites knows its vector.  A load keeps it while there is room in the spine
and the count stays below the largest id.  Nothing more general is true.
-/
import Mathlib.Data.Fintype.BigOperators
import Mathlib.Algebra.BigOperators.Fin
import Liballocs.Lib.Bsearch
import Liballocs.Allocsites

namespace Liballocs

theorem exists_of_bind_eq_ok {ε α β : Type} {x : Except ε α} {f : α → Except ε β} {b : β}
    (h : x >>= f = .ok b) : ∃ a, x = .ok a ∧ f a = .ok b := by
  cases x with
  | error e => exact nomatch h
  | ok a => exact ⟨a, rfl, h⟩

namespace AllocsFileMetadata

variable {env : AllocsiteEnv} {f : AllocsFileMetadata} {sym : FoundSym}

/-- The table of sites of a file, which only a file with a meta-object has. -/
def found (f : AllocsFileMetadata) : Option FoundSym :=
  if f.metaObjHandle = 0 then none else f.allocsites

/-- The number of entries in that table. -/
def nsites (env : AllocsiteEnv) (f : AllocsFileMetadata) : Nat :=
  match f.found with
  | none => 0
  | some sym => sym.stSize / env.sizeofEntry

/-- The address of an entry in it. -/
def siteEntry (env : AllocsiteEnv) (f : AllocsFileMetadata) (k : Nat) : Nat :=
  match f.found with
  | none => 0
  | some sym => Allocsites.entryAddr env sym.addr k

/-- The address of a site in the loaded file. -/
def siteAddr (env : AllocsiteEnv) (f : AllocsFileMetadata) (k : Nat) : Nat :=
  f.lAddr + env.allocsiteVaddr (f.siteEntry env k)

theorem nsites_of_found (h : f.found = some sym) : f.nsites env = sym.stSize / env.sizeofEntry := by
  unfold nsites
  rw [h]

theorem siteEntry_of_found (h : f.found = some sym) (k : Nat) :
    f.siteEntry env k = Allocsites.entryAddr env sym.addr k := by
  unfold siteEntry
  rw [h]

theorem exists_found {k : Nat} (hk : k < f.nsites env) : ∃ sym, f.found = some sym := by
  unfold nsites at hk
  cases h : f.found with
  | none =>
    rw [h] at hk
    exact absurd hk (Nat.not_lt_zero k)
  | some sym => exact ⟨sym, rfl⟩

end AllocsFileMetadata

/-- The file loaded as number `i` is `f`, and `k` is one of its sites. -/
def HasSite (env : AllocsiteEnv) (files : List AllocsFileMetadata) (i : Nat)
    (f : AllocsFileMetadata) (k : Nat) : Prop := files[i]? = some f ∧ k < f.nsites env

/-- What is documented of the arrays and of the code that is called. -/
structure AllocsiteEnv.Documented (env : AllocsiteEnv) (files : List AllocsFileMetadata) :
    Prop where
  sizeof_pos : 0 < env.sizeofEntry
  finds : Bsearch.Finds env.bsearchLeq
  /-- The records are sorted by the address of their site. -/
  sorted : ∀ f ∈ files, ∀ j k, j < k → k < f.nsites env →
    env.allocsiteVaddr (f.siteEntry env j) < env.allocsiteVaddr (f.siteEntry env k)
  /-- A site is in the bigalloc of its own file. -/
  getFile : ∀ i f k, HasSite env files i f k → env.getFile (f.siteAddr env k) = some i

namespace Allocsites

variable {env : AllocsiteEnv} {s s' : Allocsites} {f : AllocsFileMetadata}
  {fs gs files : List AllocsFileMetadata} {sym : FoundSym}

/-- The number of files that have a table. -/
def nvectors (files : List AllocsFileMetadata) : Nat := files.countP fun f => f.found.isSome

/-- The number of sites of all files. -/
def totalSites (env : AllocsiteEnv) (files : List AllocsFileMetadata) : Nat :=
  (files.map (AllocsFileMetadata.nsites env)).sum

/-- Every site has an id of its own, from which its entry and its address are found again. -/
structure Identified (env : AllocsiteEnv) (files : List AllocsFileMetadata) (s : Allocsites) :
    Prop where
  /-- The id of a site leads back to its entry and to its address, and is not `unknown`. -/
  back : ∀ i f k, HasSite env files i f k →
    ∃ id, s.allocsiteId env (f.siteAddr env k) = .ok id ∧ id ≠ allocsiteIdBound - 1
      ∧ s.allocsiteEntryById env id = .ok (some (f.siteEntry env k, f.lAddr))
      ∧ s.allocsiteById env id = .ok (f.siteAddr env k)
  /-- Distinct sites have distinct ids. -/
  inj : ∀ i f k i' f' k', HasSite env files i f k → HasSite env files i' f' k' →
    s.allocsiteId env (f.siteAddr env k) = s.allocsiteId env (f'.siteAddr env k') →
    i = i' ∧ k = k'

/-! ### The spine -/

/-- The invariant of loading: there is a vector for each file with a table, the ids of the vectors
follow each other in the order of loading, and the last one is that of the last site. -/
structure Loaded (env : AllocsiteEnv) (fs : List AllocsFileMetadata) (s : Allocsites) :
    Prop where
  used : s.idEntrySlotNextFree = nvectors fs
  length : s.files.length = fs.length
  /-- The vectors follow each other. -/
  follow : ∀ i j, i < j → j < s.idEntrySlotNextFree →
    (s.vectorsByBaseId i).startId + (s.vectorsByBaseId i).count ≤ (s.vectorsByBaseId j).startId
  empty : s.idEntrySlotNextFree = 0 → totalSites env fs = 0
  /-- The last one ends with the last site. -/
  last : ∀ j, s.idEntrySlotNextFree = j + 1 →
    (s.vectorsByBaseId j).startId + (s.vectorsByBaseId j).count = totalSites env fs
  /-- Every file with sites has a vector. -/
  file : ∀ (i : Nat) (f : AllocsFileMetadata) (sym : FoundSym), fs[i]? = some f → f.found = some sym →
    ∃ slot < s.idEntrySlotNextFree,
      s.files[i]? = some { f with allocsitesInfo := some slot }
      ∧ ∃ startId, s.vectorsByBaseId slot = ⟨startId, f.nsites env, f.lAddr, sym.addr⟩

theorem loaded_empty : Loaded env [] {} where
  used := rfl
  length := rfl
  follow := fun _ _ _ hj => absurd hj (Nat.not_lt_zero _)
  empty := fun _ => rfl
  last := fun _ hj => nomatch hj
  file := fun _ _ _ hf => nomatch hf

theorem Loaded.end_le_total (h : Loaded env fs s) {i : Nat} (hi : i < s.idEntrySlotNextFree) :
    (s.vectorsByBaseId i).startId + (s.vectorsByBaseId i).count ≤ totalSites env fs := by
  obtain ⟨j, hj⟩ : ∃ j, s.idEntrySlotNextFree = j + 1 := ⟨_, (Nat.sub_add_cancel (by omega)).symm⟩
  have hlast := h.last j hj
  rcases Nat.lt_or_eq_of_le (show i ≤ j by omega) with hij | rfl
  · have := h.follow i j hij (by omega)
    omega
  · exact hlast.le

theorem nvectors_snoc : nvectors (fs ++ [f]) = nvectors fs + if f.found.isSome then 1 else 0 := by
  simp [nvectors, List.countP_append, List.countP_singleton]

theorem totalSites_snoc : totalSites env (fs ++ [f]) = totalSites env fs + f.nsites env := by
  simp [totalSites]

/-! ### One load -/

theorem initAllocsitesInfo_none (hf : f.found = none) :
    initAllocsitesInfo env s f = .ok (s.addFile f) := by
  unfold initAllocsitesInfo
  unfold AllocsFileMetadata.found at hf
  split
  · rfl
  next h0 =>
    rw [if_neg h0] at hf
    rw [hf]
    rfl

theorem initAllocsitesInfo_some (hf : f.found = some sym) :
    initAllocsitesInfo env s f =
      if s.idEntrySlotNextFree > allocsitesIndexSize then .error .abort
      else do
        let startId ← s.nextStartId s.idEntrySlotNextFree
        let s' ← { s with
          idEntrySlotNextFree := (s.idEntrySlotNextFree + 1) % allocsiteIdBound }.write
            s.idEntrySlotNextFree
            ⟨startId, f.nsites env % allocsiteIdBound, f.lAddr, sym.addr⟩
        return s'.addFile { f with allocsitesInfo := some s.idEntrySlotNextFree } := by
  have hn : f.nsites env = _ := AllocsFileMetadata.nsites_of_found hf
  unfold initAllocsitesInfo
  unfold AllocsFileMetadata.found at hf
  split at hf
  · exact nomatch hf
  next h0 =>
    rw [if_neg h0, hf, hn]
    rfl

section

variable (h : Loaded env fs s)

include h

theorem Loaded.addFile (hf : f.found = none) :
    Loaded env (fs ++ [f]) (s.addFile f) := by
  have hn : nvectors (fs ++ [f]) = nvectors fs := by
    rw [nvectors_snoc, hf]
    rfl
  have ht : totalSites env (fs ++ [f]) = totalSites env fs := by
    rw [totalSites_snoc, AllocsFileMetadata.nsites, hf]
    rfl
  refine ⟨by rw [hn]; exact h.used, by simp [Allocsites.addFile, h.length], h.follow,
    by rw [ht]; exact h.empty, by rw [ht]; exact h.last, fun i g sym hg hsym => ?_⟩
  rcases Nat.lt_trichotomy i fs.length with hi | rfl | hi
  · rw [List.getElem?_append_left hi] at hg
    obtain ⟨slot, hlt, hfile, hvec⟩ := h.file i g sym hg hsym
    refine ⟨slot, hlt, ?_, hvec⟩
    rw [Allocsites.addFile, List.getElem?_append_left (by rw [h.length]; exact hi)]
    exact hfile
  · rw [List.getElem?_concat_length, Option.some_inj] at hg
    rw [← hg, hf] at hsym
    cases hsym
  · rw [List.getElem?_eq_none (by simp; omega)] at hg
    cases hg

theorem Loaded.nextStartId (hroom : nvectors fs ≤ allocsitesIndexSize)
    (htotal : totalSites env fs < allocsiteIdBound) :
    s.nextStartId s.idEntrySlotNextFree = .ok (totalSites env fs) := by
  unfold Allocsites.nextStartId
  cases hj : s.idEntrySlotNextFree with
  | zero =>
    rw [h.empty hj]
    rfl
  | succ j =>
    have hlast := h.last j hj
    have hused := h.used
    have hread : s.read j = .ok (s.vectorsByBaseId j) := if_pos (by omega)
    rw [if_neg (Nat.succ_ne_zero j), Nat.add_sub_cancel, hread]
    simp only [bind, Except.bind, hlast, Nat.mod_eq_of_lt htotal]
    rw [if_neg (by omega)]
    rfl

theorem Loaded.addVector (hf : f.found = some sym)
    (hroom : nvectors fs < allocsitesIndexSize)
    (htotal : totalSites env fs + f.nsites env < allocsiteIdBound) :
    ∃ s', initAllocsitesInfo env s f = .ok s' ∧ Loaded env (fs ++ [f]) s' := by
  have h256 : allocsitesIndexSize = 256 := rfl
  have h16 : allocsiteIdBound = 2 ^ 16 := rfl
  have hused := h.used
  have hn : nvectors (fs ++ [f]) = s.idEntrySlotNextFree + 1 := by
    rw [nvectors_snoc, hf, hused]
    rfl
  rw [initAllocsitesInfo_some hf, if_neg (by omega), h.nextStartId hroom.le (by omega)]
  simp only [bind, Except.bind, write, if_pos (show s.idEntrySlotNextFree < allocsitesIndexSize by omega)]
  refine ⟨_, rfl, ?_⟩
  simp only [Nat.mod_eq_of_lt (show f.nsites env < allocsiteIdBound by omega),
    Nat.mod_eq_of_lt (show s.idEntrySlotNextFree + 1 < allocsiteIdBound by omega)]
  refine ⟨hn.symm, by simp [Allocsites.addFile, h.length], fun i j hij hj => ?_,
    fun hc => absurd hc (Nat.succ_ne_zero _),
    fun j hj => ?_, fun i g sym' hg hsym => ?_⟩
  · simp only [Allocsites.addFile] at hj ⊢
    rw [if_neg (by omega)]
    split
    · exact h.end_le_total (by omega)
    · exact h.follow i j hij (by omega)
  · simp only [Allocsites.addFile] at hj ⊢
    rw [if_pos (by omega), totalSites_snoc]
  · rcases Nat.lt_trichotomy i fs.length with hi | rfl | hi
    · rw [List.getElem?_append_left hi] at hg
      obtain ⟨slot, hlt, hfile, startId, hvec⟩ := h.file i g sym' hg hsym
      refine ⟨slot, Nat.lt_succ_of_lt hlt, ?_, startId, ?_⟩
      · rw [Allocsites.addFile, List.getElem?_append_left (by rw [h.length]; exact hi)]
        exact hfile
      · simp only [Allocsites.addFile]
        rw [if_neg hlt.ne, hvec]
    · rw [List.getElem?_concat_length, Option.some_inj] at hg
      subst hg
      obtain rfl : sym = sym' := Option.some_inj.mp (hf.symm.trans hsym)
      refine ⟨_, Nat.lt_succ_self _, ?_, totalSites env fs, if_pos rfl⟩
      rw [Allocsites.addFile, ← h.length, List.getElem?_concat_length]
    · rw [List.getElem?_eq_none (by simp; omega)] at hg
      cases hg

/-! ### Runs of loads -/

/-- With room for every vector and ids for every site, all loads return. -/
theorem Loaded.foldlM (hroom : nvectors (fs ++ gs) ≤ allocsitesIndexSize)
    (htotal : totalSites env (fs ++ gs) < allocsiteIdBound) :
    ∃ s', gs.foldlM (initAllocsitesInfo env) s = .ok s' ∧ Loaded env (fs ++ gs) s' := by
  induction gs generalizing fs s with
  | nil => exact ⟨s, rfl, by rw [List.append_nil]; exact h⟩
  | cons f gs ih =>
    rw [List.append_cons] at hroom htotal ⊢
    have hmono : nvectors (fs ++ [f]) ≤ nvectors (fs ++ [f] ++ gs) :=
      (List.sublist_append_left _ gs).countP_le
    have hsum : totalSites env (fs ++ [f]) ≤ totalSites env (fs ++ [f] ++ gs) := by
      simp [totalSites]
    obtain ⟨s1, hs1, hl1⟩ : ∃ s1, initAllocsitesInfo env s f = .ok s1
        ∧ Loaded env (fs ++ [f]) s1 := by
      cases hf : f.found with
      | none => exact ⟨_, initAllocsitesInfo_none hf, h.addFile hf⟩
      | some sym =>
        rw [nvectors_snoc, hf] at hmono
        rw [totalSites_snoc] at hsum
        simp only [Option.isSome_some, if_true] at hmono
        exact h.addVector hf (by omega) (by omega)
    obtain ⟨s', hs', hl'⟩ := ih hl1 hroom htotal
    refine ⟨s', ?_, hl'⟩
    rw [List.foldlM_cons, hs1]
    exact hs'

end

theorem used_of_foldlM (h : gs.foldlM (initAllocsitesInfo env) s = .ok s')
    (hroom : s.idEntrySlotNextFree ≤ allocsitesIndexSize) :
    s.idEntrySlotNextFree + nvectors gs ≤ allocsitesIndexSize := by
  induction gs generalizing s with
  | nil => exact hroom
  | cons f gs ih =>
    obtain ⟨s1, hs1, hrest⟩ := exists_of_bind_eq_ok h
    have hcons : nvectors (f :: gs) = (if f.found.isSome then 1 else 0) + nvectors gs := by
      rw [nvectors, List.countP_cons, Nat.add_comm]
      rfl
    cases hf : f.found with
    | none =>
      rw [initAllocsitesInfo_none hf] at hs1
      cases hs1
      rw [hcons, hf]
      simp only [Option.isSome_none, Bool.false_eq_true, if_false, Nat.zero_add]
      have hnext := ih hrest
      exact hnext hroom
    | some sym =>
      rw [initAllocsitesInfo_some hf, if_neg hroom.not_gt] at hs1
      obtain ⟨startId, -, hs1⟩ := exists_of_bind_eq_ok hs1
      obtain ⟨s2, hs2, hs1⟩ := exists_of_bind_eq_ok hs1
      cases hs1
      unfold write at hs2
      split at hs2
      next hlt =>
        cases hs2
        have h256 : allocsitesIndexSize = 256 := rfl
        have h16 : allocsiteIdBound = 2 ^ 16 := rfl
        have hnext := ih hrest
        simp only [Allocsites.addFile, Nat.mod_eq_of_lt
          (show s.idEntrySlotNextFree + 1 < allocsiteIdBound by omega)] at hnext
        rw [hcons, hf]
        simp only [Option.isSome_some, if_true]
        omega
      next => exact nomatch hs2

/-! ### From a site to its id and back -/

section Site

variable {i k slot startId : Nat}

theorem entryAddr_index (h : 0 < env.sizeofEntry) (ptr k : Nat) :
    (entryAddr env ptr k - ptr) / env.sizeofEntry = k := by
  rw [entryAddr, Nat.add_sub_cancel_left, Nat.mul_div_cancel _ h]

theorem read_eq (hi : i < allocsitesIndexSize) : s.read i = .ok (s.vectorsByBaseId i) := if_pos hi

theorem allocsiteId_site (h : env.Documented files) (hsite : HasSite env files i f k)
    (hf : f.found = some sym) (hslot : slot < allocsitesIndexSize)
    (hfile : s.files[i]? = some { f with allocsitesInfo := some slot })
    (hvec : s.vectorsByBaseId slot = ⟨startId, f.nsites env, f.lAddr, sym.addr⟩) :
    s.allocsiteId env (f.siteAddr env k) = .ok ((startId + k) % allocsiteIdBound) := by
  have hget : s.getFile env (f.siteAddr env k) = some { f with allocsitesInfo := some slot } := by
    unfold getFile
    rw [h.getFile i f k hsite]
    exact hfile
  -- The records are sorted, so the search finds the site itself.
  have hstrict := h.sorted f (List.mem_of_getElem? hsite.1)
  simp only [AllocsFileMetadata.siteEntry_of_found hf] at hstrict
  have hsorted : Bsearch.Sorted (fun j => env.allocsiteVaddr (entryAddr env sym.addr j))
      (f.nsites env) := fun a b hab hb => by
    rcases Nat.lt_or_eq_of_le hab with hlt | rfl
    · exact (hstrict a b hlt hb).le
    · exact le_rfl
  have hfound := (h.finds _ _ (env.allocsiteVaddr (entryAddr env sym.addr k)) hsorted k).mpr
    ⟨hsite.2, le_rfl, fun j hkj hj => hstrict k j hkj hj⟩
  have hvaddr : f.siteAddr env k - f.lAddr = env.allocsiteVaddr (entryAddr env sym.addr k) := by
    rw [AllocsFileMetadata.siteAddr, Nat.add_sub_cancel_left,
      AllocsFileMetadata.siteEntry_of_found hf]
  have hentry : s.findAllocsiteEntryAt env (f.siteAddr env k)
      = .ok (some (entryAddr env sym.addr k)) := by
    simp only [findAllocsiteEntryAt, hget, read_eq hslot, hvec, bind, Except.bind, hvaddr, hfound]
    rfl
  simp only [allocsiteId, hget, hentry, read_eq hslot, hvec, bind, Except.bind,
    entryAddr_index h.sizeof_pos]
  rfl

theorem Loaded.allocsiteEntryById_eq (hl : Loaded env fs s) (h : Bsearch.Finds env.bsearchLeq)
    (hroom : nvectors fs ≤ allocsitesIndexSize) (hslot : slot < s.idEntrySlotNextFree)
    (hk : k < (s.vectorsByBaseId slot).count) :
    s.allocsiteEntryById env ((s.vectorsByBaseId slot).startId + k)
      = .ok (some (entryAddr env (s.vectorsByBaseId slot).ptr k,
          (s.vectorsByBaseId slot).fileBaseAddr)) := by
  have hused := hl.used
  have hsorted : Bsearch.Sorted (fun i => (s.vectorsByBaseId i).startId)
      s.idEntrySlotNextFree := fun a b hab hb => by
    rcases Nat.lt_or_eq_of_le hab with hlt | rfl
    · have := hl.follow a b hlt hb
      exact (Nat.le_add_right _ _).trans this
    · exact le_rfl
  have hfound := (h _ _ ((s.vectorsByBaseId slot).startId + k) hsorted slot).mpr
    ⟨hslot, Nat.le_add_right _ _, fun j hij hj => by
      have := hl.follow slot j hij hj
      show _ < (s.vectorsByBaseId j).startId
      omega⟩
  simp only [allocsiteEntryById, hfound, read_eq (show slot < allocsitesIndexSize by omega), bind,
    Except.bind, Nat.add_sub_cancel_left]
  rw [if_neg (by omega)]
  rfl

theorem Loaded.identified (hl : Loaded env files s) (h : env.Documented files)
    (hroom : nvectors files ≤ allocsitesIndexSize)
    (htotal : totalSites env files < allocsiteIdBound) : Identified env files s := by
  have hback : ∀ i f k, HasSite env files i f k →
      ∃ id, s.allocsiteId env (f.siteAddr env k) = .ok id ∧ id ≠ allocsiteIdBound - 1
        ∧ s.allocsiteEntryById env id = .ok (some (f.siteEntry env k, f.lAddr))
        ∧ s.allocsiteById env id = .ok (f.siteAddr env k) := by
    intro i f k hsite
    obtain ⟨sym, hf⟩ := AllocsFileMetadata.exists_found hsite.2
    obtain ⟨slot, hslot, hfile, startId, hvec⟩ := hl.file i f sym hsite.1 hf
    have hend := hl.end_le_total hslot
    have hk := hsite.2
    rw [hvec] at hend
    simp only at hend
    have hid := allocsiteId_site h hsite hf (by have := hl.used; omega) hfile hvec
    rw [Nat.mod_eq_of_lt (by omega)] at hid
    have hentry := hl.allocsiteEntryById_eq h.finds hroom hslot (by rw [hvec]; exact hk)
    rw [hvec, ← AllocsFileMetadata.siteEntry_of_found hf] at hentry
    refine ⟨startId + k, hid, by omega, hentry, ?_⟩
    unfold allocsiteById
    rw [hentry]
    rfl
  refine ⟨hback, fun i f k i' f' k' hsite hsite' heq => ?_⟩
  obtain ⟨id, hid, -, hentry, haddr⟩ := hback i f k hsite
  obtain ⟨id', hid', -, hentry', haddr'⟩ := hback i' f' k' hsite'
  rw [hid, hid'] at heq
  cases heq
  have hsame := Except.ok.inj (haddr.symm.trans haddr')
  -- The address decides the file, and the entry the index within it.
  have hi : i = i' := by
    have h1 := h.getFile i f k hsite
    rw [hsame, h.getFile i' f' k' hsite'] at h1
    exact (Option.some_inj.mp h1).symm
  subst hi
  obtain rfl : f = f' := Option.some_inj.mp (hsite.1.symm.trans hsite'.1)
  obtain ⟨sym, hf⟩ := AllocsFileMetadata.exists_found hsite.2
  have hents := congrArg Prod.fst (Option.some_inj.mp (Except.ok.inj (hentry.symm.trans hentry')))
  simp only [AllocsFileMetadata.siteEntry_of_found hf] at hents
  have := congrArg (fun e => (e - sym.addr) / env.sizeofEntry) hents
  simp only [entryAddr_index h.sizeof_pos] at this
  exact ⟨rfl, this⟩

/-! ### Counting -/

theorem allocsiteId_lt {a id : Nat} (h : s.allocsiteId env a = .ok id) : id < allocsiteIdBound := by
  have hpos : 0 < allocsiteIdBound := by decide
  unfold allocsiteId at h
  split at h
  · cases h
    exact hpos
  · obtain ⟨entry, -, h⟩ := exists_of_bind_eq_ok h
    split at h
    · obtain ⟨info, -, h⟩ := exists_of_bind_eq_ok h
      cases h
      exact Nat.mod_lt _ hpos
    · cases h
      exact Nat.sub_lt hpos Nat.one_pos

theorem Identified.totalSites_lt (h : Identified env files s) :
    totalSites env files < allocsiteIdBound := by
  have hsite : ∀ p : (i : Fin files.length) × Fin (files[i].nsites env),
      HasSite env files p.1 files[p.1] p.2 := fun p =>
    ⟨List.getElem?_eq_getElem p.1.2, p.2.2⟩
  choose id hid hne _ using fun p => h.back _ _ _ (hsite p)
  have hlt : ∀ p, id p < allocsiteIdBound - 1 := fun p => by
    have := allocsiteId_lt (hid p)
    have := hne p
    omega
  have hinj : Function.Injective fun p => (⟨id p, hlt p⟩ : Fin (allocsiteIdBound - 1)) := by
    intro p q hpq
    have hpq : id p = id q := congrArg Fin.val hpq
    obtain ⟨hi, hk⟩ := h.inj _ _ _ _ _ _ (hsite p) (hsite q) (by rw [hid, hid, hpq])
    obtain ⟨i, k⟩ := p
    obtain ⟨j, l⟩ := q
    obtain rfl : i = j := Fin.ext hi
    obtain rfl : k = l := Fin.ext hk
    rfl
  have hcard := Fintype.card_le_of_injective _ hinj
  rw [Fintype.card_sigma, Fintype.card_fin] at hcard
  simp only [Fintype.card_fin] at hcard
  have hsum : totalSites env files = ∑ i : Fin files.length, files[i].nsites env := by
    rw [totalSites, ← List.sum_ofFn]
    congr 1
    exact (List.ofFn_getElem_eq_map files _).symm
  have : 0 < allocsiteIdBound := by decide
  omega

end Site

/-- A sequence of loads returns, without leaving the spine, and identifies all allocation sites if and
only if the spine has room for every array and there are ids, besides `unknown`, for all sites. -/
theorem load_identified_iff (h : env.Documented files) :
    (∃ s, load env files = .ok s ∧ Identified env files s)
      ↔ nvectors files ≤ allocsitesIndexSize ∧ totalSites env files < allocsiteIdBound := by
  constructor
  · rintro ⟨s, hs, hid⟩
    have hused := used_of_foldlM hs (Nat.zero_le _)
    exact ⟨by simpa using hused, hid.totalSites_lt⟩
  · rintro ⟨hroom, htotal⟩
    obtain ⟨s, hs, hl⟩ : ∃ s, load env files = .ok s ∧ Loaded env files s :=
      loaded_empty.foldlM hroom htotal
    exact ⟨s, hs, hl.identified h hroom htotal⟩

/-! ### Samples -/

/-- Records of three words, of which the site is at the same address; files of 64 KiB. -/
def sampleEnv : AllocsiteEnv where
  sizeofEntry := 24
  allocsiteVaddr := fun a => a
  bsearchLeq := Bsearch.lastLe
  getFile := fun a => some (a / 2 ^ 24)

/-- A file with so many sites, its number in the order of loading given. -/
def sampleFile (i n : Nat) : AllocsFileMetadata :=
  { metaObjHandle := 1, lAddr := i * 2 ^ 24, allocsites := some ⟨0x100, n * 24⟩ }

theorem nsites_sampleFile (i n : Nat) : (sampleFile i n).nsites sampleEnv = n := by
  rw [AllocsFileMetadata.nsites_of_found (f := sampleFile i n) rfl]
  exact Nat.mul_div_cancel _ (by decide)

/-- Files with these numbers of sites. -/
def sampleFiles (ns : List Nat) : List AllocsFileMetadata := ns.mapIdx sampleFile

theorem sampleEnv_documented {ns : List Nat} (hns : ∀ n ∈ ns, n ≤ 2 ^ 16) :
    sampleEnv.Documented (sampleFiles ns) where
  sizeof_pos := by decide
  finds := Bsearch.lastLe_finds
  sorted := by
    intro f hf j k hjk _
    obtain ⟨i, hi, rfl⟩ := List.mem_mapIdx.mp hf
    show 0x100 + j * 24 < 0x100 + k * 24
    omega
  getFile := by
    rintro i f k ⟨hf, hk⟩
    rw [sampleFiles, List.getElem?_mapIdx, Option.map_eq_some_iff] at hf
    obtain ⟨n, hn, rfl⟩ := hf
    have hle := hns n (List.mem_of_getElem? hn)
    rw [nsites_sampleFile] at hk
    show some ((i * 2 ^ 24 + (0x100 + k * 24)) / 2 ^ 24) = some i
    rw [Option.some_inj]
    omega

theorem load_identified_sample :
    ∃ s, load sampleEnv (sampleFiles [3, 0, 2]) = .ok s
      ∧ Identified sampleEnv (sampleFiles [3, 0, 2]) s :=
  (load_identified_iff (sampleEnv_documented (by decide))).mpr ⟨by decide, by decide⟩

/-- A site of a file with 65536 sites has the id of `unknown`, and the 257th file with sites is
entered past the end of the spine. -/
theorem load_not_identified :
    (sampleEnv.Documented (sampleFiles [65536])
      ∧ HasSite sampleEnv (sampleFiles [65536]) 0 (sampleFile 0 65536) 0
      ∧ (load sampleEnv (sampleFiles [65536]) >>= fun s =>
          s.allocsiteId sampleEnv ((sampleFile 0 65536).siteAddr sampleEnv 0))
        = .ok (allocsiteIdBound - 1))
    ∧ sampleEnv.Documented (sampleFiles (List.replicate 257 0))
    ∧ load sampleEnv (sampleFiles (List.replicate 257 0)) = .error .outOfRange := by
  refine ⟨⟨sampleEnv_documented (by decide), ⟨rfl, by decide⟩, rfl⟩,
    sampleEnv_documented fun n hn => ?_, ?_⟩
  · rw [List.eq_of_mem_replicate hn]
    decide
  · set_option maxRecDepth 20000 in rfl

end Allocsites

end Liballocs
