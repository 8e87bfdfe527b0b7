/-
The views of an insert, and which words each of them is told apart by.

Whether an insert holds a type is read off the twelve highest bits of the shifted uniqtype, which are
clear below `2 ^ 35` and for null.  A rewritten insert has its lifetime policies cleared.
-/
import Liballocs.GenericMallocQuery

namespace Liballocs.Insert

variable {ins : Insert} {u : Nat} {q : QueryEnv}

/-! ### The views -/

@[simp] theorem initial_ofInitial (v : InsertInitial) : (ofInitial v).initial = v := by
  unfold ofInitial initial
  ext i hi <;> simp <;> grind

@[simp] theorem withType_ofWithType (v : InsertWithType) : (ofWithType v).withType = v := by
  unfold ofWithType withType
  ext i hi <;> simp <;> grind

@[simp] theorem lifetimePolicies_ofWithType (v : InsertWithType) :
    (ofWithType v).lifetimePolicies = v.lifetimePolicies :=
  congrArg InsertWithType.lifetimePolicies (withType_ofWithType v)

theorem unused_eq (ins : Insert) :
    ins.initial.unused = ins.withType.uniqtypeShifted.extractLsb' 32 12 := by
  unfold initial withType
  ext i hi
  simp
  grind

theorem isWithType_iff : ins.isWithType = true ↔ 2 ^ 32 ≤ ins.withType.uniqtypeShifted.toNat := by
  unfold isWithType
  rw [bne_iff_ne, unused_eq, Ne, ← BitVec.toNat_inj, BitVec.extractLsb'_toNat,
    Nat.shiftRight_eq_div_pow]
  simp only [BitVec.ofNat_eq_ofNat, BitVec.toNat_ofNat]
  omega

/-! ### An insert with a type -/

section

variable (id : BitVec 15)

include id

theorem typed_uniqtypeShifted (hu : u < 2 ^ 47) :
    (typed u id).withType.uniqtypeShifted.toNat = u / 8 := by
  simp only [typed, withType_ofWithType, BitVec.toNat_ofNat, uniqtypeShiftForInsert,
    Nat.shiftRight_eq_div_pow]
  omega

theorem typed_uniqtype (h8 : 8 ∣ u) (hu : u < 2 ^ 47) : (typed u id).uniqtype = u := by
  rw [Insert.uniqtype, typed_uniqtypeShifted id hu, uniqtypeUnshiftFromInsert, Nat.shiftLeft_eq]
  omega

theorem typed_isWithType (hu : u < 2 ^ 47) : (typed u id).isWithType = true ↔ 2 ^ 35 ≤ u := by
  rw [isWithType_iff, typed_uniqtypeShifted id hu]
  omega

@[simp] theorem typed_lifetimePolicies : (typed u id).lifetimePolicies = 0 := by
  rw [typed, lifetimePolicies_ofWithType]

@[simp] theorem typed_allocSiteId : (typed u id).allocSiteId = id.signExtend 16 := by
  rw [Insert.allocSiteId, typed, withType_ofWithType]

end

/-- Does the number fit a signed field of 15 bits? -/
def IdFits (id : BitVec 16) : Prop := id.toNat < 2 ^ 14 ∨ 2 ^ 16 - 2 ^ 14 ≤ id.toNat

instance (id : BitVec 16) : Decidable (IdFits id) := inferInstanceAs (Decidable (_ ∨ _))

theorem signExtend_setWidth_iff (id : BitVec 16) :
    (id.setWidth 15).signExtend 16 = id ↔ IdFits id := by
  rw [← BitVec.toNat_inj, BitVec.toNat_signExtend, BitVec.msb_eq_decide]
  simp only [BitVec.toNat_setWidth, IdFits, decide_eq_true_eq]
  split <;> omega

theorem extract_typed (id : BitVec 15) (h8 : 8 ∣ u) (h35 : 2 ^ 35 ≤ u) (hu : u < 2 ^ 47) :
    extractAndOutputAllocSiteAndType q (typed u id) = { outType := u, insert := typed u id } := by
  unfold extractAndOutputAllocSiteAndType
  rw [if_pos ((typed_isWithType id hu).mpr h35), typed_uniqtype id h8 hu, if_neg (by omega : u ≠ 0)]

/-! ### The result -/

/-- The insert was rewritten with a type and says so, and otherwise says what it did. -/
structure TypeWritten (old new : Insert) (uniqtype : Nat) (id : BitVec 16) : Prop where
  isWithType : new.isWithType = true
  uniqtype : new.uniqtype = uniqtype
  allocSiteId : new.allocSiteId = id
  lifetimePolicies : new.lifetimePolicies = old.lifetimePolicies

theorem typeWritten_typed_iff (id : BitVec 16) (h8 : 8 ∣ u) (hu : u < 2 ^ 47) :
    TypeWritten ins (typed u (id.setWidth 15)) u id
      ↔ 2 ^ 35 ≤ u ∧ ins.lifetimePolicies = 0 ∧ IdFits id := by
  constructor
  · intro h
    refine ⟨(typed_isWithType _ hu).mp h.isWithType, ?_, ?_⟩
    · rw [← h.lifetimePolicies, typed_lifetimePolicies]
    · rw [← signExtend_setWidth_iff, ← typed_allocSiteId (u := u)]
      exact h.allocSiteId
  · rintro ⟨h35, hlife, hid⟩
    refine ⟨(typed_isWithType _ hu).mpr h35, typed_uniqtype _ h8 hu, ?_, ?_⟩
    · rw [typed_allocSiteId, signExtend_setWidth_iff]
      exact hid
    · rw [typed_lifetimePolicies, hlife]

/-- The number of the allocation site that `__generic_malloc_set_type` writes. -/
def idToSet (q : QueryEnv) (ins : Insert) : BitVec 16 := (ins.existingAllocSiteId q).setWidth 16

/-- The number that `extract_and_output_alloc_site_and_type` writes: -1 for a nulled site. -/
def idToInstall (q : QueryEnv) (ins : Insert) (uniqtype : Nat) : BitVec 16 :=
  if uniqtype = 0 then -1 else q.allocsiteId ins.initial.allocSite.toNat

theorem setType_eq : ins.setType q u = typed u ((ins.idToSet q).setWidth 15) := by
  rw [setType, idToSet, BitVec.setWidth_setWidth_of_le _ (by decide)]

theorem extract_insert (hq : q.ndebug = true) (hins : ins.isWithType = false)
    (hu : (q.findAllocsiteEntryAt ins.initial.allocSite.toNat).getD 0 = u) :
    (extractAndOutputAllocSiteAndType q ins).insert
      = typed u ((ins.idToInstall q u).setWidth 15) := by
  unfold extractAndOutputAllocSiteAndType idToInstall
  simp only [hins, hq, hu, Bool.false_eq_true, if_false, if_true]
  split
  · rename_i h0
    rw [h0]
    rfl
  · rfl

/-- **A rewritten insert reads back right exactly when its uniqtype is at or above `2 ^ 35`, its
allocation site fits the field, and it had no lifetime policies.**  A fresh insert reads back right.
-/
theorem insert_rewritten_iff (q : QueryEnv) (hq : q.ndebug = true) (ins : Insert) :
    (∀ u, 8 ∣ u → u < 2 ^ 47 →
      (TypeWritten ins (ins.setType q u) u (ins.idToSet q)
        ↔ 2 ^ 35 ≤ u ∧ ins.lifetimePolicies = 0 ∧ IdFits (ins.idToSet q)))
    ∧ (∀ u, ins.isWithType = false →
      (q.findAllocsiteEntryAt ins.initial.allocSite.toNat).getD 0 = u → 8 ∣ u → u < 2 ^ 47 →
      (TypeWritten ins (extractAndOutputAllocSiteAndType q ins).insert u (ins.idToInstall q u)
        ↔ 2 ^ 35 ≤ u ∧ ins.lifetimePolicies = 0 ∧ IdFits (ins.idToInstall q u)))
    ∧ ∀ site, site < 2 ^ 47 → (ins.setAllocSite site).isWithType = false
      ∧ (ins.setAllocSite site).initial.allocSite.toNat = site := by
  refine ⟨fun u h8 hu => ?_, fun u hins hfind h8 hu => ?_, fun site hsite => ⟨?_, ?_⟩⟩
  · rw [setType_eq]
    exact typeWritten_typed_iff _ h8 hu
  · rw [extract_insert hq hins hfind]
    exact typeWritten_typed_iff _ h8 hu
  · rw [isWithType, setAllocSite, initial_ofInitial]
    rfl
  · rw [setAllocSite, initial_ofInitial, BitVec.toNat_ofNat, Nat.mod_eq_of_lt hsite]

/-- Every site is known, with the number 7 and a uniqtype far up. -/
def sampleQuery : QueryEnv where
  findAllocsiteEntryAt := fun _ => some (2 ^ 40)
  allocsiteId := fun _ => 7

/-- A program that knows none of its allocation sites. -/
def sampleUnknown : QueryEnv where
  allocsiteId := fun _ => 16384

/-- An insert as an insertion leaves it, with the given lifetime policies in it. -/
def sampleInsert (lifetimePolicies : BitVec 4) : Insert := ofInitial ⟨0, 4198400, 0, lifetimePolicies⟩

/-- A fresh insert given a type, both ways. -/
theorem insert_rewritten_sample :
    TypeWritten (sampleInsert 0) ((sampleInsert 0).setType sampleQuery (2 ^ 40)) (2 ^ 40)
        ((sampleInsert 0).idToSet sampleQuery)
      ∧ TypeWritten (sampleInsert 0)
        (extractAndOutputAllocSiteAndType sampleQuery (sampleInsert 0)).insert (2 ^ 40)
        ((sampleInsert 0).idToInstall sampleQuery (2 ^ 40)) := by
  obtain ⟨h1, h2, -⟩ := insert_rewritten_iff sampleQuery rfl (sampleInsert 0)
  exact ⟨(h1 (2 ^ 40) (by decide) (by decide)).mpr (by decide),
    (h2 (2 ^ 40) (by decide) rfl (by decide) (by decide)).mpr (by decide)⟩

/-- A null uniqtype, or one below `2 ^ 35`, is not recognised; the lifetime policies are lost; and
16384 comes back as another number. -/
theorem insert_rewritten_wrong :
    (extractAndOutputAllocSiteAndType sampleUnknown (sampleInsert 1)).insert.isWithType = false
      ∧ ((sampleInsert 1).setType sampleUnknown 6295552).isWithType = false
      ∧ (sampleInsert 1).lifetimePolicies = 1
      ∧ ((sampleInsert 1).setType sampleUnknown (2 ^ 40)).lifetimePolicies = 0
      ∧ (sampleInsert 1).idToSet sampleUnknown = 16384
      ∧ ((sampleInsert 1).setType sampleUnknown (2 ^ 40)).allocSiteId = 49152 := by
  decide

end Liballocs.Insert
