/-
The adjacency list of an object.

It should have a node for each pointer among the subobjects of the object, at whatever depth.  The
flattening goes from a type to its elements or members, takes the pointers among them, and goes on from
those that are composites.  It does not go on from arrays: an array is flattened when it is the whole
object, but not when it is a member or an element.

What is in such an array is missing, and nothing else is.  So the list is right if and only if no
pointer in such an array would be followed.
-/
import Liballocs.Lib.Descent
import Liballocs.Proofs.UniqtypeBfs

namespace Liballocs

open Descent

/-! ### The subobjects of a type -/

/-- The elements or members of a type, with their offsets. -/
def Uniqtype.subobjects (types : Nat → Uniqtype) (u : Uniqtype) : List (Nat × Nat) :=
  match u.un with
  | .array nelems => (List.range nelems).map fun i =>
    (u.arrayElementType, i * (types u.arrayElementType).posMaxoff)
  | .composite nmemb => (List.range nmemb).map fun i => ((u.rel i).ptr, (u.rel i).off)
  | _ => []

/-- A subobject: its type, and where it starts in the object. -/
structure Place where
  t : Nat
  start : Nat := 0
deriving DecidableEq, Repr

namespace Place

/-- The elements or members of a subobject. -/
def subobjectsOf (types : Nat → Uniqtype) (x : Place) : List Place :=
  ((types x.t).subobjects types).map fun p => ⟨p.1, x.start + p.2⟩

/-- The subobjects at any depth, of a type that nests to a depth of `n`. -/
def subobjects (types : Nat → Uniqtype) (n : Nat) (x : Place) : List Place :=
  descend (subobjectsOf types) n x

end Place

/-- `UNIQTYPE_FOR_EACH_SUBOBJECT` goes through the elements or members of every type, and the void type
and null have none. -/
structure BfsEnv.ForEach (env : BfsEnv) : Prop where
  each : ∀ t, env.forEachSubobject t = (env.types t).subobjects env.types
  void : (env.types env.voidType).subobjects env.types = []
  null : (env.types 0).subobjects env.types = []

variable {env : BfsEnv} {obj n m fuel : Nat} {x v w : Place}

/-- The node that a pointer among the subobjects of an object leads to: its value, which is read at the
subobject's own address, is not null and plausible, and `follow_ptr` does not make it null. -/
def pointedTo (env : BfsEnv) (obj : Nat) (v : Place) : List NodeRec :=
  let value := env.pointerAt (obj + v.start)
  let followed := env.followPtr value (env.types v.t).pointeeType
  if (env.types v.t).isPointerType ∧ value ≠ 0 ∧ isPlausiblePointer value ∧ followed.1 ≠ 0 then
    [⟨followed.1, followed.2⟩]
  else []

/-- The nodes for all pointers among the subobjects, of a type that nests to a depth of `n`. -/
def pointedToWithin (env : BfsEnv) (obj n : Nat) (x : Place) : List NodeRec :=
  (x.subobjects env.types n).flatMap (pointedTo env obj)

/-- What the flattening finds: it only goes on from composites. -/
def flattened (env : BfsEnv) (obj : Nat) : Nat → Place → List NodeRec
  | 0, _ => []
  | n + 1, x => (x.subobjectsOf env.types).flatMap fun v =>
      pointedTo env obj v
        ++ if (env.types v.t).isCompositeType then flattened env obj n v else []

theorem pointedToWithin_succ : pointedToWithin env obj (n + 1) x
    = (x.subobjectsOf env.types).flatMap fun v =>
      pointedTo env obj v ++ pointedToWithin env obj n v := by
  rw [pointedToWithin, Place.subobjects, descend, List.flatMap_assoc]
  refine List.flatMap_congr fun v _ => ?_
  rw [List.flatMap_cons]
  rfl

/-! ### The flattening -/

theorem visitPointer_eq (hptr : (env.types v.t).isPointerType = true) :
    visitPointer env (obj + v.start) (env.types v.t).pointeeType = pointedTo env obj v := by
  unfold visitPointer pointedTo
  simp only [hptr, true_and]
  by_cases hvalue : env.pointerAt (obj + v.start) ≠ 0
      ∧ isPlausiblePointer (env.pointerAt (obj + v.start)) = true
  · rw [if_pos hvalue]
    simp only [ne_eq, hvalue.1, hvalue.2, not_false_eq_true, true_and]
  · rw [if_neg hvalue, if_neg fun hc => hvalue ⟨hc.1, hc.2.1⟩]

theorem pointedTo_of_not_pointer (hptr : (env.types v.t).isPointerType ≠ true) :
    pointedTo env obj v = [] := if_neg fun hc => hptr hc.1

theorem isCompositeType_of_pointer {u : Uniqtype} (h : u.isPointerType = true) :
    u.isCompositeType = false := by
  unfold Uniqtype.isPointerType at h
  unfold Uniqtype.isCompositeType
  cases hun : u.un <;> simp_all

/-- One level of the flattening; it may as well go through the void type and null. -/
theorem BfsEnv.ForEach.buildAdjacencyListRecursive_succ (h : env.ForEach) (x : Place) :
    buildAdjacencyListRecursive env obj (fuel + 1) x.start x.t
      = ((x.subobjectsOf env.types).mapM fun v =>
          if (env.types v.t).isPointerType then
            some (visitPointer env (obj + v.start) (env.types v.t).pointeeType)
          else if (env.types v.t).isCompositeType then
            buildAdjacencyListRecursive env obj fuel v.start v.t
          else some []).map List.flatten := by
  rw [buildAdjacencyListRecursive, Place.subobjectsOf]
  by_cases hvoid : x.t = env.voidType
  · rw [hvoid, h.void, if_pos rfl]
    rfl
  · rw [if_neg hvoid]
    by_cases hnull : x.t = 0
    · rw [hnull, h.null, if_pos rfl]
      rfl
    · rw [if_neg hnull, h.each, List.mapM_map, Option.map_eq_bind]
      simp only [Function.comp_def, Nat.add_assoc]
      rfl

/-- With fuel beyond the depth of the type, the flattening returns what it finds. -/
theorem buildAdjacencyListRecursive_eq (hall : env.ForEach)
    (hends : Ends (Place.subobjectsOf env.types) n x) (hf : n < fuel) :
    buildAdjacencyListRecursive env obj fuel x.start x.t = some (flattened env obj n x) := by
  induction n generalizing fuel x with
  | zero =>
    obtain ⟨fuel, rfl⟩ : ∃ k, fuel = k + 1 := ⟨_, (Nat.sub_add_cancel hf).symm⟩
    have hnil : x.subobjectsOf env.types = [] := hends
    rw [hall.buildAdjacencyListRecursive_succ, hnil]
    rfl
  | succ n ih =>
    obtain ⟨fuel, rfl⟩ : ∃ k, fuel = k + 1 := ⟨_, (Nat.sub_add_cancel (by omega)).symm⟩
    rw [hall.buildAdjacencyListRecursive_succ]
    rw [mapM_eq_some (g := fun v => pointedTo env obj v
      ++ if (env.types v.t).isCompositeType then flattened env obj n v else [])]
    · rfl
    · intro v hv
      by_cases hptr : (env.types v.t).isPointerType = true
      · rw [if_pos hptr, visitPointer_eq hptr, isCompositeType_of_pointer hptr]
        simp
      · rw [if_neg hptr, pointedTo_of_not_pointer hptr, List.nil_append]
        by_cases hcomp : (env.types v.t).isCompositeType = true
        · rw [if_pos hcomp, if_pos hcomp]
          exact ih (hends v hv) (by omega)
        · rw [if_neg hcomp, if_neg hcomp]

/-! ### What is missing -/

/-- Lists that are joined from shorter and longer parts are only equal if the parts are. -/
theorem flatMap_eq_iff_of_sublist {α β : Type} {l : List α} {f g : α → List β}
    (h : ∀ a ∈ l, (f a).Sublist (g a)) : l.flatMap f = l.flatMap g ↔ ∀ a ∈ l, f a = g a := by
  refine ⟨fun heq => ?_, List.flatMap_congr⟩
  induction l with
  | nil => exact fun a ha => absurd ha List.not_mem_nil
  | cons a l ih =>
    have hl : ∀ b ∈ l, (f b).Sublist (g b) := fun b hb => h b (List.mem_cons_of_mem a hb)
    have ha := h a List.mem_cons_self
    have hrest : (l.flatMap f).Sublist (l.flatMap g) := List.Sublist.flatMap_right l hl
    have hlength := congrArg List.length heq
    rw [List.flatMap_cons, List.flatMap_cons, List.length_append, List.length_append] at hlength
    have hlea := ha.length_le
    have hler := hrest.length_le
    have hfirst : f a = g a := ha.eq_of_length (by omega)
    have hothers := ih hl (hrest.eq_of_length (by omega))
    exact List.forall_mem_cons.mpr ⟨hfirst, hothers⟩

/-- The flattening finds nothing but what is there. -/
theorem flattened_sublist : (flattened env obj n x).Sublist (pointedToWithin env obj n x) := by
  induction n generalizing x with
  | zero => exact List.Sublist.slnil
  | succ n ih =>
    rw [flattened, pointedToWithin_succ]
    refine List.Sublist.flatMap_right _ fun v _ => List.Sublist.append_left ?_ _
    split
    · exact ih
    · exact List.nil_sublist _

theorem pointedToWithin_eq_nil : pointedToWithin env obj n x = []
    ↔ ∀ w ∈ x.subobjects env.types n, pointedTo env obj w = [] := List.flatMap_eq_nil_iff

/-- No pointer in an array below would be followed. -/
def ArraysLeadNowhere (env : BfsEnv) (obj n : Nat) (x : Place) : Prop :=
  ∀ v ∈ x.subobjects env.types n, (env.types v.t).isArrayType = true →
    ∀ w ∈ v.subobjects env.types n, pointedTo env obj w = []

instance : Decidable (ArraysLeadNowhere env obj n x) :=
  inferInstanceAs (Decidable (∀ v ∈ x.subobjects env.types n, (env.types v.t).isArrayType = true →
    ∀ w ∈ v.subobjects env.types n, pointedTo env obj w = []))

theorem arraysLeadNowhere_succ (hends : Ends (Place.subobjectsOf env.types) (n + 1) x) :
    ArraysLeadNowhere env obj (n + 1) x ↔ ∀ v ∈ x.subobjectsOf env.types,
      ((env.types v.t).isArrayType = true → pointedToWithin env obj n v = [])
        ∧ ArraysLeadNowhere env obj n v := by
  have hsame : ∀ v ∈ x.subobjectsOf env.types, ∀ w, w = v ∨ w ∈ v.subobjects env.types n →
      w.subobjects env.types (n + 1) = w.subobjects env.types n := by
    intro v hv w hw
    have hbelow : Ends (Place.subobjectsOf env.types) n v := hends v hv
    rcases hw with rfl | hw
    · exact hbelow.descend_succ
    · exact (hbelow.below hw).descend_succ
  constructor
  · intro h v hv
    refine ⟨fun harray => ?_, fun w hw harray => ?_⟩
    · have hnone := h v (mem_descend_succ.mpr ⟨v, hv, .inl rfl⟩) harray
      rw [hsame v hv v (.inl rfl)] at hnone
      exact pointedToWithin_eq_nil.mpr hnone
    · have hnone := h w (mem_descend_succ.mpr ⟨v, hv, .inr hw⟩) harray
      rwa [hsame v hv w (.inr hw)] at hnone
  · intro h w hw harray
    obtain ⟨v, hv, hwv⟩ := mem_descend_succ.mp hw
    rw [hsame v hv w hwv]
    rcases hwv with rfl | hwv
    · exact pointedToWithin_eq_nil.mp ((h w hv).1 harray)
    · exact (h v hv).2 w hwv harray

/-- If there is nothing to find, there is nothing to find in arrays. -/
theorem arraysLeadNowhere_of_nil (hends : Ends (Place.subobjectsOf env.types) n x)
    (hnil : pointedToWithin env obj n x = []) : ArraysLeadNowhere env obj n x := by
  intro v hv _ w hw
  exact pointedToWithin_eq_nil.mp hnil w (hends.mem_descend_trans hv hw)

theorem pointedToWithin_of_leaf (harray : (env.types x.t).isArrayType = false)
    (hcomp : (env.types x.t).isCompositeType = false) : pointedToWithin env obj n x = [] := by
  have hnil : x.subobjectsOf env.types = [] := by
    unfold Uniqtype.isArrayType at harray
    unfold Uniqtype.isCompositeType at hcomp
    unfold Place.subobjectsOf Uniqtype.subobjects
    cases hun : (env.types x.t).un <;> simp_all
  cases n with
  | zero => rfl
  | succ n => rw [pointedToWithin_succ, hnil, List.flatMap_nil]

theorem isArrayType_of_composite {u : Uniqtype} (h : u.isCompositeType = true) :
    u.isArrayType = false := by
  unfold Uniqtype.isCompositeType at h
  unfold Uniqtype.isArrayType
  cases hun : u.un <;> simp_all

/-- The flattening finds all there is if and only if arrays below lead nowhere. -/
theorem flattened_eq_iff (hends : Ends (Place.subobjectsOf env.types) n x) :
    flattened env obj n x = pointedToWithin env obj n x ↔ ArraysLeadNowhere env obj n x := by
  induction n generalizing x with
  | zero => exact iff_of_true rfl fun v hv => absurd hv List.not_mem_nil
  | succ n ih =>
    rw [arraysLeadNowhere_succ hends, flattened, pointedToWithin_succ, flatMap_eq_iff_of_sublist]
    · refine forall₂_congr fun v hv => ?_
      rw [List.append_right_inj]
      have hbelow : Ends (Place.subobjectsOf env.types) n v := hends v hv
      by_cases hcomp : (env.types v.t).isCompositeType = true
      · -- a composite is gone on from
        rw [if_pos hcomp, isArrayType_of_composite hcomp]
        simpa using ih hbelow
      · rw [if_neg hcomp, eq_comm]
        constructor
        · intro hnil
          exact ⟨fun _ => hnil, arraysLeadNowhere_of_nil hbelow hnil⟩
        · intro h
          by_cases harray : (env.types v.t).isArrayType = true
          · exact h.1 harray
          · exact pointedToWithin_of_leaf (Bool.eq_false_iff.mpr harray) (Bool.eq_false_iff.mpr hcomp)
    · intro v _
      refine List.Sublist.append_left ?_ _
      split
      · exact flattened_sublist
      · exact List.nil_sublist _

/-! ### The list that is built -/

/-- **The adjacency list is exact if and only if no pointer in an array that is a member or an element
is followed**: for every type that nests to a finite depth, it then has one node for each pointer among
the subobjects that is followed, and no other. -/
theorem buildAdjacencyListRecursive_exact_iff (env : BfsEnv) (obj t n fuel : Nat)
    (hall : env.ForEach) (hends : Ends (Place.subobjectsOf env.types) n { t := t }) (hf : n < fuel) :
    (∃ l, buildAdjacencyListRecursive env obj fuel 0 t = some l
      ∧ l.Perm (pointedToWithin env obj n { t := t }))
      ↔ ArraysLeadNowhere env obj n { t := t } := by
  have hbuilt : buildAdjacencyListRecursive env obj fuel 0 t
      = some (flattened env obj n { t := t }) := buildAdjacencyListRecursive_eq hall hends hf
  rw [← flattened_eq_iff hends]
  constructor
  · rintro ⟨l, hl, hperm⟩
    obtain rfl := Option.some_inj.mp (hbuilt.symm.trans hl)
    exact flattened_sublist.eq_of_length hperm.length_eq
  · intro h
    exact ⟨_, hbuilt, List.Perm.of_eq h⟩

/-- Pointers (1), an array of two of them (2), a structure with such an array and a pointer (3), and one
with a pointer and a structure of a pointer (4, 5). -/
def arrayTypes : Nat → Uniqtype
  | 1 => { posMaxoff := 8, un := .address 1, related := [⟨3, 0⟩] }
  | 2 => { posMaxoff := 16, un := .array 2, related := [⟨1, 0⟩] }
  | 3 => { posMaxoff := 24, un := .composite 2, related := [⟨2, 0⟩, ⟨1, 16⟩] }
  | 4 => { posMaxoff := 8, un := .composite 1, related := [⟨1, 0⟩] }
  | 5 => { posMaxoff := 16, un := .composite 2, related := [⟨1, 0⟩, ⟨4, 8⟩] }
  | _ => {}

/-- Every pointer leads a page further than where it is. -/
def arrayGraph : BfsEnv where
  types := arrayTypes
  forEachSubobject := fun t => (arrayTypes t).subobjects arrayTypes
  voidType := 6
  pointerAt := fun a => a + 0x1000
  followPtr := fun p t => (p, t)

theorem arrayGraph_forEach : arrayGraph.ForEach := ⟨fun _ => rfl, rfl, rfl⟩

theorem buildAdjacencyListRecursive_exact_sample :
    (∃ l, buildAdjacencyListRecursive arrayGraph 0x400000 3 0 5 = some l
      ∧ l.Perm (pointedToWithin arrayGraph 0x400000 2 { t := 5 }))
    ∧ pointedToWithin arrayGraph 0x400000 2 { t := 5 } = [⟨0x401000, 3⟩, ⟨0x401008, 3⟩] :=
  ⟨(buildAdjacencyListRecursive_exact_iff arrayGraph 0x400000 5 2 3 arrayGraph_forEach (by decide)
    (by decide)).mpr (by decide), by decide⟩

/-- Two of the three pointers of the structure are in an array, and have no nodes. -/
theorem buildAdjacencyListRecursive_misses_arrays : arrayGraph.ForEach
    ∧ Ends (Place.subobjectsOf arrayGraph.types) 2 { t := 3 }
    ∧ buildAdjacencyListRecursive arrayGraph 0x400000 3 0 3 = some [⟨0x401010, 3⟩]
    ∧ pointedToWithin arrayGraph 0x400000 2 { t := 3 }
      = [⟨0x401000, 3⟩, ⟨0x401008, 3⟩, ⟨0x401010, 3⟩] :=
  ⟨arrayGraph_forEach, by decide, by decide, by decide⟩

end Liballocs
