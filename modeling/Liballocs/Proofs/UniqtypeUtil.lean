/-
Whether a type made on request is the one that was asked for.

The constructors remember what they made under a symbol name, which says less than the call: summary
codes are lost, flexible and unbounded arrays share a name, and the parts of a union's or function's
name run together.  The types are right exactly if no two calls with one name ask for different things.
-/
import Liballocs.Lib.Memo
import Liballocs.UniqtypeUtil
import Mathlib.Algebra.Ring.Nat
import Mathlib.Data.List.TakeWhile

namespace Liballocs

/-! ### What a record says, and what a call asks for -/

/-- What type a record describes. -/
inductive TypeMeaning where
  | base
  | array (element length : Nat) (precisable : Bool)
  | address (pointee : Nat)
  | subprogram (returnType : Nat) (argTypes : List Nat)
  | composite (members : List UniqtypeRelInfo)
deriving DecidableEq

/-- What a type record says, without its name. -/
def Uniqtype.meaning (u : Uniqtype) : TypeMeaning :=
  match u.un with
  | .base => .base
  | .array nelems => .array u.arrayElementType nelems u.makePrecise
  | .address _ => .address u.pointeeType
  | .subprogram narg => .subprogram (u.rel 0).ptr ((List.range narg).map fun i => (u.rel (i + 1)).ptr)
  | .composite nmemb => .composite ((List.range nmemb).map u.rel)

namespace TypeCall

/-- What the call asks for: a union's members are at its beginning, and only a flexible array is made
precise. -/
def asked (lim : UniqtypeLimits) : TypeCall → TypeMeaning
  | array elementT arrayLen => .array elementT arrayLen false
  | unboundedArray elementT => .array elementT lim.arrayLengthUnbounded false
  | flexibleArray elementT => .array elementT lim.arrayLengthUnbounded true
  | address pointeeT => .address pointeeT
  | subprogram returnType argTypes => .subprogram returnType argTypes
  | union membs => .composite (membs.map ({ ptr := · }))

/-- The calls that read through their argument get a type there. -/
def OnType : TypeCall → Prop
  | flexibleArray elementT => elementT ≠ 0
  | address pointeeT => pointeeT ≠ 0
  | _ => True

/-- The symbol name at which the call arrives. -/
def symname (lim : UniqtypeLimits) (s : TypeStore) : TypeCall → String
  | array elementT arrayLen => s.arrayTypeName lim elementT arrayLen
  | unboundedArray elementT => s.arrayTypeName lim elementT lim.arrayLengthUnbounded
  | flexibleArray elementT => s.flexibleArrayTypeName elementT
  | address pointeeT => s.addressTypeName pointeeT
  | subprogram returnType argTypes => s.subprogramTypeName returnType argTypes
  | union membs => TypeStore.unionTypeName (String.join (membs.map s.uniqtypeName))

/-- The record that the call makes if there is none under that name. -/
def made (lim : UniqtypeLimits) (s : TypeStore) : TypeCall → Uniqtype
  | array elementT arrayLen => s.arrayType lim elementT arrayLen
  | unboundedArray elementT => s.arrayType lim elementT lim.arrayLengthUnbounded
  | flexibleArray elementT => TypeStore.flexibleArrayType lim elementT
  | address pointeeT => s.addressType pointeeT
  | subprogram returnType argTypes => TypeStore.subprogramType lim returnType argTypes
  | union membs =>
    TypeStore.unionType ((membs.map fun m => (s.types m).posMaxoff).foldl max 0) membs

/-- The name is refused as the name of a union's member. -/
def longName (s : TypeStore) (membT : Nat) : Bool :=
  TypeStore.unionNameMaxlen ≤ (s.uniqtypeName membT).utf8ByteSize

/-- How much is copied of the names of a union's members: all up to one that is refused. -/
def copied (s : TypeStore) (membs : List Nat) : Nat :=
  ((membs.takeWhile (!longName s ·)).map fun m => (s.uniqtypeName m).utf8ByteSize).sum

/-- The call gives no type. -/
def refused (lim : UniqtypeLimits) (s : TypeStore) : TypeCall → Bool
  | array elementT _ | unboundedArray elementT =>
    TypeStore.isNoType elementT || s.sizeRefused lim elementT
  | flexibleArray elementT => s.sizeRefused lim elementT
  | address _ | subprogram _ _ => false
  | union membs =>
    membs.isEmpty || membs.any (longName s)

/-- The names of a union's members overrun the buffer. -/
def overruns (s : TypeStore) : TypeCall → Bool
  | union membs => TypeStore.unionNameMaxlen ≤ copied s membs
  | _ => false

end TypeCall

open TypeStore

section Made

variable {lim : UniqtypeLimits} {s : TypeStore}

theorem range_map_getD (l : List UniqtypeRelInfo) :
    (List.range l.length).map (fun i => l[i]?.getD {}) = l := by
  apply List.ext_getElem <;> simp +contextual

theorem made_meaning (c : TypeCall) : (c.made lim s).meaning = c.asked lim := by
  cases c with
  | array elementT arrayLen => rfl
  | unboundedArray elementT => rfl
  | flexibleArray elementT => rfl
  | address pointeeT => rfl
  | subprogram returnType argTypes =>
    have hargs := congrArg (List.map UniqtypeRelInfo.ptr)
      (range_map_getD (argTypes.map ({ ptr := · })))
    simpa [TypeCall.made, TypeCall.asked, Uniqtype.meaning, subprogramType, Uniqtype.rel,
      Function.comp_def] using hargs
  | union membs =>
    have hmembs := range_map_getD (membs.map ({ ptr := · }))
    rw [List.length_map] at hmembs
    exact congrArg TypeMeaning.composite hmembs

end Made

/-! ### One call -/

section Call

variable {lim : UniqtypeLimits} {s : TypeStore}

theorem copied_cons {membT : Nat} (membs : List Nat) (h : TypeCall.longName s membT = false) :
    TypeCall.copied s (membT :: membs) =
      (s.uniqtypeName membT).utf8ByteSize + TypeCall.copied s membs := by
  simp [TypeCall.copied, h]

theorem unionRawName_eq (membs : List Nat) (rawName : String) (maxLen : Nat)
    (hraw : rawName.utf8ByteSize < unionNameMaxlen) :
    s.unionRawName rawName maxLen membs =
      if unionNameMaxlen ≤ rawName.utf8ByteSize + TypeCall.copied s membs then none
      else if membs.any (TypeCall.longName s) then some none
      else
        some (some ((membs.map s.uniqtypeName).foldl (· ++ ·) rawName,
          (membs.map fun m => (s.types m).posMaxoff).foldl max maxLen)) := by
  induction membs generalizing rawName maxLen with
  | nil => simp [unionRawName, TypeCall.copied, hraw]
  | cons membT membs ih =>
    rw [unionRawName]
    by_cases hlong : unionNameMaxlen ≤ (s.uniqtypeName membT).utf8ByteSize
    · simp [TypeCall.copied, TypeCall.longName, hlong, hraw]
    · have hshort : TypeCall.longName s membT = false := decide_eq_false hlong
      rw [if_neg hlong, copied_cons _ hshort]
      by_cases hover : unionNameMaxlen ≤ (rawName ++ s.uniqtypeName membT).utf8ByteSize
      · rw [if_pos hover, if_pos]
        rw [String.utf8ByteSize_append] at hover
        omega
      · rw [if_neg hover, ih _ _ (not_le.mp hover)]
        simp [hshort, Nat.add_assoc]

theorem call_eq {c : TypeCall} (hon : c.OnType) :
    s.call lim c =
      if c.overruns s then none
      else if c.refused lim s then some (0, s)
      else some (s.getOrCreate (c.symname lim s) (c.made lim s)) := by
  cases c with
  | array elementT arrayLen => rfl
  | unboundedArray elementT => rfl
  | flexibleArray elementT =>
    exact if_neg hon
  | address pointeeT =>
    exact if_neg hon
  | subprogram returnType argTypes => rfl
  | union membs =>
    simp only [call, liballocsGetOrCreateUnionType, TypeCall.overruns, TypeCall.refused,
      TypeCall.symname, TypeCall.made, String.join]
    rw [unionRawName_eq _ _ _ (by decide)]
    by_cases hnil : membs = []
    · simp [hnil, TypeCall.copied, unionNameMaxlen]
    · by_cases hover : unionNameMaxlen ≤ TypeCall.copied s membs
      · simp [hnil, hover]
      · by_cases hany : membs.any (TypeCall.longName s) = true
        · simp [hnil, hover, hany, -List.any_eq_true]
        · simp [hnil, hover, hany, -List.any_eq_true]

end Call

/-! ### The store as a table -/

namespace TypeStore

/-- The store as a map from names to type records. -/
def table (s : TypeStore) (name : String) : Option Uniqtype :=
  ((s.symbols.find? (·.1 = name)).map (·.2)).map s.types

section Table

variable {s : TypeStore} {name : String} {u : Uniqtype}

theorem find_bound {p : String × Nat} (h : s.symbols.find? (·.1 = name) = some p) :
    0 < p.2 ∧ p.2 < s.next :=
  s.symbols_lt p (List.mem_of_find?_eq_some h)

theorem table_eq_some_iff :
    s.table name = some u ↔
      s.getTypeFromSymname name ≠ 0 ∧ s.types (s.getTypeFromSymname name) = u := by
  cases h : s.symbols.find? (·.1 = name) with
  | none => simp [table, getTypeFromSymname, h]
  | some p => simp [table, getTypeFromSymname, h, (find_bound h).1.ne']

theorem table_memoise (u : Uniqtype) :
    (s.memoise name u).2.table = Function.update s.table name (some u) := by
  funext name'
  by_cases hname : name' = name
  · subst hname
    simp [table, memoise]
  · have hkept : ∀ p, s.symbols.find? (·.1 = name') = some p →
        Function.update s.types s.next u p.2 = s.types p.2 := fun p hp =>
      Function.update_of_ne (find_bound hp).2.ne _ _
    rw [Function.update_of_ne hname]
    cases h : s.symbols.find? (·.1 = name') with
    | none => simp [table, memoise, Ne.symm hname, h]
    | some p => simp [table, memoise, Ne.symm hname, h, hkept p h]

/-- The store after a call has the records of the store before it. -/
structure Extends (s s' : TypeStore) : Prop where
  next_le : s.next ≤ s'.next
  kept : ∀ a < s.next, s'.types a = s.types a

theorem Extends.refl (s : TypeStore) : s.Extends s := ⟨le_rfl, fun _ _ => rfl⟩

theorem Extends.trans {s s1 s2 : TypeStore} (h1 : s.Extends s1) (h2 : s1.Extends s2) :
    s.Extends s2 where
  next_le := h1.next_le.trans h2.next_le
  kept a ha := (h2.kept a (ha.trans_le h1.next_le)).trans (h1.kept a ha)

/-- **Getting or creating is asking the table.** -/
theorem getOrCreate_spec {r : Nat} {s' : TypeStore} (h : s.getOrCreate name u = (r, s')) :
    r ≠ 0 ∧ r < s'.next ∧ s'.types r = Memo.ask s.table (name, u) ∧
      s'.table = Memo.remember s.table (name, u) ∧ s.Extends s' := by
  unfold getOrCreate at h
  cases hfind : s.symbols.find? (·.1 = name) with
  | some p =>
    have hget : s.getTypeFromSymname name = p.2 := by simp [getTypeFromSymname, hfind]
    have hknown : s.table name = some (s.types p.2) := by simp [table, hfind]
    rw [hget, if_pos (find_bound hfind).1.ne'] at h
    obtain ⟨rfl, rfl⟩ := Prod.mk.inj h
    exact ⟨(find_bound hfind).1.ne', (find_bound hfind).2, by simp [Memo.ask, hknown],
      (Memo.remember_of_known hknown).symm, Extends.refl _⟩
  | none =>
    have hget : s.getTypeFromSymname name = 0 := by simp [getTypeFromSymname, hfind]
    have hunknown : s.table name = none := by simp [table, hfind]
    rw [hget, if_neg (not_not.mpr rfl)] at h
    obtain ⟨rfl, rfl⟩ := Prod.mk.inj h
    refine ⟨s.next_pos.ne', Nat.lt_succ_self _, ?_, ?_, Nat.le_succ _, fun a ha => ?_⟩
    · simp [Memo.ask, hunknown]
    · rw [Memo.remember_of_unknown (r := (name, u)) hunknown]
      exact table_memoise u
    · exact Function.update_of_ne ha.ne _ _

end Table

/-! ### Runs -/

/-- A call that reaches the table, with what it brings. -/
structure Lookup where
  call : TypeCall
  name : String
  type : Uniqtype

/-- The calls as lookups: each has the name it asks for and the type it would make. -/
def lookups (lim : UniqtypeLimits) (s : TypeStore) : List TypeCall → List Lookup
  | [] => []
  | c :: cs =>
    match s.call lim c with
    | none => []
    | some (_, s₁) =>
      if c.refused lim s then s₁.lookups lim cs
      else ⟨c, c.symname lim s, c.made lim s⟩ :: s₁.lookups lim cs

/-- No union's names overrun the buffer. -/
def NamesFit (lim : UniqtypeLimits) (s : TypeStore) : List TypeCall → Prop
  | [] => True
  | c :: cs => c.overruns s = false ∧ ∀ r s₁, s.call lim c = some (r, s₁) → s₁.NamesFit lim cs

/-- The calls return, and each result that is not null is the type asked for. -/
def Denote (lim : UniqtypeLimits) (s : TypeStore) (cs : List TypeCall) : Prop :=
  ∃ rs s', s.calls lim cs = some (rs, s') ∧
    ∀ p ∈ cs.zip rs, p.2 ≠ 0 → (s'.types p.2).meaning = p.1.asked lim

instance (lim : UniqtypeLimits) (s : TypeStore) (cs : List TypeCall) :
    Decidable (s.Denote lim cs) :=
  match h : s.calls lim cs with
  | none => isFalse fun ⟨_, _, hcalls, _⟩ => nomatch h.symm.trans hcalls
  | some (rs, s') =>
    decidable_of_iff (∀ p ∈ cs.zip rs, p.2 ≠ 0 → (s'.types p.2).meaning = p.1.asked lim)
      (by simp [Denote, h])

instance (lim : UniqtypeLimits) : (s : TypeStore) → (cs : List TypeCall) →
    Decidable (s.NamesFit lim cs)
  | _, [] => isTrue trivial
  | s, c :: cs =>
    have : Decidable (∀ r s₁, s.call lim c = some (r, s₁) → NamesFit lim s₁ cs) :=
      match h : s.call lim c with
      | none => isTrue nofun
      | some (_, s₁) =>
        have := instDecidableNamesFit lim s₁ cs
        decidable_of_iff (NamesFit lim s₁ cs) (by simp)
    inferInstanceAs (Decidable (_ ∧ _))

/-- No call arrives at a name that means something else already, or to another call. -/
def NamesApart (lim : UniqtypeLimits) (s : TypeStore) (cs : List TypeCall) : Prop :=
  (∀ l ∈ s.lookups lim cs, s.getTypeFromSymname l.name ≠ 0 →
    (s.types (s.getTypeFromSymname l.name)).meaning = l.call.asked lim) ∧
  (s.lookups lim cs).Pairwise fun l m => l.name = m.name → l.call.asked lim = m.call.asked lim

instance (lim : UniqtypeLimits) (s : TypeStore) (cs : List TypeCall) :
    Decidable (s.NamesApart lim cs) :=
  inferInstanceAs (Decidable (_ ∧ _))

section Runs

variable {lim : UniqtypeLimits} {s s' : TypeStore} {cs : List TypeCall} {rs : List Nat}

theorem lookups_type {l : Lookup} (h : l ∈ s.lookups lim cs) : l.type.meaning = l.call.asked lim := by
  induction cs generalizing s with
  | nil => simp [lookups] at h
  | cons c cs ih =>
    rw [lookups] at h
    split at h
    · simp at h
    · split at h
      · exact ih h
      · rcases List.mem_cons.mp h with rfl | h
        · exact made_meaning c
        · exact ih h

/-- What one call does to the table: it overruns its buffer, or it refuses, or it asks. -/
theorem call_cases (lim : UniqtypeLimits) (s : TypeStore) {c : TypeCall} (hon : c.OnType) :
    (c.overruns s = true ∧ s.call lim c = none) ∨
    (c.overruns s = false ∧ c.refused lim s = true ∧ s.call lim c = some (0, s)) ∨
    (c.overruns s = false ∧ c.refused lim s = false ∧
      ∃ r s1, s.call lim c = some (r, s1) ∧
        r ≠ 0 ∧ r < s1.next ∧ s1.types r = Memo.ask s.table (c.symname lim s, c.made lim s) ∧
        s1.table = Memo.remember s.table (c.symname lim s, c.made lim s) ∧ s.Extends s1) := by
  rw [call_eq hon]
  cases hover : c.overruns s with
  | true => exact .inl ⟨rfl, by simp⟩
  | false =>
    cases href : c.refused lim s with
    | true => exact .inr (.inl ⟨rfl, rfl, by simp⟩)
    | false =>
      rcases hget : s.getOrCreate (c.symname lim s) (c.made lim s) with ⟨r, s1⟩
      exact .inr (.inr ⟨rfl, rfl, r, s1, by simp, getOrCreate_spec hget⟩)

theorem calls_isSome_iff (s : TypeStore) (cs : List TypeCall) (hon : ∀ c ∈ cs, c.OnType) :
    (∃ rs s', s.calls lim cs = some (rs, s')) ↔ s.NamesFit lim cs := by
  induction cs generalizing s with
  | nil => simp [calls, NamesFit]
  | cons c cs ih =>
    have hrest : (∃ r s1, s.call lim c = some (r, s1)) ↔ c.overruns s = false := by
      rcases call_cases lim s (hon c (.head _)) with
        ⟨hover, hcall⟩ | ⟨hover, -, hcall⟩ | ⟨hover, -, r, s1, hcall, -⟩ <;> simp [hover, hcall]
    rw [calls, NamesFit, ← hrest]
    cases hcall : s.call lim c with
    | none => simp
    | some p =>
      obtain ⟨r, s1⟩ := p
      rw [show (∀ r' s', some (r, s1) = some (r', s') → s'.NamesFit lim cs) ↔ s1.NamesFit lim cs
        by simp, ← ih s1 fun c' hc' => hon c' (.tail _ hc')]
      rcases hcalls : s1.calls lim cs with _ | ⟨rs, s2⟩ <;> simp [hcalls]

/-- **A sequence of calls asks the table one request after the other**: its non-null results have in
the end the records of the answers. -/
theorem calls_answers (hon : ∀ c ∈ cs, c.OnType) (h : s.calls lim cs = some (rs, s')) :
    s.Extends s' ∧
      ((cs.zip rs).filter (·.2 ≠ 0)).map (·.1) = (s.lookups lim cs).map (·.call) ∧
      ((cs.zip rs).filter (·.2 ≠ 0)).map (fun p => s'.types p.2) =
        Memo.answers s.table ((s.lookups lim cs).map fun l => (l.name, l.type)) := by
  induction cs generalizing s rs with
  | nil =>
    obtain ⟨rfl, rfl⟩ : [] = rs ∧ s = s' := by simpa [calls] using h
    exact ⟨Extends.refl _, rfl, rfl⟩
  | cons c cs ih =>
    have hon' : ∀ c' ∈ cs, c'.OnType := fun c' hc' => hon c' (.tail _ hc')
    rcases call_cases lim s (hon c (.head _)) with
      ⟨-, hcall⟩ | ⟨-, href, hcall⟩ | ⟨-, href, r, s1, hcall, hr, hlt, htype, htable, hext⟩
    · simp [calls, hcall] at h
    · rw [calls, hcall] at h
      cases hcalls : s.calls lim cs with
      | none => simp [hcalls] at h
      | some p =>
        obtain ⟨rs', s''⟩ := p
        obtain ⟨rfl, rfl⟩ : 0 :: rs' = rs ∧ s'' = s' := by simpa [hcalls] using h
        simpa [lookups, hcall, href] using ih hon' hcalls
    · rw [calls, hcall] at h
      cases hcalls : s1.calls lim cs with
      | none => simp [hcalls] at h
      | some p =>
        obtain ⟨rs', s''⟩ := p
        obtain ⟨rfl, rfl⟩ : r :: rs' = rs ∧ s'' = s' := by simpa [hcalls] using h
        obtain ⟨hext', hcs, hans⟩ := ih hon' hcalls
        refine ⟨hext.trans hext', ?_, ?_⟩
        · simpa [lookups, hcall, href, hr] using hcs
        · simp [lookups, hcall, href, hr, Memo.answers, hext'.kept r hlt, htype, ← htable, ← hans]

/-- Names are apart if the table is right for all that the calls bring to it. -/
theorem namesApart_iff (s : TypeStore) (cs : List TypeCall) :
    s.NamesApart lim cs ↔
      (Memo.answers s.table ((s.lookups lim cs).map fun l => (l.name, l.type))).map
          Uniqtype.meaning =
        (s.lookups lim cs).map fun l => l.call.asked lim := by
  have hwant : (s.lookups lim cs).map (fun l => l.call.asked lim) =
      ((s.lookups lim cs).map fun l => (l.name, l.type)).map (fun r => r.2.meaning) := by
    rw [List.map_map]
    exact List.map_congr_left fun l hl => (lookups_type hl).symm
  rw [hwant, Memo.answers_iff, List.forall_mem_map, List.pairwise_map]
  refine and_congr (forall₂_congr fun l hl => ?_) (List.Pairwise.iff_of_mem fun hl hm => ?_)
  · simp only [table_eq_some_iff, lookups_type hl]
    exact ⟨fun h b hb => hb.2 ▸ h hb.1, fun h hne => h _ ⟨hne, rfl⟩⟩
  · rw [lookups_type hl, lookups_type hm]

/-- The results of calls that returned are the types asked for exactly if names are apart. -/
theorem results_denote_iff (hon : ∀ c ∈ cs, c.OnType) (hcalls : s.calls lim cs = some (rs, s')) :
    (∀ p ∈ cs.zip rs, p.2 ≠ 0 → (s'.types p.2).meaning = p.1.asked lim) ↔
      s.NamesApart lim cs := by
  obtain ⟨-, hcs, hans⟩ := calls_answers hon hcalls
  have hasked := congrArg (List.map (TypeCall.asked lim)) hcs
  simp only [List.map_map, Function.comp_def] at hasked
  rw [namesApart_iff, ← hans, ← hasked, List.map_map, List.map_inj_left]
  simp

/-- **Every result that is not null is the type its call asked for** exactly if no union's name
overruns its buffer, no name of a call is bound at the start to something else, and no two calls under
one name ask for different things. -/
theorem calls_denote_iff (s : TypeStore) (cs : List TypeCall) (hon : ∀ c ∈ cs, c.OnType) :
    s.Denote lim cs ↔ s.NamesFit lim cs ∧ s.NamesApart lim cs := by
  rw [← calls_isSome_iff s cs hon]
  constructor
  · rintro ⟨rs, s', hcalls, hall⟩
    exact ⟨⟨rs, s', hcalls⟩, (results_denote_iff hon hcalls).mp hall⟩
  · rintro ⟨⟨rs, s', hcalls⟩, hapart⟩
    exact ⟨rs, s', hcalls, (results_denote_iff hon hcalls).mpr hapart⟩

end Runs

/-- Two structures of one name and different summary codes, and `int`. -/
def sampleStore : TypeStore where
  types a := { posMaxoff := if a = 3 then 4 else 8 }
  symbols := [("__uniqtype_aaaaaaaa_foo", 1), ("__uniqtype_bbbbbbbb_foo", 2), ("__uniqtype__int", 3)]
  symbolName a :=
    if a = 1 then some "__uniqtype_aaaaaaaa_foo"
    else if a = 2 then some "__uniqtype_bbbbbbbb_foo"
    else if a = 3 then some "__uniqtype__int"
    else none
  next := 4
  next_pos := by decide
  symbols_lt := by decide

/-- Two values for a header that is not at hand. -/
def sampleLimits : UniqtypeLimits where
  arrayLengthUnbounded := 2 ^ 31 - 1
  posMaxoffUnbounded := 2 ^ 32 - 1

/-- `int *` and `int **`, two arrays, a function and a union, the first of them again. -/
theorem calls_denote_sample :
    sampleStore.Denote sampleLimits [.address 3, .address 4, .array 3 5, .flexibleArray 3,
      .subprogram 3 [4, 1], .union [1, 3], .address 3] :=
  (calls_denote_iff sampleStore _ (by simp [TypeCall.OnType])).mpr
    ⟨by decide, by decide⟩

/-- Pointers to the two structures, or arrays of them, are one type: the one asked for
first.  So are functions and unions of them, and an unbounded and a flexible array. -/
theorem calls_not_denote :
    ¬ sampleStore.Denote sampleLimits [.address 1, .address 2] ∧
    ¬ sampleStore.Denote sampleLimits [.array 1 5, .array 2 5] ∧
    ¬ sampleStore.Denote sampleLimits [.unboundedArray 3, .flexibleArray 3] ∧
    ¬ sampleStore.Denote sampleLimits [.subprogram 3 [1], .subprogram 3 [2]] ∧
    ¬ sampleStore.Denote sampleLimits [.union [1, 3], .union [2, 3]] := by
  decide

end TypeStore

end Liballocs
