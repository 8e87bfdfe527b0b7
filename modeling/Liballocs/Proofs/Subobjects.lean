/-
The search for a matching subobject against the walk.

`Hit`: a type, or a subobject on the way to an offset, begins at the offset and is of the type looked
for.  The search computes it.  The walk calls back for the same subobjects if every member begins
inside its composite, since it goes on only below the size of a composite.
-/
import Mathlib.Data.List.TakeWhile
import Mathlib.Tactic.Common
import Liballocs.Subobjects

namespace Liballocs

variable {types : Nat → Uniqtype} {test n fuel target t i ind at_ : Nat} {u : Uniqtype}
  {visits : Nat → List Visit} {is : List Nat}

/-! ### Types -/

/-- What a type is built from: nothing, elements with a size, or sorted members inside. -/
def BuiltOf (types : Nat → Uniqtype) (P : Nat → Prop) (u : Uniqtype) : UniqtypeKind → Prop
  | .base => True
  | .address _ => True
  | .array nelems =>
    0 < (types u.arrayElementType).posMaxoff
    ∧ u.posMaxoff = nelems * (types u.arrayElementType).posMaxoff
    ∧ P u.arrayElementType
  | .composite nmemb =>
    (∀ j < nmemb, ∀ i < j, (u.rel i).off ≤ (u.rel j).off)
    ∧ ∀ i < nmemb, (u.rel i).off + (types (u.rel i).ptr).posMaxoff ≤ u.posMaxoff
      ∧ P (u.rel i).ptr
  | .subprogram _ => False

/-- Types built from base types, pointers, arrays and composites, to a depth of `n`. -/
def Built (types : Nat → Uniqtype) : Nat → Nat → Prop
  | 0, _ => False
  | n + 1, t => BuiltOf types (Built types n) (types t) (types t).un

/-- The members of a composite begin inside. -/
def BeginInsideOf (P : Nat → Prop) (u : Uniqtype) : UniqtypeKind → Prop
  | .array _ => P u.arrayElementType
  | .composite nmemb => ∀ i < nmemb, (u.rel i).off < u.posMaxoff ∧ P (u.rel i).ptr
  | _ => True

/-- Every member begins inside its composite, to a depth of `n`. -/
def BeginInside (types : Nat → Uniqtype) : Nat → Nat → Prop
  | 0, _ => True
  | n + 1, t => BeginInsideOf (BeginInside types n) (types t) (types t).un

instance {P : Nat → Prop} [DecidablePred P] : (k : UniqtypeKind) → Decidable (BuiltOf types P u k)
  | .base => isTrue trivial
  | .address _ => isTrue trivial
  | .array _ => inferInstanceAs (Decidable (_ ∧ _ ∧ _))
  | .composite nmemb =>
    inferInstanceAs (Decidable ((∀ j < nmemb, ∀ i < j, _) ∧ ∀ i < nmemb, _ ∧ _))
  | .subprogram _ => isFalse id

instance decidableBuilt : (n t : Nat) → Decidable (Built types n t)
  | 0, _ => isFalse id
  | n + 1, _ =>
    have : DecidablePred (Built types n) := decidableBuilt n
    inferInstanceAs (Decidable (BuiltOf _ _ _ _))

instance {P : Nat → Prop} [DecidablePred P] : (k : UniqtypeKind) → Decidable (BeginInsideOf P u k)
  | .array _ => inferInstanceAs (Decidable (P _))
  | .composite nmemb => inferInstanceAs (Decidable (∀ i < nmemb, _ ∧ _))
  | .base => isTrue trivial
  | .address _ => isTrue trivial
  | .subprogram _ => isTrue trivial

instance decidableBeginInside : (n t : Nat) → Decidable (BeginInside types n t)
  | 0, _ => isTrue trivial
  | n + 1, _ =>
    have : DecidablePred (BeginInside types n) := decidableBeginInside n
    inferInstanceAs (Decidable (BeginInsideOf _ _ _))

/-- The size of the elements of an array type. -/
abbrev elementSize (types : Nat → Uniqtype) (t : Nat) : Nat :=
  (types (types t).arrayElementType).posMaxoff

theorem un_of_isArrayType (ha : u.isArrayType = true) : u.un = .array u.arrayLength := by
  unfold Uniqtype.isArrayType at ha
  unfold Uniqtype.arrayLength
  split at ha
  next hun => rw [hun]
  next => exact nomatch ha

theorem un_of_lt_memberCount (hi : i < u.compositeMemberCount) :
    u.un = .composite u.compositeMemberCount := by
  unfold Uniqtype.compositeMemberCount at hi ⊢
  split at hi
  next hun => rw [hun]
  next => exact absurd hi (Nat.not_lt_zero i)

theorem Built.array (h : Built types (n + 1) t) (ha : (types t).isArrayType = true) :
    0 < elementSize types t ∧ (types t).posMaxoff = (types t).arrayLength * elementSize types t
      ∧ Built types n (types t).arrayElementType := by
  rw [Built, un_of_isArrayType ha] at h
  exact h

theorem Built.member (h : Built types (n + 1) t) (hi : i < (types t).compositeMemberCount) :
    ((types t).rel i).off + (types ((types t).rel i).ptr).posMaxoff ≤ (types t).posMaxoff
      ∧ Built types n ((types t).rel i).ptr := by
  rw [Built, un_of_lt_memberCount hi] at h
  exact h.2 i hi

theorem BeginInside.array (h : BeginInside types (n + 1) t)
    (ha : (types t).isArrayType = true) : BeginInside types n (types t).arrayElementType := by
  rw [BeginInside, un_of_isArrayType ha] at h
  exact h

theorem BeginInside.member (h : BeginInside types (n + 1) t)
    (hi : i < (types t).compositeMemberCount) :
    ((types t).rel i).off < (types t).posMaxoff ∧ BeginInside types n ((types t).rel i).ptr := by
  rw [BeginInside, un_of_lt_memberCount hi] at h
  exact h i hi

/-! ### The members at one offset -/

theorem bisectInd_lt {off : Nat → Nat} {lower upper : Nat} (h : lower < upper) :
    bisectInd off target fuel lower upper < upper := by
  induction fuel generalizing lower upper with
  | zero => exact h
  | succ fuel ih =>
    rw [bisectInd]
    split
    · simp only
      split
      · exact (ih (by omega)).trans (by omega)
      · exact ih (by omega)
    · exact h

theorem scanBackwards_le (off : Nat → Nat) (i : Nat) :
    scanBackwards off i ≤ i ∧ off (scanBackwards off i) = off i := by
  induction i with
  | zero => exact ⟨le_rfl, rfl⟩
  | succ i ih =>
    rw [scanBackwards]
    split
    next heq => exact ⟨ih.1.trans (Nat.le_succ i), ih.2.trans heq⟩
    next => exact ⟨le_rfl, rfl⟩

theorem lowestSpanning_spec (h : lowestSpanning u target = some ind) :
    ind < u.compositeMemberCount ∧ (u.rel ind).off ≤ target := by
  unfold lowestSpanning at h
  simp only at h
  split at h
  · exact nomatch h
  next hpos =>
    split at h
    · exact nomatch h
    next hle =>
      obtain rfl := Option.some_inj.mp h
      have hlt : bisectInd (fun i => (u.rel i).off) target u.compositeMemberCount 0
          u.compositeMemberCount < u.compositeMemberCount := bisectInd_lt (Nat.pos_of_ne_zero hpos)
      obtain ⟨hback, hoff⟩ := scanBackwards_le (fun i => (u.rel i).off)
        (bisectInd (fun i => (u.rel i).off) target u.compositeMemberCount 0 u.compositeMemberCount)
      exact ⟨hback.trans_lt hlt, by omega⟩

/-- The index and the later ones of members at its offset. -/
def siblings (u : Uniqtype) (ind : Nat) : List Nat :=
  ind :: (List.range' (ind + 1) (u.compositeMemberCount - (ind + 1))).takeWhile
    fun i => (u.rel i).off == (u.rel ind).off

theorem atSameOffset_eq (h : ind < u.compositeMemberCount) :
    atSameOffset u ind = siblings u ind := by
  unfold atSameOffset siblings
  obtain ⟨k, hk⟩ : ∃ k, u.compositeMemberCount - ind = k + 1 :=
    ⟨_, (Nat.sub_add_cancel (show 1 ≤ u.compositeMemberCount - ind by omega)).symm⟩
  rw [hk, List.range'_succ, List.takeWhile_cons_of_pos (by simp),
    show u.compositeMemberCount - (ind + 1) = k by omega]

theorem siblings_step (u : Uniqtype) (ind : Nat) :
    siblings u ind = ind ::
      if u.compositeMemberCount ≤ ind + 1 ∨ (u.rel (ind + 1)).off ≠ (u.rel ind).off then []
      else siblings u (ind + 1) := by
  by_cases hlast : u.compositeMemberCount ≤ ind + 1
  · rw [if_pos (.inl hlast), siblings, Nat.sub_eq_zero_of_le hlast]
    rfl
  · rw [siblings, ← Nat.sub_add_cancel (show 1 ≤ u.compositeMemberCount - (ind + 1) by omega),
      List.range'_succ]
    by_cases hoff : (u.rel (ind + 1)).off = (u.rel ind).off
    · rw [if_neg (by simp [hlast, hoff]), List.takeWhile_cons_of_pos (by simp [hoff]), siblings,
        hoff]
      rfl
    · rw [if_pos (.inr hoff), List.takeWhile_cons_of_neg (by simp [hoff])]

theorem mem_siblings (h : i ∈ siblings u ind) :
    (u.rel i).off = (u.rel ind).off ∧ (i = ind ∨ i < u.compositeMemberCount) := by
  rcases List.mem_cons.mp h with rfl | hi
  · exact ⟨rfl, .inl rfl⟩
  · have hoff := List.mem_takeWhile_imp hi
    have hmem := List.mem_range'_1.mp ((List.takeWhile_prefix _).subset hi)
    exact ⟨by simpa using hoff, .inr (by omega)⟩

theorem lt_of_mem_siblings (h : i ∈ siblings u ind) (hlt : ind < u.compositeMemberCount) :
    i < u.compositeMemberCount := by
  obtain ⟨-, rfl | hi⟩ := mem_siblings h
  · exact hlt
  · exact hi

/-! ### What is looked for -/

/-- The type is the one looked for; null stands for any. -/
def Matches (test t : Nat) : Prop := test = 0 ∨ t = test

/-- The type, or a subobject on the way to the offset, begins there and is looked for. -/
def Hit (types : Nat → Uniqtype) (test : Nat) : Nat → Nat → Nat → Prop
  | 0, _, _ => False
  | n + 1, target, t =>
    (target = 0 ∧ Matches test t)
    ∨ ∃ sub ind, firstSubobjectSpanning types target t = some (sub, ind)
      ∧ ∃ i ∈ siblings (types t) ind, Hit types test n sub ((types t).rel i).ptr

/-- The same for the subobjects only. -/
def HitWithin (types : Nat → Uniqtype) (test n target t : Nat) : Prop :=
  ∃ sub ind, firstSubobjectSpanning types target t = some (sub, ind)
    ∧ ∃ i ∈ siblings (types t) ind, Hit types test n sub ((types t).rel i).ptr

theorem firstSubobjectSpanning_array (ha : (types t).isArrayType = true) :
    firstSubobjectSpanning types target t =
      if elementSize types t ≠ 0 ∧ (types t).arrayLength > target / elementSize types t then
        some (target % elementSize types t, 0)
      else none := by
  unfold firstSubobjectSpanning
  simp [ha]

theorem firstSubobjectSpanning_composite (ha : (types t).isArrayType = false) :
    firstSubobjectSpanning types target t = (lowestSpanning (types t) target).map
      fun ind => (target - ((types t).rel ind).off, ind) := by
  unfold firstSubobjectSpanning
  simp [ha, Bool.false_eq_true]

theorem compositeMemberCount_array (ha : u.isArrayType = true) : u.compositeMemberCount = 0 := by
  rw [Uniqtype.compositeMemberCount, un_of_isArrayType ha]

/-- A subobject that spans an offset is built from what its type is built from. -/
theorem Built.sibling {sub : Nat} (h : Built types (n + 1) t)
    (hfirst : firstSubobjectSpanning types target t = some (sub, ind))
    (hi : i ∈ siblings (types t) ind) : Built types n ((types t).rel i).ptr := by
  cases ha : (types t).isArrayType with
  | true =>
    rw [firstSubobjectSpanning_array ha] at hfirst
    split at hfirst
    next =>
      cases hfirst
      obtain ⟨-, rfl | hi⟩ := mem_siblings hi
      · exact (h.array ha).2.2
      · rw [compositeMemberCount_array ha] at hi
        exact absurd hi (Nat.not_lt_zero i)
    next => exact nomatch hfirst
  | false =>
    rw [firstSubobjectSpanning_composite ha, Option.map_eq_some_iff] at hfirst
    obtain ⟨ind', hlow, heq⟩ := hfirst
    cases heq
    exact (h.member (lt_of_mem_siblings hi (lowestSpanning_spec hlow).1)).2

/-! ### The search computes it -/

theorem searchSiblings_spec {visit : Nat → SearchOut → Option (Bool × SearchOut)}
    {P : Nat → Prop} {containing : Nat} (out : SearchOut)
    (hvisit : ∀ i ∈ siblings u ind, ∀ out, ∃ b out', visit (u.rel i).ptr out = some (b, out')
      ∧ (b = true ↔ P i))
    (hf : u.compositeMemberCount - ind < fuel) :
    ∃ b out', searchSiblings u containing visit fuel ind out = some (b, out')
      ∧ (b = true ↔ ∃ i ∈ siblings u ind, P i) := by
  induction fuel generalizing ind out with
  | zero => exact absurd hf (Nat.not_lt_zero _)
  | succ fuel ih =>
    obtain ⟨b, out1, hb, hiff⟩ := hvisit ind (.head _) out
    rw [searchSiblings, hb]
    simp only [Option.bind_eq_bind, Option.bind_some]
    cases b with
    | true => exact ⟨true, _, rfl, fun _ => ⟨ind, .head _, hiff.mp rfl⟩, fun _ => rfl⟩
    | false =>
      have hnot : ¬ P ind := fun hp => nomatch hiff.mpr hp
      have hstep := siblings_step u ind
      split at hstep
      next hlast =>
        rw [if_pos hlast, hstep]
        exact ⟨false, out1, rfl, by simp [hnot]⟩
      next hmore =>
        rw [if_neg hmore]
        rw [hstep] at hvisit
        obtain ⟨b, out', hb', hiff'⟩ := ih out1
          (fun i hi => hvisit i (List.mem_cons_of_mem _ hi)) (by omega)
        refine ⟨b, out', hb', hiff'.trans ?_⟩
        rw [hstep]
        simp [hnot]

/-- With fuel for the depth of the type, the search returns, and what it says is `Hit`. -/
theorem findMatchingSubobject_spec (h : Built types n t) (hf : n ≤ fuel) (target : Nat)
    (out : SearchOut) :
    ∃ b out', findMatchingSubobject types test fuel target t out = some (b, out')
      ∧ (b = true ↔ Hit types test n target t) := by
  induction n generalizing fuel target t out with
  | zero => exact h.elim
  | succ n ih =>
    obtain _ | fuel := fuel
    · omega
    rw [findMatchingSubobject, Hit]
    by_cases hat : target = 0 ∧ (test = 0 ∨ t = test)
    · rw [if_pos hat]
      exact ⟨true, _, rfl, fun _ => .inl hat, fun _ => rfl⟩
    · rw [if_neg hat]
      cases hfirst : firstSubobjectSpanning types target t with
      | none => exact ⟨false, out, rfl, by simp [Matches, hat]⟩
      | some p =>
        obtain ⟨sub, ind⟩ := p
        have hsiblings : ∀ i ∈ siblings (types t) ind, ∀ out, ∃ b out',
            findMatchingSubobject types test fuel sub ((types t).rel i).ptr out = some (b, out')
            ∧ (b = true ↔ Hit types test n sub ((types t).rel i).ptr) :=
          fun i hi out => ih (h.sibling hfirst hi) (by omega) sub out
        obtain ⟨b, out', hb, hiff⟩ := searchSiblings_spec _ hsiblings
          (Nat.lt_succ_of_le (Nat.sub_le _ ind))
        refine ⟨b, out', hb, hiff.trans ⟨fun hi => .inr ⟨sub, ind, rfl, hi⟩, ?_⟩⟩
        rintro (hnow | ⟨sub', ind', heq, hi⟩)
        · exact absurd hnow hat
        · cases heq
          exact hi

/-! ### The walk -/

/-- The callback that collects what it is called for. -/
def collect (v : Visit) (vs : List Visit) : Int × List Visit := (0, vs ++ [v])

theorem untilNonzero_collect {visit : Nat → List Visit → Option (Int × List Visit)}
    (h : ∀ i ∈ is, ∀ vs, visit i vs = some (0, vs ++ visits i)) (vs : List Visit) :
    untilNonzero visit is vs = some (0, vs ++ is.flatMap visits) := by
  induction is generalizing vs with
  | nil => simp [untilNonzero]
  | cons i is ih =>
    rw [untilNonzero, h i (.head _)]
    simp only [Option.bind_eq_bind, Option.bind_some, ne_eq, not_true, if_false]
    rw [ih fun j hj => h j (List.mem_cons_of_mem _ hj), List.flatMap_cons, List.append_assoc]

theorem untilNonzero_zero (is : List Nat) (vs : List Visit) :
    untilNonzero (fun _ vs => some (0, vs)) is vs = some (0, vs) := by
  induction is with
  | nil => rfl
  | cons i is ih => exact ih

theorem not_hitWithin (h : Built types (n + 1) t) (hb : BeginInside types (n + 1) t)
    (hge : (types t).posMaxoff ≤ target) : ¬ HitWithin types test n target t := by
  induction n generalizing target t with
  | zero =>
    rintro ⟨sub, ind, -, i, -, hhit⟩
    exact hhit
  | succ n ih =>
    rintro ⟨sub, ind, hfirst, i, hi, hhit⟩
    cases ha : (types t).isArrayType with
    | true =>
      obtain ⟨hpos, hsize, -⟩ := h.array ha
      rw [firstSubobjectSpanning_array ha] at hfirst
      split at hfirst
      next hin =>
        have := (Nat.div_lt_iff_lt_mul hpos).mp hin.2
        omega
      next => exact nomatch hfirst
    | false =>
      have hbuilt := h.sibling hfirst hi
      rw [firstSubobjectSpanning_composite ha, Option.map_eq_some_iff] at hfirst
      obtain ⟨ind', hlow, heq⟩ := hfirst
      cases heq
      obtain ⟨hlt, hle⟩ := lowestSpanning_spec hlow
      obtain ⟨hoff, -⟩ := mem_siblings hi
      have hi' := lt_of_mem_siblings hi hlt
      obtain ⟨hinside, -⟩ := h.member hi'
      obtain ⟨hbegin, hdeep⟩ := hb.member hi'
      rcases hhit with ⟨hzero, -⟩ | hhit
      · omega
      · exact ih hbuilt hdeep (by omega) hhit

theorem hit_iff (h : Built types n t) :
    Hit types test n target t
      ↔ (target = 0 ∧ Matches test t) ∨ HitWithin types test (n - 1) target t := by
  cases n with
  | zero => exact h.elim
  | succ n => exact Iff.rfl

/-- One of the visits is to a subobject that begins at the offset and is looked for. -/
def Visited (test at_ : Nat) (vs : List Visit) : Prop :=
  ∃ v ∈ vs, v.spanStartOffset = at_ ∧ Matches test v.spans

theorem visited_cons {v : Visit} {vs : List Visit} :
    Visited test at_ (v :: vs)
      ↔ (v.spanStartOffset = at_ ∧ Matches test v.spans) ∨ Visited test at_ vs := by
  simp [Visited]

theorem hitWithin_array (h : Built types (n + 1) t) (ha : (types t).isArrayType = true) :
    HitWithin types test n target t ↔ (types t).arrayLength > target / elementSize types t
        ∧ Hit types test n (target % elementSize types t) (types t).arrayElementType := by
  have hpos : elementSize types t ≠ 0 := (h.array ha).1.ne'
  have hsib : siblings (types t) 0 = [0] := by
    rw [siblings_step, if_pos (.inl (by rw [compositeMemberCount_array ha]; exact Nat.zero_le 1))]
  unfold HitWithin
  rw [firstSubobjectSpanning_array ha]
  by_cases hin : (types t).arrayLength > target / elementSize types t
  · rw [if_pos ⟨hpos, hin⟩]
    constructor
    · rintro ⟨sub, ind, heq, i, hi, hhit⟩
      cases heq
      rw [hsib, List.mem_singleton] at hi
      subst hi
      exact ⟨hin, hhit⟩
    · rintro ⟨-, hhit⟩
      exact ⟨_, 0, rfl, 0, by rw [hsib]; exact List.mem_singleton_self 0, hhit⟩
  · rw [if_neg fun hc => hin hc.2]
    exact ⟨fun ⟨_, _, heq, _⟩ => (nomatch heq), fun hc => absurd hc.1 hin⟩

theorem hitWithin_composite (ha : (types t).isArrayType = false)
    (hlow : lowestSpanning (types t) target = some ind) :
    HitWithin types test n target t ↔ ∃ i ∈ siblings (types t) ind,
        Hit types test n (target - ((types t).rel ind).off) ((types t).rel i).ptr := by
  unfold HitWithin
  rw [firstSubobjectSpanning_composite ha, hlow, Option.map_some]
  constructor
  · rintro ⟨sub, ind, heq, hi⟩
    cases heq
    exact hi
  · exact fun hi => ⟨_, _, rfl, hi⟩

theorem not_hitWithin_of_none (ha : (types t).isArrayType = false)
    (hlow : lowestSpanning (types t) target = none) : ¬ HitWithin types test n target t := by
  rintro ⟨sub, ind, hfirst, -⟩
  rw [firstSubobjectSpanning_composite ha, hlow] at hfirst
  exact nomatch hfirst

/-- The walk returns and has told its callback of these visits. -/
def Walks (types : Nat → Uniqtype) (fuel accum depth target t : Nat) (visits : List Visit) : Prop :=
  ∀ vs, walkSubobjectsSpanningRec types collect fuel accum depth target t vs
    = some (0, vs ++ visits)

section Walks

variable {accum depth : Nat}

section

variable (ha : (types t).isArrayType = true) (hpos : 0 < elementSize types t)

include ha hpos

theorem walks_array {visits : List Visit}
    (hin : (types t).arrayLength > target / elementSize types t)
    (h : Walks types fuel (accum + target / elementSize types t * elementSize types t) (depth + 1)
      (target % elementSize types t) (types t).arrayElementType visits) :
    Walks types (fuel + 1) accum depth target t (⟨(types t).arrayElementType,
        accum + target / elementSize types t
          * elementSize types t, depth + 1, t, 0, accum⟩ :: visits) := by
  intro vs
  simp only [walkSubobjectsSpanningRec, ha, if_true, if_neg hpos.ne', collect, ne_eq,
    not_true, if_false, if_pos hin]
  rw [h, List.append_assoc]
  rfl

theorem walks_array_nil (hin : ¬ (types t).arrayLength > target / elementSize types t) :
    Walks types (fuel + 1) accum depth target t [] := by
  intro vs
  simp [walkSubobjectsSpanningRec, ha, if_neg hpos.ne', if_neg hin, List.append_nil]

end

theorem walks_composite (ha : (types t).isArrayType = false)
    (hlow : lowestSpanning (types t) target = some ind) (hin : target < (types t).posMaxoff)
    (h : ∀ i ∈ siblings (types t) ind, Walks types fuel (accum + ((types t).rel ind).off)
      (depth + 1) (target - ((types t).rel ind).off) ((types t).rel i).ptr (visits i)) :
    Walks types (fuel + 1) accum depth target t ((siblings (types t) ind).flatMap fun i =>
        ⟨((types t).rel i).ptr, accum + ((types t).rel ind).off, depth + 1, t, i, accum⟩
          :: visits i) := by
  intro vs
  simp only [walkSubobjectsSpanningRec, ha, Bool.false_eq_true, if_false, hlow,
    atSameOffset_eq (lowestSpanning_spec hlow).1]
  refine untilNonzero_collect (fun i hi vs => ?_) vs
  simp only [if_pos hin, collect, ne_eq, not_true, if_false]
  rw [h i hi, List.append_assoc]
  rfl

theorem walks_composite_nil (ha : (types t).isArrayType = false)
    (h : lowestSpanning (types t) target = none ∨ (types t).posMaxoff ≤ target) :
    Walks types (fuel + 1) accum depth target t [] := by
  intro vs
  simp only [walkSubobjectsSpanningRec, ha, Bool.false_eq_true, if_false]
  cases hlow : lowestSpanning (types t) target with
  | none => simp only [List.append_nil]
  | some ind =>
    have hge : (types t).posMaxoff ≤ target := h.resolve_left (by rw [hlow]; exact nofun)
    simp only [if_neg hge.not_gt]
    rw [untilNonzero_zero, List.append_nil]

end Walks

theorem visited_flatMap :
    Visited test at_ (is.flatMap visits) ↔ ∃ i ∈ is, Visited test at_ (visits i) := by
  simp only [Visited, List.mem_flatMap]
  constructor
  · rintro ⟨v, ⟨i, hi, hv⟩, hat⟩
    exact ⟨i, hi, v, hv, hat⟩
  · rintro ⟨i, hi, v, hv, hat⟩
    exact ⟨v, ⟨i, hi, hv⟩, hat⟩

theorem visited_nil : ¬ Visited test at_ [] := fun ⟨_, hv, _⟩ => nomatch hv

/-- With fuel for the depth of the type, the walk returns, and has visited a subobject at the offset
that is looked for if and only if there is one. -/
theorem walkSubobjectsSpanningRec_spec (h : Built types n t) (hb : BeginInside types n t)
    (hf : n ≤ fuel) (accum depth target : Nat) :
    ∃ visits, Walks types fuel accum depth target t visits
      ∧ ∀ test, Visited test (accum + target) visits ↔ HitWithin types test (n - 1) target t := by
  induction n generalizing fuel accum depth target t with
  | zero => exact h.elim
  | succ n ih =>
    obtain _ | fuel := fuel
    · omega
    rw [Nat.add_sub_cancel]
    cases ha : (types t).isArrayType with
    | true =>
      obtain ⟨hpos, -, hbuilt⟩ := h.array ha
      by_cases hin : (types t).arrayLength > target / elementSize types t
      · obtain ⟨visits, hwalk, hiff⟩ := ih hbuilt (hb.array ha) (show n ≤ fuel by omega) _ _ _
        refine ⟨_, walks_array ha hpos hin hwalk, fun test => ?_⟩
        have hdiv := Nat.div_add_mod' target (elementSize types t)
        rw [Nat.add_assoc, hdiv] at hiff
        rw [visited_cons, hiff, hitWithin_array h ha, hit_iff hbuilt, and_iff_right hin]
        refine or_congr (and_congr_left' ?_) Iff.rfl
        simp only
        omega
      · refine ⟨[], walks_array_nil ha hpos hin, fun test => ?_⟩
        rw [hitWithin_array h ha]
        exact iff_of_false visited_nil fun hc => hin hc.1
    | false =>
      cases hlow : lowestSpanning (types t) target with
      | none =>
        exact ⟨[], walks_composite_nil ha (.inl hlow), fun test =>
          iff_of_false visited_nil (not_hitWithin_of_none ha hlow)⟩
      | some ind =>
        by_cases hin : target < (types t).posMaxoff
        · have hfirst : firstSubobjectSpanning types target t
              = some (target - ((types t).rel ind).off, ind) := by
            rw [firstSubobjectSpanning_composite ha, hlow, Option.map_some]
          obtain ⟨hlt, hle⟩ := lowestSpanning_spec hlow
          have hmember : ∀ i ∈ siblings (types t) ind,
              BeginInside types n ((types t).rel i).ptr := fun i hi =>
            (hb.member (lt_of_mem_siblings hi hlt)).2
          choose! visits hwalk hiff using fun i (hi : i ∈ siblings (types t) ind) =>
            ih (h.sibling hfirst hi) (hmember i hi) (show n ≤ fuel by omega)
              (accum + ((types t).rel ind).off) (depth + 1)
              (target - ((types t).rel ind).off)
          refine ⟨_, walks_composite ha hlow hin hwalk, fun test => ?_⟩
          rw [visited_flatMap, hitWithin_composite ha hlow]
          refine exists_congr fun i => and_congr_right fun hi => ?_
          have hat := hiff i hi test
          rw [Nat.add_assoc, Nat.add_sub_cancel' hle] at hat
          rw [visited_cons, hat, hit_iff (h.sibling hfirst hi)]
          refine or_congr (and_congr_left' ?_) Iff.rfl
          simp only
          omega
        · have hge := Nat.le_of_not_lt hin
          exact ⟨[], walks_composite_nil ha (.inr hge), fun test =>
            iff_of_false visited_nil (not_hitWithin h hb hge)⟩

/-- On every type built from base types, pointers, arrays and composites in which every member begins
inside, the search and the walk return for every offset and type looked for, and the search succeeds
if and only if the type itself, at offset zero, or a subobject that the walk calls back for begins at
the offset and is of that type. -/
theorem findMatchingSubobject_iff_walk (h : Built types n t) (hb : BeginInside types n t)
    (hf : n ≤ fuel) (target : Nat) (out : SearchOut) :
    ∃ visits, walkSubobjectsSpanning types collect fuel target t [] = some (0, visits)
      ∧ ∃ b out', findMatchingSubobject types test fuel target t out = some (b, out')
        ∧ (b = true ↔ (target = 0 ∧ Matches test t)
          ∨ ∃ v ∈ visits, v.spanStartOffset = target ∧ Matches test v.spans) := by
  obtain ⟨visits, hwalk, hvisited⟩ := walkSubobjectsSpanningRec_spec h hb hf 0 0 target
  obtain ⟨b, out', hfind, hiff⟩ := findMatchingSubobject_spec h hf target out
  have hat := hvisited test
  rw [Nat.zero_add] at hat
  refine ⟨visits, hwalk [], b, out', hfind, hiff.trans ((hit_iff h).trans ?_)⟩
  exact or_congr Iff.rfl hat.symm

/-! ### Samples -/

/-- Types by their addresses: a character, an integer, an empty structure, `struct { int; struct { };
}`, sixteen characters, the union of the two, and `struct { int; char[16]; }`. -/
def sampleTypes : Nat → Uniqtype
  | 1 => { posMaxoff := 1 }
  | 2 => { posMaxoff := 4 }
  | 3 => { posMaxoff := 0, un := .composite 0 }
  | 4 => { posMaxoff := 4, un := .composite 2, related := [⟨2, 0⟩, ⟨3, 4⟩] }
  | 5 => { posMaxoff := 16, un := .array 16, related := [⟨1, 0⟩] }
  | 6 => { posMaxoff := 16, un := .composite 2, related := [⟨4, 0⟩, ⟨5, 0⟩] }
  | 7 => { posMaxoff := 20, un := .composite 2, related := [⟨2, 0⟩, ⟨5, 4⟩] }
  | _ => {}

theorem findMatchingSubobject_iff_walk_sample :
    Built sampleTypes 3 7 ∧ BeginInside sampleTypes 3 7
      ∧ ∃ visits, walkSubobjectsSpanning sampleTypes collect 3 9 7 [] = some (0, visits)
        ∧ ∃ b out', findMatchingSubobject sampleTypes 1 3 9 7 {} = some (b, out')
          ∧ (b = true ↔ (9 = 0 ∧ Matches 1 7)
            ∨ ∃ v ∈ visits, v.spanStartOffset = 9 ∧ Matches 1 v.spans) := by
  have hbuilt : Built sampleTypes 3 7 := by decide
  have hbegin : BeginInside sampleTypes 3 7 := by decide
  exact ⟨hbuilt, hbegin, findMatchingSubobject_iff_walk hbuilt hbegin le_rfl 9 {}⟩

/-- The search finds the empty structure at the end of a member of the union; the walk does not call
back for it. -/
theorem findMatchingSubobject_not_walked :
    Built sampleTypes 3 6 ∧ 4 < (sampleTypes 6).posMaxoff
      ∧ (findMatchingSubobject sampleTypes 3 3 4 6 {}).map Prod.fst = some true
      ∧ (walkSubobjectsSpanning sampleTypes collect 3 4 6 []).map
        (fun p => p.2.any fun v => v.spans == 3) = some false := by
  refine ⟨by decide, by decide, by decide, by decide⟩

end Liballocs
