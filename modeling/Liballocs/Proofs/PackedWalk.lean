/-
What `walk_allocations` visits of a packed sequence.

The walk starts at the bit where the range begins, set or not, and goes on along the set bits.  The
size of an element is the distance to the next bit, less the padding, or to the end of the sequence if
the next is not cached.  Padding and type are those of the record the walk begins with, or without a
metavector nothing and the family's first type.
-/
import Liballocs.Proofs.PackedQuery

namespace Liballocs.PackedSequenceFamily

variable {fam : PackedSequenceFamily} {env : SeqEnv} {begin end_ a : Nat}
  {elems rest : List Element} {s s' : PackedSequence} {e e' first : Element} {i j m n fuel : Nat}
  {maybeRangeEnd maybeRangeBegin : Option Nat}

/-! ### The next start -/

/-- The element after a given one is cached by a call, or was before it. -/
def NextCached (fam : PackedSequenceFamily) (begin end_ : Nat) (s : PackedSequence) (offset : Nat)
    (e : Element) : Prop :=
  roundUp e.end_ fam.align < begin + s.offsetCachedUpTo
    ∨ s.offsetCachedUpTo < offset ∧ e.end_ < begin + target begin end_ s offset

instance (s : PackedSequence) (offset : Nat) (e : Element) :
    Decidable (fam.NextCached begin end_ s offset e) := inferInstanceAs (Decidable (_ ∨ _))

/-! ### The calls -/

/-- The type that a walk from `first` on gives to an element. -/
def walkedType (fam : PackedSequenceFamily) (env : SeqEnv) (first : Element) (paddedSz : Nat) :
    Option Nat :=
  if fam.metavector = .noMetavector then (fam.typesTable[0]?).bind fun t => env.fixupT t paddedSz
  else
    let ent := fam.recordOf first.start first.size first.type
    (fam.typesTable[ent.typeIdx]?).bind fun t => env.fixupT t (sub64 paddedSz ent.sizeDeltaNbytes)

/-- The size that the walk takes an element to have when `n` are cached: up to the next one, or else
to the end. -/
def cachedSize (end_ : Nat) (elems : List Element) (n i : Nat) (e : Element) : Nat :=
  match (elems.take n)[i + 1]? with
  | some e' => e'.start - e.start
  | none => end_ - e.start

/-- The call is the one for an element with a number. -/
structure IsCallFor (env : SeqEnv) (x : Element × Nat) (call : WalkCall) : Prop where
  obj : call.obj = x.1.start
  type : env.fixupT x.1.type x.1.size = some call.type
  coord : call.coord = x.2 + 1

/-- A walk from `first` on gives an element the type that belongs to it. -/
def Typed (fam : PackedSequenceFamily) (env : SeqEnv) (first e : Element) (paddedSz : Nat) : Prop :=
  ∃ type, env.fixupT e.type e.size = some type ∧ fam.walkedType env first paddedSz = some type

/-- All elements of the range from number `i` on get their types. -/
def TypedFrom (fam : PackedSequenceFamily) (env : SeqEnv) (end_ : Nat) (elems : List Element)
    (n : Nat) (maybeRangeEnd : Option Nat) (first : Element) (i : Nat) : Prop :=
  ∀ j e, i ≤ j → elems[j]? = some e → maybeRangeEnd.any (· ≤ e.start) = false →
    fam.Typed env first e (cachedSize end_ elems n j e)

theorem typedFrom_iff (env : SeqEnv) (he : elems[i]? = some e)
    (hend : maybeRangeEnd.any (· ≤ e.start) = false) :
    fam.TypedFrom env end_ elems n maybeRangeEnd first i
      ↔ fam.Typed env first e (cachedSize end_ elems n i e)
        ∧ fam.TypedFrom env end_ elems n maybeRangeEnd first (i + 1) := by
  refine ⟨fun hall => ⟨hall i e le_rfl he hend, fun j e' hij => hall j e' (by omega)⟩,
    fun hboth j e' hij he' hend' => ?_⟩
  rcases Nat.lt_or_eq_of_le hij with hlt | rfl
  · exact hboth.2 j e' hlt he' hend'
  · rw [he, Option.some.injEq] at he'
    exact he' ▸ hboth.1

/-- One call and then right ones are right just if the first gives its element the type. -/
theorem calls_cons_iff (env : SeqEnv) (e : Element) (paddedSz : Nat) (rest : List (Element × Nat))
    (loop : Option (List WalkCall × Nat)) :
    (∃ calls, ((fam.walkedType env first paddedSz).bind fun type =>
          loop.map fun r => (⟨e.start, type, i + 1⟩ :: r.1, r.2)) = some (calls, 0)
        ∧ List.Forall₂ (IsCallFor env) ((e, i) :: rest) calls)
      ↔ fam.Typed env first e paddedSz
        ∧ ∃ calls, loop = some (calls, 0) ∧ List.Forall₂ (IsCallFor env) rest calls := by
  refine ⟨fun hcalls => ?_, fun hcalls => ?_⟩
  · obtain ⟨calls, hloop, hall⟩ := hcalls
    obtain ⟨type, htype, hloop⟩ := of_bind hloop
    obtain ⟨r, hr, heq⟩ := Option.map_eq_some_iff.mp hloop
    obtain ⟨rfl, h0⟩ := Prod.mk.inj heq
    obtain ⟨hhead, htail⟩ := List.forall₂_cons.mp hall
    exact ⟨⟨type, hhead.type, htype⟩, r.1, by rw [hr, ← h0], htail⟩
  · obtain ⟨⟨type, hown, htype⟩, calls, hloop, hall⟩ := hcalls
    refine ⟨⟨e.start, type, i + 1⟩ :: calls, ?_, List.Forall₂.cons ⟨rfl, hown, rfl⟩ hall⟩
    rw [htype, Option.bind_some, hloop]
    rfl

section

variable (henum : fam.Enumerates end_ begin elems)
include henum

theorem Enumerates.any_le (he : elems[i]? = some e) (he' : elems[j]? = some e') (hij : i ≤ j)
    (hend : maybeRangeEnd.any (· ≤ e.start) = true) : maybeRangeEnd.any (· ≤ e'.start) = true := by
  have hle : e.start ≤ e'.start := by
    rcases Nat.lt_or_eq_of_le hij with hlt | rfl
    · have hbefore := henum.end_le he he' hlt
      simp only [Element.end_] at hbefore
      omega
    · rw [he, Option.some.injEq] at he'
      rw [he']
  cases maybeRangeEnd with
  | none => exact hend
  | some a =>
    simp only [Option.any_some, decide_eq_true_eq] at hend ⊢
    omega

theorem Enumerates.eq_of_start (he : elems[i]? = some e) (he' : elems[j]? = some e')
    (hstart : e.start = e'.start) : i = j := by
  rcases Nat.lt_trichotomy i j with hlt | heq | hgt
  · have hbit := henum.bit_lt he he' hlt
    rw [hstart] at hbit
    exact absurd hbit (Nat.lt_irrefl _)
  · exact heq
  · have hbit := henum.bit_lt he' he hgt
    rw [hstart] at hbit
    exact absurd hbit (Nat.lt_irrefl _)

/-- The elements behind an aligned one are aligned. -/
theorem Enumerates.dvd_start_of_le (hfirst : elems[m]? = some first) (hd : fam.align ∣ first.start)
    (he : elems[i]? = some e) (hmi : m ≤ i) : fam.align ∣ e.start := by
  rcases Nat.eq_zero_or_pos i with rfl | hpos
  · rw [Nat.le_zero.mp hmi, he, Option.some.injEq] at hfirst
    exact hfirst ▸ hd
  · exact henum.dvd_start he hpos

/-- At the end of the range the loop stops. -/
theorem Enumerates.walkLoop_stop (env : SeqEnv) (he : elems[i]? = some e) (hd : fam.align ∣ e.start)
    (hend : maybeRangeEnd.any (· ≤ e.start) = true) (fuel : Nat) :
    fam.walkLoop env begin end_ s maybeRangeEnd m (fun _ => 0) (fuel + 1)
      (((elems.take n)[i]?).map fun e => fam.bitOf begin e.start) i = some ([], 0) := by
  have hbegin := (henum.sorted.1 e (List.mem_of_getElem? he)).1
  rw [List.getElem?_take]
  split
  · rw [he, Option.map_some]
    simp [PackedSequenceFamily.walkLoop, (base_add_bitOf_iff hbegin).mpr hd, hend]
  · rfl

/-- The elements from the end of the range on are not in it. -/
theorem Enumerates.filter_zipIdx_eq_nil (hrest : elems.drop i = e :: rest)
    (he : elems[i]? = some e) (hend : maybeRangeEnd.any (· ≤ e.start) = true) :
    ((e :: rest).zipIdx i).filter (fun x => !maybeRangeEnd.any (· ≤ x.1.start)) = [] := by
  refine List.filter_eq_nil_iff.mpr fun x hx => ?_
  obtain ⟨hle, hget⟩ := List.mk_mem_zipIdx_iff_le_and_getElem?_sub.mp hx
  rw [← hrest, List.getElem?_drop, Nat.add_sub_cancel' hle] at hget
  simp [henum.any_le he hget hle hend]

variable (h : fam.Caches begin (elems.take n) s)
include h

theorem Caches.bitmapFindFirstSet1Geq_eq (he : elems[i]? = some e) :
    bitmapFindFirstSet1Geq env.bitmaps s.startsBitmap s.startsBitmapNwords
        (fam.bitOf begin e.start + 1)
      = ((elems.take n)[i + 1]?).map fun e' => fam.bitOf begin e'.start := by
  -- a bit beyond that of the element belongs to a later one
  have hlater : ∀ k, fam.bitOf begin e.start < k → s.startsBitmap k = true →
      ∃ j e', i < j ∧ (elems.take n)[j]? = some e' ∧ fam.bitOf begin e'.start = k := by
    intro k hk hset
    obtain ⟨e', hmem, rfl⟩ := (h.bits k).mp hset
    obtain ⟨j, hj, he'⟩ := mem_take_iff.mp hmem
    refine ⟨j, e', ?_, by rw [List.getElem?_take_of_lt hj, he'], rfl⟩
    by_contra hij
    rcases Nat.lt_or_eq_of_le (not_lt.mp hij) with hji | rfl
    · have hbit := henum.bit_lt he' he hji
      omega
    · rw [he, Option.some.injEq] at he'
      rw [he'] at hk
      exact hk.false
  cases hnext : (elems.take n)[i + 1]? with
  | none =>
    refine env.bitmaps.firstGeq_eq_none fun k hk => ?_
    by_contra hset
    obtain ⟨j, e', hij, he', -⟩ := hlater k (by omega) (by simpa using hset)
    have hj := (List.getElem?_eq_some_iff.mp he').1
    have hlen := List.getElem?_eq_none_iff.mp hnext
    omega
  | some e' =>
    have hmem := List.mem_of_getElem? hnext
    have hinside := h.inside e' hmem
    obtain ⟨-, hnext⟩ := getElem?_take_eq_some.mp hnext
    have hbit := henum.bit_lt he hnext (Nat.lt_succ_self i)
    rw [Option.map_some]
    refine bitmapFindFirstSet1Geq_eq_some hbit hinside ((h.bits _).mpr ⟨e', hmem, rfl⟩)
      fun k hk hlt => ?_
    by_contra hset
    obtain ⟨j, e1, hij, he1, rfl⟩ := hlater k (by omega) (by simpa using hset)
    obtain ⟨-, he1⟩ := getElem?_take_eq_some.mp he1
    rcases Nat.lt_or_eq_of_le (Nat.succ_le_of_lt hij) with hlt' | rfl
    · have hbit' := henum.bit_lt hnext he1 hlt'
      omega
    · rw [hnext, Option.some.injEq] at he1
      rw [he1] at hlt
      exact hlt.false

variable (hbelow : ∀ e ∈ elems, e.start < end_)
include hbelow

theorem lt_add_reach_iff {offset : Nat}
    (hoffset : s.offsetCachedUpTo < offset) (he : elems[i]? = some e) (he' : elems[i + 1]? = some e') :
    i + 1 < n + reach (begin + target begin end_ s offset) (elems.drop n)
      ↔ fam.NextCached begin end_ s offset e := by
  have hnext := henum.next_start he he'
  have hcached := h.lt_iff henum he'
  have hlen := (List.getElem?_eq_some_iff.mp he').1
  have hend := hbelow e' (List.mem_of_getElem? he')
  have hle := fam.le_roundUp e.end_
  unfold NextCached
  rw [← hnext] at hle ⊢
  rw [← hcached, and_iff_right hoffset]
  by_cases hlt : i + 1 < n
  · exact iff_of_true (by omega) (.inl hlt)
  rw [or_iff_right hlt]
  by_cases heq : i + 1 = n
  · have hstart := h.offset.trans (henum.after_take n)
    simp only [← heq, he'] at hstart
    refine iff_of_true ?_ ?_
    · have hpos : 0 < reach (begin + target begin end_ s offset) (elems.drop n) :=
        lt_reach (by rw [List.length_drop]; omega) fun i' e1 hi' => absurd hi' (Nat.not_lt_zero _)
      omega
    · simp only [target]
      omega
  refine ⟨fun hreach => ?_, fun hend => ?_⟩
  · have hlt' : i + 1 - n < reach (begin + target begin end_ s offset) (elems.drop n) := by omega
    refine end_lt_of_lt_reach (i := i - n) hlt' (by omega) ?_
    rw [List.getElem?_drop, Nat.add_sub_cancel' (by omega)]
    exact he
  · have hreach : i + 1 - n < reach (begin + target begin end_ s offset) (elems.drop n) := by
      refine lt_reach (by rw [List.length_drop]; omega) fun i' e1 hi' he1 => ?_
      rw [List.getElem?_drop] at he1
      by_cases hi : n + i' = i
      · rw [hi, he, Option.some.injEq] at he1
        exact he1 ▸ hend
      · have hbefore := henum.end_le he1 he (by omega)
        simp only [Element.end_] at hbefore hend ⊢
        omega
    omega

theorem Caches.next_iff (offset : Nat) (he : elems[i]? = some e) (he' : elems[i + 1]? = some e') :
    i + 1 < cachedBy begin end_ elems n s offset ↔ fam.NextCached begin end_ s offset e := by
  unfold cachedBy
  split
  · rename_i hoffset
    exact lt_add_reach_iff henum h hbelow hoffset he he'
  · rename_i hoffset
    rw [h.lt_iff henum he', henum.next_start he he', NextCached]
    exact (or_iff_left fun hc => hoffset hc.1).symm

/-! ### One call of the callback -/

/-- A turn of the loop calls back for the element and goes on with the next one. -/
theorem Caches.walkLoop_step (env : SeqEnv) (hfirst : elems[m]? = some first) (hm : m < n)
    (he : elems[i]? = some e) (hd : fam.align ∣ e.start)
    (hend : maybeRangeEnd.any (· ≤ e.start) = false) (fuel : Nat) :
    fam.walkLoop env begin end_ s maybeRangeEnd m (fun _ => 0) (fuel + 1)
        (some (fam.bitOf begin e.start)) i
      = (fam.walkedType env first (cachedSize end_ elems n i e)).bind fun type =>
          (fam.walkLoop env begin end_ s maybeRangeEnd m (fun _ => 0) fuel
            (((elems.take n)[i + 1]?).map fun e' => fam.bitOf begin e'.start) (i + 1)).map fun r =>
              (⟨e.start, type, i + 1⟩ :: r.1, r.2) := by
  have hbegin := (henum.sorted.1 e (List.mem_of_getElem? he)).1
  have hobj := (base_add_bitOf_iff hbegin).mpr hd
  have hpadded : fam.paddedSize end_ e.start (fam.bitOf begin e.start)
      (((elems.take n)[i + 1]?).map fun e' => fam.bitOf begin e'.start)
        = cachedSize end_ elems n i e := by
    unfold cachedSize
    cases hnext : (elems.take n)[i + 1]? with
    | none => exact if_pos (hbelow e (List.mem_of_getElem? he)).le
    | some e' =>
      obtain ⟨-, hnext⟩ := getElem?_take_eq_some.mp hnext
      have hbase := fam.base_le begin
      simp only [Option.map_some, paddedSize, Nat.sub_mul, bitOf_mul_align begin hd,
        bitOf_mul_align begin (henum.dvd_start hnext (Nat.succ_pos i))]
      exact Nat.sub_sub_sub_cancel_right (hbase.trans hbegin)
  have htype : ∀ paddedSz, (fam.walkType s m paddedSz).bind (fun x => env.fixupT x.1 x.2)
      = fam.walkedType env first paddedSz := by
    intro paddedSz
    unfold walkType walkedType
    by_cases hk : fam.metavector = .noMetavector
    · simp [hk, Option.bind_assoc]
    · simp [hk, h.metavector_getElem? hk hfirst hm, Option.bind_assoc]
  simp only [PackedSequenceFamily.walkLoop, hobj, hend, h.bitmapFindFirstSet1Geq_eq henum he, hpadded,
    ← htype]
  simp [Option.map_eq_bind, Option.bind_assoc]

/-! ### The loop -/

/-- The loop calls back for the elements of the range just when they all get their types.  By
induction on those left. -/
theorem Caches.walkLoop_iff (env : SeqEnv) (hfirst : elems[m]? = some first) (hm : m < n)
    (hd : fam.align ∣ first.start)
    (hcover : ∀ i e, elems[i]? = some e → maybeRangeEnd.any (· ≤ e.start) = false → i < n) :
    ∀ rest i fuel, elems.drop i = rest → m ≤ i → 0 < fuel →
      (∀ e, (elems.take n)[i]? = some e → s.nbits < fuel + fam.bitOf begin e.start) →
      ((∃ calls, fam.walkLoop env begin end_ s maybeRangeEnd m (fun _ => 0) fuel
            (((elems.take n)[i]?).map fun e => fam.bitOf begin e.start) i = some (calls, 0)
          ∧ List.Forall₂ (IsCallFor env)
            ((rest.zipIdx i).filter fun x => !maybeRangeEnd.any (· ≤ x.1.start)) calls)
        ↔ fam.TypedFrom env end_ elems n maybeRangeEnd first i) := by
  intro rest
  induction rest with
  | nil =>
    intro i fuel hrest _ hfuel _
    have hlen := List.drop_eq_nil_iff.mp hrest
    have hnone : (elems.take n)[i]? = none :=
      List.getElem?_eq_none ((List.length_take_le' n elems).trans hlen)
    obtain _ | fuel := fuel
    · omega
    rw [hnone]
    refine iff_of_true ⟨[], rfl, List.Forall₂.nil⟩ fun j e hij he => ?_
    have hj := (List.getElem?_eq_some_iff.mp he).1
    omega
  | cons e rest ih =>
    intro i fuel hrest hmi hfuel hnbits
    obtain _ | fuel := fuel
    · omega
    have he : elems[i]? = some e := by
      rw [← Nat.add_zero i, ← List.getElem?_drop, hrest]
      rfl
    have hrest' : elems.drop (i + 1) = rest := by
      rw [← List.drop_drop, hrest]
      rfl
    have hde := henum.dvd_start_of_le hfirst hd he hmi
    cases hend : maybeRangeEnd.any (· ≤ e.start) with
    | true =>
      refine iff_of_true ⟨[], henum.walkLoop_stop env he hde hend fuel, ?_⟩ fun j e' hij he' hc => ?_
      · rw [henum.filter_zipIdx_eq_nil hrest he hend]
        exact List.Forall₂.nil
      · rw [henum.any_le he he' hij hend] at hc
        exact Bool.noConfusion hc
    | false =>
      have hget := getElem?_take_eq_some.mpr ⟨hcover i e he hend, he⟩
      have hbit := hnbits e hget
      have hinside := h.inside e (List.mem_of_getElem? hget)
      have hnext := ih (i + 1) fuel hrest' (by omega) (by omega) (fun e' he' => by
        have hlt := henum.bit_lt he (getElem?_take_eq_some.mp he').2 (Nat.lt_succ_self i)
        omega)
      rw [typedFrom_iff env he hend, ← hnext, hget, Option.map_some,
        h.walkLoop_step henum hbelow env hfirst hm he hde hend, List.zipIdx_cons,
        List.filter_cons_of_pos (by simp [hend])]
      exact calls_cons_iff env e _ _ _

end

/-! ### A walk -/

/-- The elements that start in a range, with their numbers. -/
def inRange (rangeBegin : Nat) (maybeRangeEnd : Option Nat) (elems : List Element) :
    List (Element × Nat) :=
  elems.zipIdx.filter fun x => rangeBegin ≤ x.1.start && !maybeRangeEnd.any (· ≤ x.1.start)

/-- A walk calls back for the elements of the range in their order. -/
def WalksElements (fam : PackedSequenceFamily) (env : SeqEnv) (begin end_ : Nat) (elems : List Element)
    (s : PackedSequence) (maybeRangeBegin maybeRangeEnd : Option Nat) : Prop :=
  ∃ s' calls, fam.walkAllocations env begin end_ s (fun _ => 0) maybeRangeBegin maybeRangeEnd
      = some (s', calls, 0)
    ∧ List.Forall₂ (IsCallFor env) (inRange (maybeRangeBegin.getD begin) maybeRangeEnd elems) calls

/-- The distance to the next element, if that is cached by the walk, or to the end. -/
def sizeWalked (fam : PackedSequenceFamily) (begin end_ : Nat) (elems : List Element)
    (s : PackedSequence) (maybeRangeEnd : Option Nat) (i : Nat) (e : Element) : Nat :=
  if i + 1 < elems.length ∧ fam.NextCached begin end_ s (maybeRangeEnd.getD end_ - begin) e then
    roundUp e.end_ fam.align - e.start
  else end_ - e.start

/-- The range ends before its first bit, or begins at an element whose record is right for all of the
range. -/
def Walkable (fam : PackedSequenceFamily) (env : SeqEnv) (begin end_ : Nat) (elems : List Element)
    (s : PackedSequence) (maybeRangeBegin maybeRangeEnd : Option Nat) : Prop :=
  maybeRangeEnd.any (· ≤ roundDown (maybeRangeBegin.getD begin) fam.align) = true
    ∨ ∃ m first, elems[m]? = some first ∧ first.start = maybeRangeBegin.getD begin
      ∧ fam.align ∣ first.start
      ∧ ∀ i e, m ≤ i → elems[i]? = some e → maybeRangeEnd.any (· ≤ e.start) = false →
        fam.Typed env first e (fam.sizeWalked begin end_ elems s maybeRangeEnd i e)

theorem base_add_bitOf (h : begin ≤ a) :
    fam.bitmapBaseAddr begin + fam.bitOf begin a * fam.align = roundDown a fam.align := by
  have hle : begin / fam.align * fam.align ≤ a / fam.align * fam.align :=
    Nat.mul_le_mul_right _ (Nat.div_le_div_right h)
  have hbit : fam.bitOf begin a = a / fam.align - begin / fam.align := by
    rw [bitOf, bitmapBaseAddr, roundDown, Nat.mul_comm, Nat.sub_mul_div]
  rw [hbit, Nat.sub_mul]
  exact Nat.add_sub_cancel' hle

theorem inRange_eq (henum : fam.Enumerates end_ begin elems) (hfirst : elems[m]? = some first)
    (maybeRangeEnd : Option Nat) :
    inRange first.start maybeRangeEnd elems
      = ((elems.drop m).zipIdx m).filter fun x => !maybeRangeEnd.any (· ≤ x.1.start) := by
  have hlen := (List.getElem?_eq_some_iff.mp hfirst).1
  have hsplit : elems.zipIdx = (elems.take m).zipIdx ++ (elems.drop m).zipIdx m := by
    nth_rewrite 1 [← List.take_append_drop m elems]
    rw [List.zipIdx_append, List.length_take_of_le hlen.le, Nat.zero_add]
  have hbefore : ∀ x ∈ (elems.take m).zipIdx, ¬ first.start ≤ x.1.start := by
    intro x hx hle
    have hget := List.mk_mem_zipIdx_iff_getElem?.mp hx
    obtain ⟨hlt, hget⟩ := getElem?_take_eq_some.mp hget
    have hend := henum.end_le hget hfirst hlt
    have hsize := (henum.sorted.1 x.1 (List.mem_of_getElem? hget)).2
    simp only [Element.end_] at hend
    omega
  have hafter : ∀ x ∈ (elems.drop m).zipIdx m, first.start ≤ x.1.start := by
    intro x hx
    obtain ⟨hle, hget⟩ := List.mk_mem_zipIdx_iff_le_and_getElem?_sub.mp hx
    rw [List.getElem?_drop, Nat.add_sub_cancel' hle] at hget
    have hmono : (some first.start).any (· ≤ x.1.start) = true :=
      henum.any_le hfirst hget hle (by simp)
    simpa using hmono
  rw [inRange, hsplit, List.filter_append, List.filter_eq_nil_iff.mpr fun x hx => by
    simp [hbefore x hx], List.nil_append]
  exact List.filter_congr fun x hx => by simp [hafter x hx]

theorem inRange_eq_nil {b : Nat} (hab : a ≤ b)
    (hend : maybeRangeEnd.any (· ≤ a) = true) : inRange b maybeRangeEnd elems = [] := by
  refine List.filter_eq_nil_iff.mpr fun x _ => ?_
  cases maybeRangeEnd with
  | none => exact absurd hend (by simp)
  | some c =>
    simp only [Option.any_some, decide_eq_true_eq] at hend
    simp only [Option.any_some, Bool.and_eq_true, decide_eq_true_eq, Bool.not_eq_true',
      decide_eq_false_iff_not]
    omega

theorem walkLoop_head {bit coord : Nat}
    (hend : maybeRangeEnd.any (· ≤ fam.bitmapBaseAddr begin + bit * fam.align) = false)
    {calls : List WalkCall} {ret : Nat}
    (h : fam.walkLoop env begin end_ s maybeRangeEnd m (fun _ => 0) fuel (some bit) coord
      = some (calls, ret)) :
    ∃ call calls', calls = call :: calls' ∧ call.obj = fam.bitmapBaseAddr begin + bit * fam.align := by
  cases fuel with
  | zero => exact absurd h (by simp [PackedSequenceFamily.walkLoop])
  | succ fuel =>
    simp only [PackedSequenceFamily.walkLoop, hend, Bool.false_eq_true, if_false, ne_eq, not_true,
      Option.bind_eq_bind, Option.bind_eq_some_iff] at h
    obtain ⟨x, -, type, -, r, -, heq⟩ := h
    exact ⟨_, _, (Prod.mk.inj (Option.some.inj heq)).1.symm, rfl⟩

theorem bitOf_lt_two_pow (h : a < begin + 2 ^ 32) : fam.bitOf begin a < 2 ^ 32 := by
  have hpos := fam.align_pos
  have hmod := Nat.mod_lt begin hpos
  have hdiv := Nat.div_add_mod' begin fam.align
  rw [bitOf, Nat.div_lt_iff_lt_mul hpos, bitmapBaseAddr, roundDown]
  omega

/-- A walk is the loop from the first bit of the range, after the call that caches it. -/
theorem walksElements_iff (hbegin : begin ≤ maybeRangeBegin.getD begin)
    (hlt : maybeRangeBegin.getD begin < begin + 2 ^ 32) (hend : begin ≤ maybeRangeEnd.getD end_)
    (hlt' : maybeRangeEnd.getD end_ < begin + 2 ^ 32)
    (hs' : fam.ensureCachedUpTo begin end_ s (maybeRangeEnd.getD end_ - begin) = some s') :
    fam.WalksElements env begin end_ elems s maybeRangeBegin maybeRangeEnd ↔ ∃ calls,
      fam.walkLoop env begin end_ s' maybeRangeEnd
          (s'.bitmapCountSet env (fam.bitOf begin (maybeRangeBegin.getD begin))) (fun _ => 0) (s'.nbits + 2)
          (some (fam.bitOf begin (maybeRangeBegin.getD begin)))
          (s'.bitmapCountSet env (fam.bitOf begin (maybeRangeBegin.getD begin))) = some (calls, 0)
        ∧ List.Forall₂ (IsCallFor env)
          (inRange (maybeRangeBegin.getD begin) maybeRangeEnd elems) calls := by
  have hoffset : sub64 (maybeRangeEnd.getD end_) begin % 2 ^ 32 = maybeRangeEnd.getD end_ - begin := by
    rw [sub64, if_pos hend, Nat.mod_eq_of_lt (by omega)]
  have hbit : fam.bitOf begin (maybeRangeBegin.getD begin) < 2 ^ 32 := bitOf_lt_two_pow hlt
  have hidx : sub64 (maybeRangeBegin.getD begin) (fam.bitmapBaseAddr begin) / fam.align % 2 ^ 32
      = fam.bitOf begin (maybeRangeBegin.getD begin) := by
    rw [sub64, if_pos (Nat.le_trans (fam.base_le begin) hbegin)]
    exact Nat.mod_eq_of_lt hbit
  have hcount := Nat.mod_eq_of_lt (Nat.lt_of_le_of_lt (Nat.count_le
    (p := fun i => s'.startsBitmap i = true)) hbit)
  unfold WalksElements
  simp only [walkAllocations, hoffset, hs', hidx, PackedSequence.bitmapCountSet, env.bitmaps.countBelow_eq, hcount,
    Option.bind_eq_bind, Option.bind_some, Option.bind_eq_some_iff, Option.some.injEq, Prod.mk.injEq]
  refine ⟨fun h => ?_, fun h => ?_⟩
  · obtain ⟨s1, calls, ⟨r, hr, -, rfl, h0⟩, hcalls⟩ := h
    exact ⟨r.1, by rw [hr, ← h0], hcalls⟩
  · obtain ⟨calls, hr, hcalls⟩ := h
    exact ⟨s', calls, ⟨_, hr, rfl, rfl, rfl⟩, hcalls⟩

theorem getD_bounds {maybe : Option Nat} {d : Nat} (h : ∀ a ∈ maybe, begin ≤ a ∧ a ≤ end_)
    (hd : begin ≤ d ∧ d ≤ end_) : begin ≤ maybe.getD d ∧ maybe.getD d ≤ end_ := by
  cases maybe with
  | none => exact hd
  | some a => exact h a rfl

theorem start_lt_of_any (hend : begin ≤ maybeRangeEnd.getD end_) (hlt : e.start < end_)
    (hany : maybeRangeEnd.any (· ≤ e.start) = false) :
    e.start < begin + (maybeRangeEnd.getD end_ - begin) := by
  cases maybeRangeEnd with
  | none =>
    simp only [Option.getD_none] at hend ⊢
    omega
  | some a =>
    simp only [Option.getD_some, Option.any_some, decide_eq_false_iff_not] at hend hany ⊢
    omega

section

variable (henum : fam.Enumerates end_ begin elems) (h : fam.Caches begin (elems.take n) s)
  (hbelow : ∀ e ∈ elems, e.start < end_)
include henum h hbelow

theorem Caches.cachedSize_eq (he : elems[i]? = some e) :
    cachedSize end_ elems (cachedBy begin end_ elems n s (maybeRangeEnd.getD end_ - begin)) i e
      = fam.sizeWalked begin end_ elems s maybeRangeEnd i e := by
  unfold cachedSize sizeWalked
  by_cases hlen : i + 1 < elems.length
  · obtain ⟨e', he'⟩ : ∃ e', elems[i + 1]? = some e' := ⟨_, List.getElem?_eq_getElem hlen⟩
    rw [List.getElem?_take, he', ← henum.next_start he he']
    have hnext := h.next_iff henum hbelow (maybeRangeEnd.getD end_ - begin) he he'
    split_ifs with hm hc hc
    · rfl
    · exact absurd ⟨hlen, hnext.mp hm⟩ hc
    · exact absurd (hnext.mpr hc.2) hm
    · rfl
  · have hnone : ∀ m, (elems.take m)[i + 1]? = none := fun m =>
      List.getElem?_eq_none ((List.length_take_le' m elems).trans (not_lt.mp hlen))
    rw [hnone, if_neg fun hc => hlen hc.1]

/-- A walk beyond its first bit is right just when the range begins at the element of that bit, and
all its elements get their types. -/
theorem Caches.walkLoop_first_iff (env : SeqEnv) {rangeBegin : Nat} (hbegin : begin ≤ rangeBegin)
    (hcover : ∀ i e, elems[i]? = some e → maybeRangeEnd.any (· ≤ e.start) = false → i < n)
    (hgo : maybeRangeEnd.any (· ≤ roundDown rangeBegin fam.align) = false) :
    (∃ calls, fam.walkLoop env begin end_ s maybeRangeEnd
          (s.bitmapCountSet env (fam.bitOf begin rangeBegin)) (fun _ => 0) (s.nbits + 2)
          (some (fam.bitOf begin rangeBegin)) (s.bitmapCountSet env (fam.bitOf begin rangeBegin))
            = some (calls, 0)
        ∧ List.Forall₂ (IsCallFor env) (inRange rangeBegin maybeRangeEnd elems) calls)
      ↔ ∃ m first, elems[m]? = some first ∧ first.start = rangeBegin ∧ fam.align ∣ first.start
        ∧ ∀ i e, m ≤ i → elems[i]? = some e → maybeRangeEnd.any (· ≤ e.start) = false →
          fam.Typed env first e (cachedSize end_ elems n i e) := by
  have hobj : fam.bitmapBaseAddr begin + fam.bitOf begin rangeBegin * fam.align
      = roundDown rangeBegin fam.align := base_add_bitOf hbegin
  have hdown : roundDown rangeBegin fam.align ≤ rangeBegin := Nat.div_mul_le_self _ _
  by_cases hfirst : ∃ (m : Nat) (first : Element), elems[m]? = some first
      ∧ first.start = rangeBegin ∧ fam.align ∣ first.start
  · obtain ⟨m, first, hm, rfl, hd⟩ := hfirst
    rw [show roundDown first.start fam.align = first.start from Nat.div_mul_cancel hd] at hgo
    have hmn := hcover m first hm hgo
    have hloop := h.walkLoop_iff henum hbelow env hm hmn hd hcover (elems.drop m) m (s.nbits + 2)
      rfl le_rfl (by omega) (fun e _ => by omega)
    rw [List.getElem?_take_of_lt hmn, hm, Option.map_some, ← inRange_eq henum hm] at hloop
    rw [h.bitmapCountSet_eq henum hm hmn env, hloop]
    refine ⟨fun hall => ⟨m, first, hm, rfl, hd, hall⟩, fun hall => ?_⟩
    obtain ⟨m', first', hm', hstart', -, hall⟩ := hall
    obtain rfl := henum.eq_of_start hm' hm hstart'
    rw [hm, Option.some.injEq] at hm'
    exact hm' ▸ hall
  · refine iff_of_false (fun hcalls => hfirst ?_) fun hall => hfirst ?_
    · -- the first call is for an element that starts in the range, and so at its begin
      obtain ⟨calls, hloop, hall⟩ := hcalls
      rw [← hobj] at hgo
      obtain ⟨call, calls', rfl, hcall⟩ := walkLoop_head hgo hloop
      obtain ⟨x, l, hx, -, heq⟩ := List.forall₂_cons_right_iff.mp hall
      have hmem : x ∈ inRange rangeBegin maybeRangeEnd elems := by
        rw [heq]
        exact (.head _)
      obtain ⟨hzip, hin⟩ := List.mem_filter.mp hmem
      simp only [Bool.and_eq_true, decide_eq_true_eq] at hin
      rw [hx.obj, hobj] at hcall
      refine ⟨x.2, x.1, List.mk_mem_zipIdx_iff_getElem?.mp hzip, by omega, ?_⟩
      rw [hcall]
      exact Nat.dvd_mul_left _ _
    · obtain ⟨m, first, hm, hstart, hd, -⟩ := hall
      exact ⟨m, first, hm, hstart, hd⟩

/-- A walk of a range of the sequence, when some of it is cached. -/
theorem Caches.walksElements_iff (env : SeqEnv) (hsmall : fam.Small begin elems)
    (htight : fam.Tight begin elems) (hle : begin ≤ end_) (hlarge : end_ < begin + 2 ^ 32)
    (hbegin : ∀ a ∈ maybeRangeBegin, begin ≤ a ∧ a ≤ end_)
    (hend : ∀ a ∈ maybeRangeEnd, begin ≤ a ∧ a ≤ end_) :
    fam.WalksElements env begin end_ elems s maybeRangeBegin maybeRangeEnd
      ↔ fam.Walkable env begin end_ elems s maybeRangeBegin maybeRangeEnd := by
  obtain ⟨hfrom, hfrom'⟩ := getD_bounds hbegin ⟨le_rfl, hle⟩
  obtain ⟨hto, hto'⟩ := getD_bounds hend ⟨hle, le_rfl⟩
  obtain ⟨s', hs', hc', -, hcached, -⟩ :=
    h.ensure_covers henum hsmall htight hbelow (maybeRangeEnd.getD end_ - begin)
  rw [PackedSequenceFamily.walksElements_iff hfrom (by omega) hto (by omega) hs', Walkable]
  cases hstop : maybeRangeEnd.any (· ≤ roundDown (maybeRangeBegin.getD begin) fam.align) with
  | true =>
    refine iff_of_true ⟨[], ?_, ?_⟩ (.inl rfl)
    · simp [PackedSequenceFamily.walkLoop, base_add_bitOf hfrom, hstop]
    · rw [inRange_eq_nil (Nat.div_mul_le_self _ _) hstop]
      exact List.Forall₂.nil
  | false =>
    rw [or_iff_right Bool.false_ne_true, hc'.walkLoop_first_iff henum hbelow env hfrom
      (fun i e he hany => hcached i e he
        (start_lt_of_any hto (hbelow e (List.mem_of_getElem? he)) hany)) hstop]
    refine exists_congr fun m => exists_congr fun first => and_congr_right fun _ =>
      and_congr_right fun _ => and_congr_right fun _ => forall₂_congr fun i e =>
        forall₃_congr fun _ he _ => ?_
    rw [h.cachedSize_eq henum hbelow he]

end

/-- **A walk calls back for the elements that start in its range just when it begins at one of them
and the sizes and the first record lead to their types.** -/
theorem walkAllocations_elements_iff (fam : PackedSequenceFamily) (env : SeqEnv) (begin end_ : Nat)
    (elems : List Element) (offsets : List Nat) (s : PackedSequence)
    (maybeRangeBegin maybeRangeEnd : Option Nat) (henum : fam.Enumerates end_ begin elems)
    (hsmall : fam.Small begin elems) (htight : fam.Tight begin elems)
    (hbelow : ∀ e ∈ elems, e.start < end_) (hle : begin ≤ end_) (hlarge : end_ < begin + 2 ^ 32)
    (hs : fam.run begin end_ {} offsets = some s)
    (hbegin : ∀ a ∈ maybeRangeBegin, begin ≤ a ∧ a ≤ end_)
    (hend : ∀ a ∈ maybeRangeEnd, begin ≤ a ∧ a ≤ end_) :
    fam.WalksElements env begin end_ elems s maybeRangeBegin maybeRangeEnd
      ↔ fam.Walkable env begin end_ elems s maybeRangeBegin maybeRangeEnd := by
  obtain ⟨n, hc, -⟩ := Caches.run henum hsmall blank_default offsets s hs
  exact hc.walksElements_iff henum hbelow env hsmall htight hle hlarge hbegin hend

theorem walkAllocations_elements_iff_sample : ∃ s,
    sampleFamily.run 4096 4112 {} [1] = some s
      ∧ sampleFamily.WalksElements {} 4096 4112 sampleElements s (some 4104) none := by
  obtain ⟨s, hs⟩ := run_isSome sample_enumerates sample_small sample_tight (by decide) [1]
  refine ⟨s, hs, (walkAllocations_elements_iff sampleFamily {} 4096 4112 sampleElements [1] s (some 4104)
    none sample_enumerates sample_small sample_tight (by decide) (by decide) (by decide) hs (by decide)
    (by decide)).mpr (.inr ⟨1, ⟨4104, 5, 100⟩, rfl, rfl, by decide, fun i e hi he _ => ?_⟩)⟩
  have hlen : i < 2 := (List.getElem?_eq_some_iff.mp he).1
  obtain rfl : i = 1 := by omega
  rw [show sampleElements[1]? = some ⟨4104, 5, 100⟩ from rfl, Option.some.injEq] at he
  rw [sizeWalked, if_neg (show ¬ (1 + 1 < sampleElements.length ∧ _) from fun hc =>
    absurd hc.1 (by decide)), ← he]
  exact ⟨100, rfl, rfl⟩

/-- A range inside a string: nothing starts in it, and the walk calls back for where the range begins.
-/
theorem walkAllocations_inside : sampleStrings.Enumerates 4099 4096 [⟨4096, 3, 100⟩]
    ∧ inRange 4097 none [⟨4096, 3, 100⟩] = []
    ∧ (sampleStrings.walkAllocations {} 4096 4099 {} (fun _ => 0) (some 4097) none).map (·.2)
      = some ([⟨4097, 100, 2⟩], 0) :=
  ⟨⟨rfl, by decide, rfl, rfl⟩, by decide, by decide +kernel⟩

end Liballocs.PackedSequenceFamily
