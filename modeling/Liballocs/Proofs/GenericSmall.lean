/-
The index of small objects over whole sequences of operations.

Indexing and unindexing keep `Indexes`: the columns hold the entries of the live objects and nothing
else.  An object with a continuation has the biggest offset in its bucket, so that is deleted with it.
-/
import Liballocs.Proofs.SmallLookup

namespace Liballocs.ChunkRec

open SmallObject Columns Function

variable {env : Env} {begin ptr k j lp : Nat} {c : ChunkRec} {o o' : SmallObject} {e : Entry}
  {objs : List SmallObject} {r : Columns Entry}

/-- The chunk with other entries. -/
def withRect (c : ChunkRec) (r : Columns Entry) (biggest : Nat) : ChunkRec :=
  { c with metadataRecs := r.cells, biggestObject := biggest }

theorem rect_withRect (hw : r.width = c.rect.width) (hs : r.size = c.rect.size)
    (b : Nat) : (c.withRect r b).rect = r := by
  cases r
  simp only [rect, withRect] at hw hs ⊢
  rw [hw, hs]

/-! ### Indexing -/

theorem entriesOf_cons (begin lp k : Nat) (o : SmallObject) (objs : List SmallObject) :
    entriesOf begin lp (o :: objs) k = entriesIn begin lp k o ++ entriesOf begin lp objs k :=
  List.flatMap_cons

theorem entriesIn_start (begin lp : Nat) (o : SmallObject) :
    entriesIn begin lp (o.bucket begin lp) o = [o.startEntry begin lp] := if_pos rfl

theorem entriesIn_cont (hs : o.Spills begin lp) :
    entriesIn begin lp (o.bucket begin lp + 1) o = [o.contEntry begin lp] := by
  rw [entriesIn, if_neg (by omega), if_pos ⟨rfl, hs⟩]

theorem entriesIn_other (h1 : k ≠ o.bucket begin lp)
    (h2 : k = o.bucket begin lp + 1 → ¬ o.Spills begin lp) : entriesIn begin lp k o = [] := by
  rw [entriesIn, if_neg (Ne.symm h1), if_neg fun hc => h2 hc.1.symm hc.2]

theorem IsChunk.room (h : IsChunk env begin c) (hk : k < c.rect.width) {n : Nat}
    (hn : n < 2 ^ c.logPitch) : k + n * c.rect.width < c.rect.size := by
  obtain ⟨-, -, hsize⟩ := h.width_eq
  have hmul : (n + 1) * c.rect.width ≤ 2 ^ c.logPitch * c.rect.width := Nat.mul_le_mul_right _ hn
  rw [Nat.mul_comm (2 ^ c.logPitch), hsize, Nat.add_mul, Nat.one_mul] at hmul
  show _ < c.powerOfTwoSize
  omega

theorem indexSmallAllocInternal_eq (c : ChunkRec) (begin : Nat) (o : SmallObject) :
    c.indexSmallAllocInternal begin o.site o.start o.size =
      (c.rect.write (c.rect.firstNull Entry.isNull (o.bucket begin c.logPitch))
        (o.startEntry begin c.logPitch)).bind fun r =>
          (if o.Spills begin c.logPitch then
            r.write (r.firstNull Entry.isNull (o.bucket begin c.logPitch + 1))
              (o.contEntry begin c.logPitch)
          else some r).map fun r =>
            c.withRect r (if c.biggestObject < o.size then o.size else c.biggestObject) := by
  have hrange : c.bucketRangeEnd begin (o.bucket begin c.logPitch) < o.start + o.size
      ↔ o.Spills begin c.logPitch := by
    rw [Spills, base_succ]
    rfl
  unfold indexSmallAllocInternal
  rw [show memrectNbucketOf o.start begin c.logPitch = o.bucket begin c.logPitch from rfl]
  simp only [hrange, Option.bind_eq_bind, Option.pure_def]
  refine congrArg (Option.bind _) (funext fun r => ?_)
  split
  · rw [Option.map_eq_bind]
    rfl
  · rfl

theorem Indexes.add (h : Indexes env begin c objs) (hv : o.Valid env begin c.powerOfTwoSize)
    (ha : ∀ o' ∈ objs, o.Apart o') (hw : r.width = c.rect.width) (hs : r.size = c.rect.size)
    (hholds : r.Holds Entry.isNull (entriesOf begin c.logPitch (o :: objs))) :
    Indexes env begin (c.withRect r (if c.biggestObject < o.size then o.size else c.biggestObject))
      (o :: objs) := by
  have hlt := hv.size_lt
  have hbig := h.biggest_lt
  refine ⟨⟨h.chunk.logPitch_le, h.chunk.size_eq, h.chunk.minimum, h.chunk.begin_ge, h.chunk.end_le⟩,
    fun o' ho' => ?_, List.pairwise_cons.mpr ⟨ha, h.apart⟩,
    by rw [rect_withRect hw hs]; exact hholds, fun o' ho' => ?_, ?_⟩
  · rcases List.mem_cons.mp ho' with rfl | ho'
    · exact hv
    · exact h.valid o' ho'
  · show o'.size ≤ if c.biggestObject < o.size then o.size else c.biggestObject
    rcases List.mem_cons.mp ho' with rfl | ho'
    · split <;> omega
    · have := h.biggest o' ho'
      split <;> omega
  · show (if c.biggestObject < o.size then o.size else c.biggestObject) < 2 ^ 22
    split <;> omega

/-- The bags of entries with the object's added are those of one object more. -/
theorem entriesOf_cons_eq (begin lp : Nat) (o : SmallObject) (objs : List SmallObject) :
    entriesOf begin lp (o :: objs) =
      if o.Spills begin lp then
        update (update (entriesOf begin lp objs) (o.bucket begin lp)
            (o.startEntry begin lp :: entriesOf begin lp objs (o.bucket begin lp)))
          (o.bucket begin lp + 1)
          (o.contEntry begin lp :: entriesOf begin lp objs (o.bucket begin lp + 1))
      else
        update (entriesOf begin lp objs) (o.bucket begin lp)
          (o.startEntry begin lp :: entriesOf begin lp objs (o.bucket begin lp)) := by
  funext k
  rw [entriesOf_cons]
  by_cases h1 : k = o.bucket begin lp
  · subst h1
    rw [entriesIn_start]
    split
    · rw [update_of_ne (by omega), update_self]
      rfl
    · rw [update_self]
      rfl
  · split
    · rename_i hs
      by_cases h2 : k = o.bucket begin lp + 1
      · subst h2
        rw [entriesIn_cont hs, update_self]
        rfl
      · rw [update_of_ne h2, update_of_ne h1, entriesIn_other h1 fun hc => absurd hc h2]
        rfl
    · rename_i hs
      rw [update_of_ne h1, entriesIn_other h1 fun _ => hs]
      rfl

section

variable (h : Indexes env begin c objs) (hv : o.Valid env begin c.powerOfTwoSize)
  (ha : ∀ o' ∈ objs, o.Apart o')
include h hv ha

theorem Indexes.room_for (hk : k < c.rect.width) (he : entriesIn begin c.logPitch k o = [e]) :
    k + (entriesOf begin c.logPitch objs k).length * c.rect.width < c.rect.size := by
  refine h.chunk.room hk ?_
  have hvalid : ∀ o' ∈ o :: objs, o'.Valid env begin c.powerOfTwoSize :=
    List.forall_mem_cons.mpr ⟨hv, h.valid⟩
  have hle := entriesOf_length_le (k := k) h.chunk.logPitch_le hvalid
    (List.pairwise_cons.mpr ⟨ha, h.apart⟩)
  rw [entriesOf_cons, he, List.length_append, List.length_singleton] at hle
  omega

theorem Indexes.index :
    ∃ c', c.indexSmallAllocInternal begin o.site o.start o.size = some c'
      ∧ c'.powerOfTwoSize = c.powerOfTwoSize ∧ c'.logPitch = c.logPitch
      ∧ Indexes env begin c' (o :: objs) := by
  have hlp := h.chunk.logPitch_le
  have hv' : o.Valid env begin (c.rect.width * 2 ^ c.logPitch) := by
    rw [h.chunk.width_eq.2.2]
    exact hv
  have hk := SmallObject.bucket_lt hv'
  obtain ⟨r1, hr1, hw1, hs1, hholds1⟩ := h.columns.put isNull_default hk
    (h.room_for hv ha hk (entriesIn_start begin c.logPitch o))
    (startEntry_isNull h.chunk.minimum hlp hv)
  have hbags := entriesOf_cons_eq begin c.logPitch o objs
  rw [indexSmallAllocInternal_eq, hr1, Option.bind_some]
  by_cases hs : o.Spills begin c.logPitch
  · have hk' := hs.bucket_lt hv'
    rw [if_pos hs] at hbags ⊢
    have hother : update (entriesOf begin c.logPitch objs) (o.bucket begin c.logPitch)
        (o.startEntry begin c.logPitch :: entriesOf begin c.logPitch objs (o.bucket begin c.logPitch))
        (o.bucket begin c.logPitch + 1)
        = entriesOf begin c.logPitch objs (o.bucket begin c.logPitch + 1) :=
      update_of_ne (by omega) _ _
    obtain ⟨r2, hr2, hw2, hs2, hholds2⟩ := hholds1.put isNull_default (hw1 ▸ hk')
      (by rw [hother, hw1, hs1]; exact h.room_for hv ha hk' (entriesIn_cont hs))
      (contEntry_isNull c.logPitch hv)
    rw [hr2]
    rw [hother] at hholds2
    exact ⟨_, rfl, rfl, rfl, h.add hv ha (hw2.trans hw1) (hs2.trans hs1) (hbags ▸ hholds2)⟩
  · rw [if_neg hs] at hbags ⊢
    exact ⟨_, rfl, rfl, rfl, h.add hv ha hw1 hs1 (hbags ▸ hholds1)⟩

end

/-! ### Unindexing -/

theorem Indexes.perm {objs' : List SmallObject} (h : Indexes env begin c objs)
    (hp : objs.Perm objs') : Indexes env begin c objs' :=
  ⟨h.chunk, fun o ho => h.valid o (hp.mem_iff.mpr ho), hp.pairwise h.apart Apart.symm,
    h.columns.congr fun _ _ => hp.flatMap_right _, fun o ho => h.biggest o (hp.mem_iff.mpr ho),
    h.biggest_lt⟩

theorem Indexes.drop (h : Indexes env begin c (o :: objs)) (hw : r.width = c.rect.width)
    (hs : r.size = c.rect.size) (hholds : r.Holds Entry.isNull (entriesOf begin c.logPitch objs)) :
    Indexes env begin (c.withRect r c.biggestObject) objs :=
  ⟨⟨h.chunk.logPitch_le, h.chunk.size_eq, h.chunk.minimum, h.chunk.begin_ge, h.chunk.end_le⟩,
    fun o' ho' => h.valid o' (.tail _ ho'), (List.pairwise_cons.mp h.apart).2,
    by rw [rect_withRect hw hs]; exact hholds,
    fun o' ho' => h.biggest o' (.tail _ ho'), h.biggest_lt⟩

section

variable (h : Indexes env begin c objs) (ho : o ∈ objs) (hj : IsEntryOf c begin o j)

include h ho hj

theorem Indexes.weAreBiggestOffset_of_spills (hs : o.Spills begin c.logPitch) :
    c.weAreBiggestOffset j = true := by
  have hlp := h.chunk.logPitch_le
  obtain ⟨-, hmod⟩ := h.columns.read_mem isNull_default (h.bucket_lt ho) hj.1
  rw [weAreBiggestOffset, hmod, List.all_eq_true]
  intro i hi
  rw [decide_eq_true_eq, hj.2, startEntry_offset hlp (h.valid o ho)]
  rcases mem_entriesOf.mp (h.read_mem (h.bucket_lt ho) hi) with
    ⟨o', ho', hk, heq⟩ | ⟨o', ho', -, -, heq⟩
  · rw [heq, startEntry_offset hlp (h.valid o' ho')]
    rcases h.eq_or_apart ho' ho with rfl | ha
    · exact le_rfl
    · exact (ha.offset_lt_of_spills (h.valid o' ho') (h.valid o ho) hk hs).le
  · rw [heq]
    exact Nat.zero_le _

/-- If the object has the biggest offset and does not spill over, none of its bucket does. -/
theorem Indexes.not_spills_of_weAreBiggestOffset (hbig : c.weAreBiggestOffset j = true)
    (hs : ¬ o.Spills begin c.logPitch) (ho' : o' ∈ objs)
    (hk : o'.bucket begin c.logPitch = o.bucket begin c.logPitch) :
    ¬ o'.Spills begin c.logPitch := by
  have hlp := h.chunk.logPitch_le
  intro hs'
  rcases h.eq_or_apart ho ho' with rfl | ha
  · exact hs hs'
  · have hlt := ha.offset_lt_of_spills (h.valid o ho) (h.valid o' ho') hk.symm hs'
    obtain ⟨-, hmod⟩ := h.columns.read_mem isNull_default (h.bucket_lt ho) hj.1
    obtain ⟨i, hi, hread⟩ := h.exists_cell (h.bucket_lt ho) (hk ▸ startEntry_mem ho')
    rw [weAreBiggestOffset, hmod, List.all_eq_true] at hbig
    have hle := of_decide_eq_true (hbig i hi)
    rw [hj.2, hread, startEntry_offset hlp (h.valid o ho),
      startEntry_offset hlp (h.valid o' ho')] at hle
    omega

end

theorem Indexes.exists_spills (h : Indexes env begin c objs)
    (he : e ∈ entriesOf begin c.logPitch objs k) (hc : e.isContinuation env = true) :
    ∃ o ∈ objs, o.bucket begin c.logPitch + 1 = k ∧ o.Spills begin c.logPitch
      ∧ e = o.contEntry begin c.logPitch := by
  rcases mem_entriesOf.mp he with ⟨o, ho, -, rfl⟩ | hcont
  · rw [startEntry_isContinuation h.chunk.logPitch_le (h.valid o ho)] at hc
    exact absurd hc (by decide)
  · exact hcont

theorem Indexes.remove_start (h : Indexes env begin c (o :: objs)) (hj : IsEntryOf c begin o j) :
    ∃ r, c.rect.remove Entry.isNull j = some r
      ∧ c.rect.SameBut (c.rect.cellsFrom (o.bucket begin c.logPitch)) r
      ∧ r.Holds Entry.isNull (update (entriesOf begin c.logPitch (o :: objs))
          (o.bucket begin c.logPitch)
          (entriesOf begin c.logPitch objs (o.bucket begin c.logPitch))) := by
  refine h.columns.take isNull_default (h.bucket_lt (.head _)) hj.1 ?_
  rw [hj.2, entriesOf_cons, entriesIn_start]
  exact List.Perm.refl _

/-- The continuation entries in the next bucket are those of objects that spill into it.  Behind the
last bucket comes the second layer of the first, which has none. -/
theorem Indexes.next_continuations {E : Nat → List Entry} (h : Indexes env begin c objs)
    (hk : k < c.rect.width) (hw : r.width = c.rect.width) (hholds : r.Holds Entry.isNull E)
    (hsub : ∀ m, ∀ e ∈ E m, e ∈ entriesOf begin c.logPitch objs m) :
    ∀ i ∈ r.walk Entry.isNull (k + 1), (r.read i).isContinuation env = true →
      ∃ o ∈ objs, o.bucket begin c.logPitch = k ∧ o.Spills begin c.logPitch
        ∧ r.read i = o.contEntry begin c.logPitch := by
  intro i hi hc
  by_cases hk' : k + 1 < c.rect.width
  · obtain ⟨hmem, -⟩ := hholds.read_mem isNull_default (hw ▸ hk') hi
    obtain ⟨o, ho, hb, hs, heq⟩ := h.exists_spills (hsub _ _ hmem) hc
    exact ⟨o, ho, Nat.succ.inj hb, hs, heq⟩
  · have hlast : k + 1 = r.width := by omega
    rw [hlast] at hi
    have hmem := hholds.read_mem_width isNull_default (by omega) hi
    obtain ⟨o, -, hb, -⟩ := h.exists_spills (hsub _ _ hmem) hc
    exact absurd hb (Nat.succ_ne_zero _)

theorem entriesOf_tail_eq (begin lp : Nat) (o : SmallObject) (objs : List SmallObject) :
    entriesOf begin lp objs =
      if o.Spills begin lp then
        update (update (entriesOf begin lp (o :: objs)) (o.bucket begin lp)
            (entriesOf begin lp objs (o.bucket begin lp)))
          (o.bucket begin lp + 1) (entriesOf begin lp objs (o.bucket begin lp + 1))
      else
        update (entriesOf begin lp (o :: objs)) (o.bucket begin lp)
          (entriesOf begin lp objs (o.bucket begin lp)) := by
  funext k
  have hother : k ≠ o.bucket begin lp → (k = o.bucket begin lp + 1 → ¬ o.Spills begin lp) →
      entriesOf begin lp objs k = entriesOf begin lp (o :: objs) k := fun h1 h2 => by
    rw [entriesOf_cons, entriesIn_other h1 h2]
    rfl
  split
  · by_cases h2 : k = o.bucket begin lp + 1
    · rw [h2, update_self]
    · rw [update_of_ne h2]
      by_cases h1 : k = o.bucket begin lp
      · rw [h1, update_self]
      · rw [update_of_ne h1, hother h1 fun hc => absurd hc h2]
  · rename_i hs
    by_cases h1 : k = o.bucket begin lp
    · rw [h1, update_self]
    · rw [update_of_ne h1, hother h1 fun _ => hs]

theorem mem_of_mem_update (begin lp : Nat) (o : SmallObject) (objs : List SmallObject) :
    ∀ m, ∀ e ∈ update (entriesOf begin lp (o :: objs)) (o.bucket begin lp)
      (entriesOf begin lp objs (o.bucket begin lp)) m, e ∈ entriesOf begin lp (o :: objs) m := by
  intro m e he
  by_cases hm : m = o.bucket begin lp
  · rw [hm, update_self] at he
    rw [hm, entriesOf_cons]
    exact List.mem_append_right _ he
  · rwa [update_of_ne hm] at he

/-- Deleting an object's entry with its own continuation; those below it move up. -/
theorem Indexes.unindexSmallAllocInternalWithEnt_eq (h : Indexes env begin c (o :: objs))
    (hj : IsEntryOf c begin o j) :
    ∃ c', c.unindexSmallAllocInternalWithEnt env j = some c'
      ∧ c'.powerOfTwoSize = c.powerOfTwoSize ∧ c'.logPitch = c.logPitch ∧ Indexes env begin c' objs
      ∧ ∀ l p, IsColumn Entry.isNull c.rect (o.bucket begin c.logPitch) l → p < l.length →
        j = o.bucket begin c.logPitch + p * c.rect.width →
        IsColumn Entry.isNull c'.rect (o.bucket begin c.logPitch) (l.eraseIdx p) := by
  have ho : o ∈ o :: objs := List.mem_cons_self
  have hk := h.bucket_lt ho
  obtain ⟨-, hmod⟩ := h.columns.read_mem isNull_default hk hj.1
  obtain ⟨r1, hr1, hs1, hholds1⟩ := h.remove_start hj
  have hcont := h.next_continuations hk hs1.width hholds1 (mem_of_mem_update begin c.logPitch o objs)
  have htail := entriesOf_tail_eq begin c.logPitch o objs
  have hcol1 : ∀ l p, IsColumn Entry.isNull c.rect (o.bucket begin c.logPitch) l → p < l.length →
      j = o.bucket begin c.logPitch + p * c.rect.width →
      IsColumn Entry.isNull r1 (o.bucket begin c.logPitch) (l.eraseIdx p) := by
    intro l p hl hp hjp
    obtain ⟨r, hr, -, hcol⟩ := hl.remove_eq isNull_default (Nat.zero_lt_of_lt hk) hp
    rw [← hjp, hr1] at hr
    exact Option.some.inj hr ▸ hcol
  suffices hrest : ∃ r, (if c.weAreBiggestOffset j then
        removeContinuation env r1 (o.bucket begin c.logPitch + 1) else some r1) = some r
      ∧ r.width = c.rect.width ∧ r.size = c.rect.size
      ∧ r.Holds Entry.isNull (entriesOf begin c.logPitch objs)
      ∧ ∀ l, IsColumn Entry.isNull r1 (o.bucket begin c.logPitch) l →
        IsColumn Entry.isNull r (o.bucket begin c.logPitch) l by
    obtain ⟨r, hr, hw, hs, hholds, hkeep⟩ := hrest
    refine ⟨c.withRect r c.biggestObject, ?_, rfl, rfl, h.drop hw hs hholds,
      fun l p hl hp hjp => by rw [rect_withRect hw hs]; exact hkeep _ (hcol1 l p hl hp hjp)⟩
    simp only [unindexSmallAllocInternalWithEnt, hr1, hmod, some_bind, Option.pure_def]
    split at hr
    · rename_i hbig
      rw [if_pos hbig, hr]
      rfl
    · rename_i hbig
      rw [if_neg hbig, Option.some.inj hr]
      rfl
  by_cases hs : o.Spills begin c.logPitch
  · rw [if_pos hs] at htail
    have hk' : o.bucket begin c.logPitch + 1 < c.rect.width := hs.bucket_lt (h.valid' ho)
    have hk1 : o.bucket begin c.logPitch + 1 < r1.width := hs1.width.symm ▸ hk'
    obtain ⟨i0, hi0, hread0⟩ := hholds1.exists_cell isNull_default hk1
      (x := o.contEntry begin c.logPitch)
      (by rw [update_of_ne (Nat.succ_ne_self _)]; exact contEntry_mem ho hs)
    rw [if_pos (h.weAreBiggestOffset_of_spills ho hj hs), removeContinuation]
    cases hfind : (r1.walk Entry.isNull (o.bucket begin c.logPitch + 1)).find? fun i =>
        (r1.read i).isContinuation env with
    | none =>
      have := List.find?_eq_none.mp hfind i0 hi0
      rw [hread0, contEntry_isContinuation h.chunk.minimum (h.valid o ho)] at this
      exact absurd rfl this
    | some i =>
      have hi := List.mem_of_find?_eq_some hfind
      have hic := List.find?_some hfind
      obtain ⟨o', ho', hb, hs', hread⟩ := hcont i hi hic
      obtain rfl : o' = o := (h.eq_or_apart ho' ho).resolve_right fun ha =>
        ha.not_both_spill (h.valid o' ho') (h.valid o ho) hb hs' hs
      obtain ⟨r2, hr2, hs2, hholds2⟩ := hholds1.take isNull_default hk1 hi
        (l := entriesOf begin c.logPitch objs (o'.bucket begin c.logPitch + 1)) (by
          rw [hread, update_of_ne (Nat.succ_ne_self _), entriesOf_cons, entriesIn_cont hs]
          exact List.Perm.refl _)
      exact ⟨r2, hr2, hs2.width.trans hs1.width, hs2.size.trans hs1.size, htail ▸ hholds2,
        fun l hl => hl.of_other (Nat.lt_of_succ_lt hk1) hk1 (by omega) hs2⟩
  · rw [if_neg hs] at htail
    refine ⟨r1, ?_, hs1.width, hs1.size, htail ▸ hholds1, fun l hl => hl⟩
    split
    · rename_i hbig
      have hfind : (r1.walk Entry.isNull (o.bucket begin c.logPitch + 1)).find? (fun i =>
          (r1.read i).isContinuation env) = none := by
        refine List.find?_eq_none.mpr fun i hi hic => ?_
        obtain ⟨o', ho', hb, hs', -⟩ := hcont i hi hic
        exact h.not_spills_of_weAreBiggestOffset ho hj hbig hs ho' hb hs'
      rw [removeContinuation, hfind]
    · rfl

/-! ### Sequences of operations -/

/-- An operation on an object.  Unindexing is given some address of the object. -/
inductive Event where
  | index (o : SmallObject)
  | unindex (o : SmallObject) (ptr : Nat)

/-- What an operation does to the chunk. -/
def apply (env : Env) (begin : Nat) (c : ChunkRec) : Event → Option ChunkRec
  | .index o => c.indexSmallAllocInternal begin o.site o.start o.size
  | .unindex _ ptr => c.unindexSmallAllocInternal env begin ptr

/-- What a sequence of operations does, the last one first. -/
def run (env : Env) (begin : Nat) (c : ChunkRec) : List Event → Option ChunkRec
  | [] => some c
  | e :: es => (run env begin c es).bind fun c => c.apply env begin e

/-- The objects that are indexed after the operations. -/
def live : List Event → List SmallObject
  | [] => []
  | .index o :: es => o :: live es
  | .unindex o _ :: es => (live es).erase o

/-- Each object indexed is in the chunk, apart from the live ones; each unindexed one is live. -/
def ValidEvents (env : Env) (begin size : Nat) : List Event → Prop
  | [] => True
  | .index o :: es =>
    ValidEvents env begin size es ∧ o.Valid env begin size ∧ ∀ o' ∈ live es, o.Apart o'
  | .unindex o ptr :: es => ValidEvents env begin size es ∧ o ∈ live es ∧ o.Contains ptr

/-- Each object is unindexed by an address at which it shows; the lookup of any other one fails an
assertion. -/
def ShownEvents (begin lp : Nat) : List Event → Prop
  | [] => True
  | .index _ :: es => ShownEvents begin lp es
  | .unindex o ptr :: es => ShownEvents begin lp es ∧ o.Shows begin lp ptr

/-- A chunk in which nothing has been indexed. -/
structure Fresh (c : ChunkRec) : Prop where
  metadataRecs : ∀ i, c.metadataRecs i = default
  biggestObject : c.biggestObject = 0

theorem IsChunk.indexes (h : IsChunk env begin c) (hf : c.Fresh) : Indexes env begin c [] := by
  refine ⟨h, fun o ho => absurd ho List.not_mem_nil, List.Pairwise.nil, fun k _ => ⟨[], fun i => ?_,
    List.Perm.refl _⟩, fun o ho => absurd ho List.not_mem_nil, ?_⟩
  · have hread : c.rect.read (k + i * c.rect.width) = default := by
      unfold Columns.read
      split
      · exact hf.metadataRecs _
      · rfl
    rw [hread]
    rfl
  · rw [hf.biggestObject]
    decide

theorem Indexes.unindex (h : Indexes env begin c objs) (ho : o ∈ objs)
    (hc : o.Shows begin c.logPitch ptr) :
    ∃ c', c.unindexSmallAllocInternal env begin ptr = some c'
      ∧ c'.powerOfTwoSize = c.powerOfTwoSize ∧ c'.logPitch = c.logPitch
      ∧ Indexes env begin c' (objs.erase o) := by
  have hv := h.valid o ho
  have hb := hv.begin_le
  have he := hv.end_le
  obtain ⟨f, hf, -, hent⟩ :=
    (h.lookupSmallAlloc_eq (hb.trans hc.1.1) (hc.1.2.trans_le he)).1 o ho hc
  obtain ⟨c', hc', hsize, hpitch, hind, -⟩ :=
    (h.perm (List.perm_cons_erase ho)).unindexSmallAllocInternalWithEnt_eq hent
  exact ⟨c', by simp [unindexSmallAllocInternal, hf, hc'], hsize, hpitch, hind⟩

theorem IsChunk.run_indexes (h : IsChunk env begin c) (hf : c.Fresh) :
    ∀ es, ValidEvents env begin c.powerOfTwoSize es → ShownEvents begin c.logPitch es →
      ∃ c', c.run env begin es = some c' ∧ c'.powerOfTwoSize = c.powerOfTwoSize
        ∧ c'.logPitch = c.logPitch ∧ Indexes env begin c' (live es) := by
  intro es
  induction es with
  | nil => exact fun _ _ => ⟨c, rfl, rfl, rfl, h.indexes hf⟩
  | cons e es ih =>
    intro hes hshown
    cases e with
    | index o =>
      obtain ⟨hes, hv, ha⟩ := hes
      obtain ⟨c1, hc1, hsize1, hpitch1, hind1⟩ := ih hes hshown
      obtain ⟨c2, hc2, hsize2, hpitch2, hind2⟩ := hind1.index (hsize1 ▸ hv) ha
      exact ⟨c2, by simp [run, hc1, apply, hc2], hsize2.trans hsize1, hpitch2.trans hpitch1, hind2⟩
    | unindex o ptr =>
      obtain ⟨hes, ho, -⟩ := hes
      obtain ⟨hshown, hc⟩ := hshown
      obtain ⟨c1, hc1, hsize1, hpitch1, hind1⟩ := ih hes hshown
      obtain ⟨c2, hc2, hsize2, hpitch2, hind2⟩ := hind1.unindex ho (hpitch1 ▸ hc)
      exact ⟨c2, by simp [run, hc1, apply, hc2], hsize2.trans hsize1, hpitch2.trans hpitch1, hind2⟩

theorem ValidEvents.valid {size : Nat} :
    ∀ {es}, ValidEvents env begin size es → ∀ o ∈ live es, o.Valid env begin size
  | [], _, _, ho => absurd ho List.not_mem_nil
  | .index _ :: _, ⟨hes, hv, _⟩, o, ho => by
    rcases List.mem_cons.mp ho with rfl | ho
    · exact hv
    · exact hes.valid o ho
  | .unindex _ _ :: _, ⟨hes, _⟩, o, ho => hes.valid o (List.mem_of_mem_erase ho)

/-- With a pitch of at most 128, every object shows at all its addresses. -/
theorem ValidEvents.shownEvents {size lp : Nat} (hlp : lp ≤ 7) :
    ∀ {es}, ValidEvents env begin size es → ShownEvents begin lp es
  | [], _ => trivial
  | .index _ :: _, ⟨hes, _⟩ => hes.shownEvents hlp
  | .unindex o _ :: _, ⟨hes, ho, hc⟩ => ⟨hes.shownEvents hlp, ((hes.valid o ho).shown hlp).shows hc⟩

/-- With such a pitch the operations go through, and what is then indexed shows. -/
theorem IsChunk.run_shown (h : IsChunk env begin c) (hpitch : c.logPitch ≤ 7) (hf : c.Fresh)
    {es : List Event} (hes : ValidEvents env begin c.powerOfTwoSize es) :
    ∃ c', c.run env begin es = some c' ∧ c'.powerOfTwoSize = c.powerOfTwoSize
      ∧ Indexes env begin c' (live es) ∧ ∀ o ∈ live es, o.Shown begin c'.logPitch := by
  obtain ⟨c', hrun, hsize, hpitch', hind⟩ := h.run_indexes hf es hes (hes.shownEvents hpitch)
  exact ⟨c', hrun, hsize, hind, fun o ho => (hind.valid o ho).shown (hpitch'.symm ▸ hpitch)⟩

/-- **After any sequence of operations a lookup returns the entry and the start of the live object
with the address, and nothing where there is none.** -/
theorem lookupSmallAlloc_correct (env : Env) (begin : Nat) (c : ChunkRec) (es : List Event)
    (hchunk : IsChunk env begin c) (hpitch : c.logPitch ≤ 7) (hfresh : c.Fresh)
    (hes : ValidEvents env begin c.powerOfTwoSize es) :
    ∃ c', c.run env begin es = some c' ∧
      ∀ ptr, begin ≤ ptr → ptr < begin + c.powerOfTwoSize →
        (∀ o ∈ live es, o.Contains ptr →
            ∃ f, c'.lookupSmallAlloc env begin ptr = some (some f) ∧ IsFound c' begin o f)
          ∧ ((∀ o ∈ live es, ¬ o.Contains ptr) → c'.lookupSmallAlloc env begin ptr = some none) := by
  obtain ⟨c', hrun, hsize, hind, hshown⟩ := hchunk.run_shown hpitch hfresh hes
  exact ⟨c', hrun, fun ptr h1 h2 => hind.lookupSmallAlloc_shown hshown h1 (hsize.symm ▸ h2)⟩

/-! ### A chunk of eight buckets -/

/-- A chunk of 64 bytes with a pitch of eight. -/
def sampleChunkRec : ChunkRec := { powerOfTwoSize := 64, logPitch := 3 }

/-- An object in three of its buckets. -/
def sampleLong : SmallObject := { start := 4194307, size := 20, site := 5000000 }

/-- An object in the first bucket. -/
def sampleShort : SmallObject := { start := 4194305, size := 2, site := 5000001 }

/-- Parameters for the samples. -/
def sampleSmallEnv : Env := { biggestSaneUserAlloc := 2 ^ 32 }

theorem sampleChunkRec_isChunk : IsChunk sampleSmallEnv 4194304 sampleChunkRec :=
  ⟨by decide, ⟨3, by decide, rfl⟩, by decide, by decide, by decide⟩

theorem sampleChunkRec_fresh : sampleChunkRec.Fresh := ⟨fun _ => rfl, rfl⟩

theorem sample_validEvents :
    ValidEvents sampleSmallEnv 4194304 64 [.index sampleShort, .index sampleLong] := by
  refine ⟨⟨trivial, ?_, fun o ho => absurd ho List.not_mem_nil⟩, ?_, fun o ho => ?_⟩
  · exact ⟨by decide, by decide, by decide, by decide, by decide, by decide⟩
  · exact ⟨by decide, by decide, by decide, by decide, by decide, by decide⟩
  · rw [List.mem_singleton.mp ho]
    exact .inl (by decide)

theorem lookupSmallAlloc_correct_long : ∃ c f,
    sampleChunkRec.run sampleSmallEnv 4194304
        [.unindex sampleShort 4194306, .index sampleShort, .index sampleLong] = some c
      ∧ c.lookupSmallAlloc sampleSmallEnv 4194304 4194325 = some (some f)
      ∧ IsFound c 4194304 sampleLong f
      ∧ c.lookupSmallAlloc sampleSmallEnv 4194304 4194306 = some none := by
  have hes : ValidEvents sampleSmallEnv 4194304 64
      [.unindex sampleShort 4194306, .index sampleShort, .index sampleLong] :=
    ⟨sample_validEvents, .head _, by unfold Contains; decide⟩
  obtain ⟨c, hrun, hlookup⟩ := lookupSmallAlloc_correct sampleSmallEnv 4194304 sampleChunkRec _
    sampleChunkRec_isChunk (by decide) sampleChunkRec_fresh hes
  have hlive : live [.unindex sampleShort 4194306, .index sampleShort, .index sampleLong]
      = [sampleLong] := rfl
  obtain ⟨f, hf, hfound⟩ := (hlookup 4194325 (by decide) (by decide)).1 sampleLong
    (hlive ▸ List.mem_cons_self) (by unfold Contains; decide)
  refine ⟨c, f, hrun, hf, hfound, (hlookup 4194306 (by decide) (by decide)).2 fun o ho => ?_⟩
  rw [hlive, List.mem_singleton] at ho
  rw [ho]
  unfold Contains
  decide

end Liballocs.ChunkRec
