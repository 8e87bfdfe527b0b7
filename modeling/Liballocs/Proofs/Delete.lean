/-
Deleting a bigalloc.

`bigalloc_del` deletes the children one after the other, each with all below it, and then the record.
`Removed t s t'`: the records in `s` are gone, the others are as they were up to sibling links, and the
child lists have kept their order.  The order matters, since the loop reads a child's successor before
it deletes the child.  The one way to fail is the sanity limit of `memset_bigalloc`.
-/
import Liballocs.Proofs.Toplevel

namespace Liballocs

open Dll Forest

/-- Clearing the record frees the object at `p` of the private heap. -/
def BigAllocation.Frees (r : BigAllocation) (p : Nat) : Prop :=
  (r.allocatorPrivateFree = some .privateNommapFree ∧ r.allocatorPrivate = p ∧ p ≠ 0)
    ∨ (r.suballocatorPrivateFree = some .privateNommapFree ∧ r.suballocatorPrivate = p)

theorem BigAllocation.frees_core {r r' : BigAllocation} {p : Nat} (h : r'.core = r.core) :
    r'.Frees p ↔ r.Frees p := by
  have h1 := congrArg (·.allocatorPrivateFree) h
  have h2 := congrArg (·.allocatorPrivate) h
  have h3 := congrArg (·.suballocatorPrivateFree) h
  have h4 := congrArg (·.suballocatorPrivate) h
  simp only [BigAllocation.core] at h1 h2 h3 h4
  simp [Frees, h1, h2, h3, h4]

namespace Table

variable {env : Env} {t t' t'' : Table} {b c d n p q : Nat} {s s' : Set Nat}

/-- A record spans a page: all of the page is in it. -/
def SpansPage (t : Table) (n q : Nat) : Prop :=
  Spans (t.bigAllocations n).begin (t.bigAllocations n).end_ q

instance (t : Table) (n q : Nat) : Decidable (t.SpansPage n q) :=
  inferInstanceAs (Decidable (Spans _ _ _))

/-- The pages of the record are no more than `memset_bigalloc` takes for sane. -/
def Small (env : Env) (t : Table) (n : Nat) : Prop :=
  pageDist (roundUp (t.bigAllocations n).begin pageSize)
    (roundDown (t.bigAllocations n).end_ pageSize) ≤ env.biggestSaneUserAlloc >>> logPageSize

/-- A record lies in its parent. -/
def Inside (t : Table) (n : Nat) : Prop :=
  (t.bigAllocations (t.up n)).begin ≤ (t.bigAllocations n).begin
    ∧ (t.bigAllocations n).end_ ≤ (t.bigAllocations (t.up n)).end_

/-- All that is below a record lies in its parent. -/
def Nested (t : Table) (b : Nat) : Prop := ∀ n, Below t.up n b → n ≠ b → t.Inside n

/-- `t'` is `t` but for records, page index and private heap. -/
def SameStatics (t t' : Table) : Prop :=
  t' = { t with
    bigAllocations := t'.bigAllocations, pageindex := t'.pageindex, sequences := t'.sequences }

theorem SameStatics.trans (h : t.SameStatics t') (h' : t'.SameStatics t'') : t.SameStatics t'' := by
  refine Eq.trans h' ?_
  rw [h]

/-- `t'` is `t` without the records in `s`. -/
structure Removed (t : Table) (s : Set Nat) (t' : Table) : Prop where
  links : t'.Links 0
  closed : ∀ n, n ∉ s → t.up n ∉ s
  keep : ∀ n, n ∉ s → (t'.bigAllocations n).core = (t.bigAllocations n).core
  gone : ∀ n ∈ s, ¬ t'.InUse n
  lists : ∀ p l, p ≠ 0 → p ∉ s → t.ChildList p l → ∃ l', l'.Sublist l ∧ t'.ChildList p l'
  kept : ∀ p, (∀ n ∈ s, ¬ (t.bigAllocations n).Frees p) → t'.sequences p = t.sequences p
  statics : t.SameStatics t'

namespace Removed

section

variable (h : t.Removed s t')
include h

theorem inUse_iff : t'.InUse n ↔ t.InUse n ∧ n ∉ s := by
  by_cases hn : n ∈ s
  · simp [h.gone n hn, hn]
  · simp [inUse_congr (h.keep n hn), hn]

theorem up_eq (hn : n ∉ s) : t'.up n = t.up n := up_congr (h.keep n hn)

theorem up_gone (hn : n ∈ s) : t'.up n = 0 := h.links.free n (h.gone n hn)

theorem below_iff (hn : n ∉ s) : Below t'.up n p ↔ Below t.up n p :=
  below_congr (P := (· ∉ s)) (fun x hx => ⟨h.up_eq hx, h.closed x hx⟩) hn

theorem hasDepth_iff (hn : n ∉ s) : HasDepth t'.up 0 n d ↔ HasDepth t.up 0 n d := by
  have hit : ∀ k, t'.up^[k] n = t.up^[k] n := fun k =>
    iterate_congr (P := (· ∉ s)) (fun x hx => ⟨h.up_eq hx, h.closed x hx⟩) hn
  simp [HasDepth, hit]

theorem start_eq : t'.start = t.start := by
  rw [h.statics]

section

variable (hn : n ∉ s)

include hn

theorem begin_eq : (t' n).begin = (t n).begin := (bounds_congr (h.keep n hn)).1

theorem end_eq : (t' n).end_ = (t n).end_ := (bounds_congr (h.keep n hn)).2

theorem small_iff : t'.Small env n ↔ t.Small env n := by
  simp [Small, h.begin_eq hn, h.end_eq hn]

theorem spansPage_iff : t'.SpansPage n q ↔ t.SpansPage n q := by
  simp [SpansPage, h.begin_eq hn, h.end_eq hn]

theorem inside_iff : t'.Inside n ↔ t.Inside n := by
  have hup := h.closed n hn
  simp [Inside, h.up_eq hn, h.begin_eq hn, h.end_eq hn, h.begin_eq hup, h.end_eq hup]

end

theorem nested (hb : b ≠ 0) (hn : t.Nested b) : t'.Nested b := by
  intro n hbelow hne
  by_cases hs : n ∈ s
  · rcases Forest.below_iff.mp hbelow with hc | hc
    · exact absurd hc hne
    · rw [h.up_gone hs] at hc
      exact absurd (eq_null_of_below h.links.up_zero hc) hb
  · rw [h.inside_iff hs]
    exact hn n ((h.below_iff hs).mp hbelow) hne

theorem trans (h' : t'.Removed s' t'') (hd : ∀ n ∈ s', n ∉ s) : t.Removed (s ∪ s') t'' := by
  refine ⟨h'.links, fun n hn => ?_, fun n hn => ?_, fun n hn => ?_, fun p l hp hps hl => ?_,
    fun p hp => ?_, h.statics.trans h'.statics⟩
  · have hn' := fun hc => hn (.inl hc)
    rintro (hc | hc)
    · exact h.closed n hn' hc
    · exact h'.closed n (fun hc => hn (.inr hc)) (by rwa [h.up_eq hn'])
  · exact (h'.keep n fun hc => hn (.inr hc)).trans (h.keep n fun hc => hn (.inl hc))
  · intro hc
    obtain ⟨h1, h2⟩ := h'.inUse_iff.mp hc
    exact hn.elim (fun hs => h.gone n hs h1) h2
  · obtain ⟨l', hsub, hl'⟩ := h.lists p l hp (fun hc => hps (.inl hc)) hl
    obtain ⟨l'', hsub', hl''⟩ := h'.lists p l' hp (fun hc => hps (.inr hc)) hl'
    exact ⟨l'', hsub'.trans hsub, hl''⟩
  · rw [h'.kept p, h.kept p fun n hn => hp n (.inl hn)]
    intro n hn
    rw [BigAllocation.frees_core (h.keep n (hd n hn))]
    exact hp n (.inr hn)

end

end Removed

/-! ### The record itself -/

theorem free_eq (t : Table) (f : FreeFn) (p : Nat) :
    t.free f p = { t with sequences := (t.free f p).sequences } := by
  cases f <;> rfl

theorem free_sequences {f : FreeFn} {p' : Nat} (h : ¬ (f = .privateNommapFree ∧ p' = p)) :
    (t.free f p').sequences p = t.sequences p := by
  cases f with
  | privateNommapFree =>
    have hne : p ≠ p' := fun hc => h ⟨rfl, hc.symm⟩
    simp [free, hne]
  | other => rfl

theorem freeMetadata_eq (t : Table) (r : BigAllocation) :
    t.freeMetadata r = { t with sequences := (t.freeMetadata r).sequences } := by
  unfold freeMetadata
  cases r.allocatorPrivateFree <;> cases r.suballocatorPrivateFree <;> dsimp only
  · rw [free_eq]
  · split
    · rw [free_eq]
    · rfl
  · split
    · rw [free_eq, free_eq t]
    · rw [free_eq]

theorem freeMetadata_sequences {r : BigAllocation} (h : ¬ r.Frees p) :
    (t.freeMetadata r).sequences p = t.sequences p := by
  simp only [BigAllocation.Frees, not_or] at h
  obtain ⟨h1, h2⟩ := h
  unfold freeMetadata
  cases ha : r.allocatorPrivateFree <;> cases hs : r.suballocatorPrivateFree <;> dsimp only
  · exact free_sequences (by simpa [hs] using h2)
  · split
    · exact free_sequences (by grind)
    · rfl
  · rw [free_sequences (by simpa [hs] using h2)]
    split
    · exact free_sequences (by grind)
    · rfl

theorem Links.unlink (h : t.Links 0) (hb : t.InUse b) :
    ∃ F N V, t.unlink b = some (t.relinked (fun n => if n = b then 0 else t.up n) F N V)
      ∧ (t.relinked (fun n => if n = b then 0 else t.up n) F N V).Links b
      ∧ ∀ p l, p ≠ 0 → t.ChildList p l → ∃ l', l'.Sublist l
          ∧ (t.relinked (fun n => if n = b then 0 else t.up n) F N V).ChildList p l' := by
  by_cases hup : t.up b = 0
  · have hP : (fun n => if n = b then 0 else t.up n) = t.up := by
      funext n
      split
      · rename_i hn
        rw [hn, hup]
      · rfl
    have hunlink : t.unlink b = some (t.unlinkToplevel b) := if_neg (not_not.mpr hup)
    obtain ⟨hlinks, hlists⟩ := h.unlinkToplevel hb hup
    rw [unlinkToplevel_eq] at hlinks hlists hunlink
    rw [hP]
    exact ⟨_, _, _, hunlink, hlinks, fun p l hp hl => ⟨l, List.Sublist.refl l, hlists p l hp hl⟩⟩
  · have hunlink : t.unlink b = t.unlinkChild b := if_pos hup
    obtain ⟨heq, hlinks⟩ := h.unlinkChild hup
    exact ⟨_, _, _, hunlink.trans heq, hlinks, fun p l hp hl =>
      ⟨l.erase b, List.erase_sublist, ChildList.unlinked h hup hp hl⟩⟩

theorem up_lt (h : t.Links d) (hb : t.InUse b) : t.up b < 65536 := by
  by_cases hup : t.up b = 0
  · omega
  · have := (h.up_inUse b hb hup).2.1
    simp only [nbigallocs] at this
    omega

theorem delSelf_cases (h : t.Links 0) (hb : t.InUse b) (hno : ∀ c, t.up c ≠ b) :
    (t.delSelf env b = none ∧ ¬ t.Small env b) ∨
      ∃ t', t.delSelf env b = some t' ∧ t.Small env b ∧ t.Removed {b} t'
        ∧ ∀ q, t'.pageindex q = if t.SpansPage b q then t.up b else t.pageindex q := by
  obtain ⟨sq, hfree⟩ : ∃ sq, t.freeMetadata (t b) = { t with sequences := sq } :=
    ⟨_, freeMetadata_eq t _⟩
  have hkept : ∀ p, ¬ (t b).Frees p → sq p = t.sequences p := by
    intro p hp
    have := freeMetadata_sequences (t := t) hp
    rwa [hfree] at this
  have h1 : ({ t with sequences := sq } : Table).Links 0 := h.of_eq rfl rfl
  obtain ⟨F, N, V, hunlink, hlinks, hlists⟩ := h1.unlink hb
  set t1 : Table := { t with sequences := sq } with ht1
  set t2 := t1.relinked (fun n => if n = b then 0 else t1.up n) F N V with ht2
  have hdel : t.delSelf env b = (t2.memset env (roundUp (t b).begin pageSize)
      (roundDown (t b).end_ pageSize) (t.up b)).bind fun t => some (t.clearBigallocNomemset b) := by
    simp only [delSelf, hfree, hunlink]
    rfl
  rw [hdel]
  by_cases hsmall : t.Small env b
  · have hmem := (memset_eq_some_iff env t2 _ _ _ (up_lt h hb)).mpr ⟨hsmall, rfl⟩
    rw [hmem]
    set t3 := t2.setPages _ _ _ with ht3
    have hlinks3 : t3.Links b := hlinks.of_eq rfl rfl
    have hup3 : t3.up = fun n => if n = b then 0 else t.up n := rfl
    refine .inr ⟨_, rfl, hsmall, ⟨hlinks3.clear hb.ne_zero fun c => ?_, fun n _ => hno n,
      fun n hn => ?_, fun n hn => ?_, fun p l hp hpb hl => ?_, fun p hp => ?_, rfl⟩, fun q => ?_⟩
    · rw [hup3]
      by_cases hc : c = b
      · simpa [hc] using hb.ne_zero.symm
      · simpa [hc] using hno c
    · have hn : n ≠ b := hn
      simp [clearBigallocNomemset, BigAllocation.core, t3, setPages, t2, relinked, hn, t1, up]
    · have hn : n = b := hn
      simp [clear_inUse, hn]
    · obtain ⟨l', hsub, hl'⟩ := hlists p l hp ⟨hl.linked, hl.nodup, hl.mem_iff⟩
      refine ⟨l', hsub, ChildList.clear (by simp [hup3]) hp ?_⟩
      exact ⟨hl'.linked, hl'.nodup, hl'.mem_iff⟩
    · exact hkept p (hp b rfl)
    · exact setPages_pageindex_spans t2 _ _ _ q
  · have hnone : t2.memset env (roundUp (t b).begin pageSize)
        (roundDown (t b).end_ pageSize) (t.up b) = none := by
      refine Option.eq_none_iff_forall_ne_some.mpr fun t' ht' => ?_
      exact hsmall ((memset_eq_some_iff env t2 t' _ _ (up_lt h hb)).mp ht').1
    rw [hnone]
    exact .inl ⟨rfl, hsmall⟩

/-! ### Everything below a record -/

theorem Inside.spansPage (h : t.Inside n) (hq : t.SpansPage n q) : t.SpansPage (t.up n) q :=
  ⟨h.1.trans hq.1, hq.2.trans h.2⟩

theorem Inside.small (h : t.Inside n) (hs : t.Small env (t.up n)) : t.Small env n := by
  have hlo : pagenum (roundUp (t (t.up n)).begin pageSize)
      ≤ pagenum (roundUp (t n).begin pageSize) :=
    pagenum_roundUp_le.mpr (h.1.trans (pagenum_roundUp_le.mp le_rfl))
  have hhi : pagenum (roundDown (t n).end_ pageSize)
      ≤ pagenum (roundDown (t (t.up n)).end_ pageSize) := by
    by_contra hc
    have hlt := lt_pagenum_roundDown.mp (Nat.lt_of_not_le hc)
    exact (lt_pagenum_roundDown.mpr (Nat.le_trans hlt h.2)).false
  refine Nat.le_trans ?_ hs
  unfold pageDist
  split_ifs <;> omega

/-- The records below one of the records in `l`. -/
def belowAny (t : Table) (l : List Nat) : Set Nat := { n | ∃ c ∈ l, Below t.up n c }

/-- What deleting the record `c` amounts to, with all that is below it. -/
def DelCases (env : Env) (t : Table) (c : Nat) (result : Option Table) : Prop :=
  (result = none ∧ ¬ t.Small env c) ∨
    ∃ t', result = some t' ∧ t.Small env c ∧ t.Removed { n | Below t.up n c } t'
      ∧ ∀ q, t'.pageindex q = if t.SpansPage c q then t.up c else t.pageindex q

theorem Removed.first_child {l : List Nat} (h : t.Links 0) (hr : t.Removed { n | Below t.up n c } t')
    (hb : t.InUse b) (hl : t.ChildList b (c :: l)) : t'.ChildList b l := by
  obtain ⟨hc, hup⟩ := (hl.mem_iff c).mp (.head _)
  have hbc : b ∉ { n | Below t.up n c } := hup ▸ h.not_below_up hc
  have hnd := List.nodup_cons.mp hl.nodup
  obtain ⟨l', hsub, hl'⟩ := hr.lists b (c :: l) hb.ne_zero hbc hl
  have hcl' : c ∉ l' := fun hmem => hr.gone c (Below.refl t.up c) ((hl'.mem_iff c).mp hmem).1
  have hsub' : l'.Sublist l := by
    rcases List.sublist_cons_iff.mp hsub with h' | ⟨r, rfl, -⟩
    · exact h'
    · exact absurd (.head _) hcl'
  have hsub'' : l ⊆ l' := by
    intro x hx
    obtain ⟨hxu, hxb⟩ := (hl.mem_iff x).mp (List.mem_cons_of_mem c hx)
    have hxc : x ∉ { n | Below t.up n c } := fun hbelow =>
      hnd.1 (h.eq_of_sibling hxu hc (hxb.trans hup.symm) hbelow ▸ hx)
    exact (hl'.mem_iff x).mpr ⟨hr.inUse_iff.mpr ⟨hxu, hxc⟩, (hr.up_eq hxc).trans hxb⟩
  have heq : l' = l := hsub'.eq_of_length_le (hnd.2.subperm hsub'').length_le
  exact heq ▸ hl'

/-- The loop over the children, given what deleting one of them does. -/
theorem delChildren_cases {del : Table → Nat → Option Table} {fuel : Nat} (hb : t.InUse b)
    (h : t.Links 0) (hd : HasDepth t.up 0 b d) (hn : t.Nested b)
    (hdel : ∀ t : Table, t.Links 0 → t.InUse b → HasDepth t.up 0 b d → t.Nested b →
      ∀ c, t.InUse c → t.up c = b → DelCases env t c (del t c)) :
    ∀ l, t.ChildList b l → l.length ≤ fuel →
      (delChildren del fuel t (t.first b) = none ∧ ∃ c ∈ l, ¬ t.Small env c) ∨
        ∃ t', delChildren del fuel t (t.first b) = some t' ∧ t.Removed (t.belowAny l) t'
          ∧ ∀ q, ¬ t.SpansPage b q → t'.pageindex q = t.pageindex q := by
  intro l
  induction l generalizing t fuel with
  | nil =>
    intro hl _
    have h0 : t.first b = 0 := hl.linked
    have hemp : t.belowAny [] = ∅ := by
      simp [belowAny]
    refine .inr ⟨t, by cases fuel <;> simp [delChildren, h0], ?_, fun q _ => rfl⟩
    rw [hemp]
    exact ⟨h, fun n _ => id, fun n _ => rfl, fun n hn => absurd hn id,
      fun p l _ _ hl => ⟨l, List.Sublist.refl l, hl⟩, fun p _ => rfl, rfl⟩
  | cons c l ih =>
    intro hl hlen
    obtain ⟨hc, hup⟩ := (hl.mem_iff c).mp (.head _)
    have hfirst : t.first b = c := hl.linked.head_eq
    have hnext : t.next c = l.head?.getD 0 := (linked_cons.mp hl.linked).2.2.2.head_eq
    obtain ⟨fuel, rfl⟩ : ∃ f, fuel = f + 1 := ⟨fuel - 1, by simp at hlen; omega⟩
    have hstep : delChildren del (fuel + 1) t (t.first b)
        = (del t c).bind fun t' => delChildren del fuel t' (t.next c) := by
      rw [hfirst]
      exact if_neg hc.ne_zero
    rw [hstep]
    rcases hdel t h hb hd hn c hc hup with ⟨hnone, hbig⟩ | ⟨t1, hsome, hsmall, hr, hpages⟩
    · rw [hnone]
      exact .inl ⟨rfl, c, .head _, hbig⟩
    · rw [hsome]
      have hbc : b ∉ { n | Below t.up n c } := hup ▸ h.not_below_up hc
      have hl1 := hr.first_child h hb hl
      have hsib : ∀ x ∈ l, x ∉ { n | Below t.up n c } := by
        intro x hx hbelow
        obtain ⟨hxu, hxb⟩ := (hl.mem_iff x).mp (List.mem_cons_of_mem c hx)
        have := h.eq_of_sibling hxu hc (hxb.trans hup.symm) hbelow
        exact (List.nodup_cons.mp hl.nodup).1 (this ▸ hx)
      rw [hnext, ← hl1.linked.head_eq]
      have hn1 := hr.nested hb.ne_zero hn
      rcases ih (hr.inUse_iff.mpr ⟨hb, hbc⟩) hr.links ((hr.hasDepth_iff hbc).mpr hd) hn1 hl1
        (by simp at hlen; omega) with ⟨hnone, x, hx, hbig⟩ | ⟨t2, hsome2, hr2, hpages2⟩
      · exact .inl ⟨hnone, x, List.mem_cons_of_mem c hx,
          fun hs => hbig ((hr.small_iff (hsib x hx)).mpr hs)⟩
      · have hdisj : ∀ n ∈ t1.belowAny l, n ∉ { n | Below t.up n c } := by
          rintro n ⟨x, hx, hbelow⟩ hgone
          rcases Forest.below_iff.mp hbelow with rfl | hbelow
          · exact hsib n hx hgone
          · rw [hr.up_gone hgone] at hbelow
            have hx0 := eq_null_of_below hr.links.up_zero hbelow
            exact hl.linked.ne_null (List.mem_cons_of_mem c hx) hx0
        have hset : t.belowAny (c :: l) = { n | Below t.up n c } ∪ t1.belowAny l := by
          ext n
          simp only [belowAny, List.mem_cons, Set.mem_ofPred_eq, Set.mem_union]
          constructor
          · rintro ⟨x, rfl | hx, hbelow⟩
            · exact .inl hbelow
            · by_cases hgone : Below t.up n c
              · exact .inl hgone
              · exact .inr ⟨x, hx, (hr.below_iff hgone).mpr hbelow⟩
          · rintro (hbelow | ⟨x, hx, hbelow⟩)
            · exact ⟨c, .inl rfl, hbelow⟩
            · exact ⟨x, .inr hx, (hr.below_iff (hdisj n ⟨x, hx, hbelow⟩)).mp hbelow⟩
        refine .inr ⟨t2, hsome2, hset ▸ hr.trans hr2 hdisj, fun q hq => ?_⟩
        have hcq : ¬ t.SpansPage c q := fun hcq => hq (hup ▸
          (hn c ⟨1, hup⟩ fun hcb => hbc (hcb ▸ Below.refl t.up c)).spansPage hcq)
        rw [hpages2 q (fun hs => hq ((hr.spansPage_iff hbc).mp hs)), hpages q, if_neg hcq]

/-- **Deletion**: `bigalloc_del` removes the record and all below it, and gives its pages to its
parent, unless it is larger than sane. -/
theorem bigallocDel_cases (env : Env) (depth : Nat) (h : t.Links 0) (hb : t.InUse b)
    (hd : HasDepth t.up 0 b d) (hfuel : nbigallocs ≤ d + depth) (hn : t.Nested b) :
    DelCases env t b (bigallocDel env depth t b) := by
  induction depth generalizing t b d with
  | zero =>
    have := h.depth_lt hb hd
    omega
  | succ depth ih =>
    obtain ⟨l, hl⟩ := h.kids b hb
    have hdel : ∀ t : Table, t.Links 0 → t.InUse b → HasDepth t.up 0 b d → t.Nested b →
        ∀ c, t.InUse c → t.up c = b → DelCases env t c (bigallocDel env depth t c) := by
      intro t h hb hd hn c hc hup
      have hdc : HasDepth t.up 0 c (d + 1) := (hasDepth_succ hc.ne_zero).mpr (hup ▸ hd)
      refine ih h hc hdc (by omega) ?_
      intro n hbelow hne
      refine hn n (hbelow.trans ⟨1, hup⟩) fun hnb => ?_
      rw [hnb, ← hup] at hbelow
      exact h.not_below_up hc hbelow
    have hunfold : bigallocDel env (depth + 1) t b
        = (delChildren (bigallocDel env depth) nbigallocs t (t.first b)).bind
            fun t => t.delSelf env b := rfl
    rw [hunfold]
    have hsmall : ∀ c ∈ l, ¬ t.Small env c → ¬ t.Small env b := by
      intro c hc hbig hsm
      obtain ⟨hcu, hup⟩ := (hl.mem_iff c).mp hc
      refine hbig ((hn c ⟨1, hup⟩ fun hcb => ?_).small (hup ▸ hsm))
      exact h.not_below_up hcu (by rw [hup, hcb]; exact Below.refl t.up b)
    have hbl : b ∉ t.belowAny l := by
      rintro ⟨c, hc, hbelow⟩
      obtain ⟨hcu, hup⟩ := (hl.mem_iff c).mp hc
      exact h.not_below_up hcu (hup ▸ hbelow)
    rcases delChildren_cases hb h hd hn hdel l hl hl.length_le with
      ⟨hnone, c, hc, hbig⟩ | ⟨t1, hsome, hr, hpages⟩
    · rw [hnone]
      exact .inl ⟨rfl, hsmall c hc hbig⟩
    · rw [hsome]
      have hb1 : t1.InUse b := hr.inUse_iff.mpr ⟨hb, hbl⟩
      have hup1 : t1.up b = t.up b := hr.up_eq hbl
      have hno : ∀ c, t1.up c ≠ b := by
        intro c hc
        have hcs : c ∉ t.belowAny l := fun hcs => hb.ne_zero (hc.symm.trans (hr.up_gone hcs))
        have hcb : t.up c = b := (hr.up_eq hcs).symm.trans hc
        exact hcs ⟨c, (hl.mem_iff c).mpr ⟨(h.up_eq_inUse hcb hb.ne_zero).1, hcb⟩, Below.refl t.up c⟩
      rcases delSelf_cases hr.links hb1 hno with
        ⟨hnone, hbig⟩ | ⟨t2, hsome2, hsm, hr2, hpages2⟩
      · exact .inl ⟨hnone, fun hsm => hbig ((hr.small_iff hbl).mpr hsm)⟩
      · have hset : { n | Below t.up n b } = t.belowAny l ∪ {b} := by
          ext n
          constructor
          · intro hbelow
            by_cases hnb : n = b
            · exact .inr hnb
            · obtain ⟨c, hnc, hcb⟩ := hbelow.exists_child hnb
              exact .inl ⟨c, (hl.mem_iff c).mpr ⟨(h.up_eq_inUse hcb hb.ne_zero).1, hcb⟩, hnc⟩
          · rintro (⟨c, hc, hbelow⟩ | rfl)
            · exact hbelow.trans ⟨1, ((hl.mem_iff c).mp hc).2⟩
            · exact Below.refl t.up n
        refine .inr ⟨t2, hsome2, (hr.small_iff hbl).mp hsm, hset ▸ hr.trans hr2 ?_, fun q => ?_⟩
        · rintro n rfl
          exact hbl
        · rw [hpages2 q, hup1]
          by_cases hq : t.SpansPage b q
          · rw [if_pos ((hr.spansPage_iff hbl).mpr hq), if_pos hq]
          · rw [if_neg (fun h' => hq ((hr.spansPage_iff hbl).mp h')), if_neg hq, hpages q hq]

end Table

end Liballocs
