/-
Lookups find the deepest record.

The recursive search of `find_deepest_bigalloc` and the loop of `__liballocs_leaf_allocator_for` go
down from the record a page is indexed by.  Siblings are apart, so both stop at the record that holds
the address while none of its children does.  `plainDescent` is the search without the page index.
-/
import Liballocs.Proofs.WellFormed

namespace Liballocs.Table

open Forest

variable {env : Env} {t : Table} {a c d e fuel n : Nat} {l : List Nat} {al : Allocator} {m : Bool}

theorem contains_iff : t.contains a n = true ↔ a ∈ t.addrs n := by
  simp [contains, addrs]

theorem find_child_cases (hl : t.ChildList n l) :
    (∃ c, l.find? (t.contains a) = some c ∧ t.InUse c ∧ t.up c = n ∧ a ∈ t.addrs c)
      ∨ (l.find? (t.contains a) = none ∧ ∀ c, t.InUse c → t.up c = n → a ∉ t.addrs c) := by
  cases hf : l.find? (t.contains a) with
  | some c =>
    obtain ⟨hc, hup⟩ := (hl.mem_iff c).mp (List.mem_of_find?_eq_some hf)
    exact .inl ⟨c, rfl, hc, hup, contains_iff.mp (List.find?_some hf)⟩
  | none =>
    refine .inr ⟨rfl, fun c hc hup ha => ?_⟩
    have := List.find?_eq_none.mp hf c ((hl.mem_iff c).mpr ⟨hc, hup⟩)
    exact this (contains_iff.mpr ha)

/-! ### Going up -/

theorem rootOf_eq (h : t.Links 0) (hn : t.InUse n) (hd : HasDepth t.up 0 n d) (hf : d ≤ fuel) :
    ∃ r, t.rootOf fuel n = some r ∧ t.InUse r ∧ t.up r = 0 ∧ Below t.up n r := by
  induction fuel generalizing n d with
  | zero =>
    have := hd.pos hn.ne_zero
    omega
  | succ fuel ih =>
    by_cases hup : t.up n = 0
    · exact ⟨n, if_pos hup, hn, hup, Below.refl t.up n⟩
    · obtain ⟨d, rfl⟩ : ∃ e, d = e + 1 := ⟨d - 1, by have := hd.pos hn.ne_zero; omega⟩
      obtain ⟨r, hr, hru, hr0, hb⟩ :=
        ih (h.up_inUse n hn hup) ((hasDepth_succ hn.ne_zero).mp hd) (by omega)
      exact ⟨r, (if_neg hup).trans hr, hru, hr0, hb.step⟩

/-! ### Going down -/

/-- Does the record match in a search by allocator, or by suballocator? -/
def Matches (t : Table) (al : Allocator) (bySuballocator : Bool) (n : Nat) : Prop :=
  (if bySuballocator then (t.bigAllocations n).suballocator else (t.bigAllocations n).allocatedBy)
    = some al

theorem findBigallocRecursive_spec (h : t.Links 0) (hn : t.InUse n) (ha : a ∈ t.addrs n)
    (hd : HasDepth t.up 0 n d) (hf : nbigallocs ≤ d + fuel) :
    ∃ r, t.findBigallocRecursive a al m fuel n = some r ∧
      (r = 0 ∨ t.InUse r ∧ a ∈ t.addrs r ∧ t.Matches al m r) := by
  induction fuel generalizing n d with
  | zero =>
    have := h.depth_lt hn hd
    omega
  | succ fuel ih =>
    obtain ⟨l, hl⟩ := h.kids n hn
    by_cases hal : t.Matches al m n
    · exact ⟨n, if_pos hal, .inr ⟨hn, ha, hal⟩⟩
    · unfold Matches at hal
      rw [findBigallocRecursive, if_neg hal, hl.children_eq]
      rcases find_child_cases hl with ⟨c, hfind, hc, hup, hac⟩ | ⟨hfind, -⟩
      · obtain ⟨r, hr, hcases⟩ := ih hc hac ((hasDepth_succ hc.ne_zero).mpr (hup ▸ hd)) (by omega)
        refine ⟨r, ?_, hcases⟩
        simp only [some_bind, hfind]
        exact hr
      · refine ⟨0, ?_, .inl rfl⟩
        simp [some_bind, hfind]

/-- From a record that does not match, the search goes on at the child with the address. -/
theorem WellFormed.findBigallocRecursive_step (h : t.WellFormed) (hc : t.InUse c) (hup : t.up c ≠ 0)
    (ha : a ∈ t.addrs c) (hm : ¬ t.Matches al m (t.up c)) :
    t.findBigallocRecursive a al m (fuel + 1) (t.up c) = t.findBigallocRecursive a al m fuel c := by
  obtain ⟨l, hl⟩ := h.links.kids _ (h.links.up_inUse c hc hup)
  rcases find_child_cases (a := a) hl with ⟨c', hf, hc', hup', ha'⟩ | ⟨-, hno⟩
  · have hcc : c' = c := by
      by_contra hne
      exact Set.disjoint_left.mp (h.apart c' c hc' hc hup' hne).disjoint_addrs ha' ha
    have hm' : ¬ ((if m = true then (t (t.up c)).suballocator
        else (t (t.up c)).allocatedBy) = some al) := hm
    rw [findBigallocRecursive, if_neg hm', hl.children_eq]
    simp [some_bind, hf, hcc]
  · exact absurd ha (hno c hc rfl)

/-- A search from the root comes by every record with the address, until one matches. -/
theorem WellFormed.findBigallocRecursive_descend {k : Nat} (h : t.WellFormed) (hn : t.InUse n)
    (ha : a ∈ t.addrs n) (hk : t.up^[k] n ≠ 0)
    (hm : ∀ p, Below t.up n p → p ≠ n → p ≠ 0 → ¬ t.Matches al m p) (fuel : Nat) :
    t.findBigallocRecursive a al m (fuel + k) (t.up^[k] n)
      = t.findBigallocRecursive a al m fuel n := by
  induction k generalizing fuel with
  | zero => rfl
  | succ k ih =>
    rw [Function.iterate_succ_apply'] at hk ⊢
    have hc0 : t.up^[k] n ≠ 0 := by
      intro h0
      rw [h0, h.links.up_zero] at hk
      exact hk rfl
    have hc := h.links.inUse_iterate hn hc0
    have hbelow : Below t.up n (t.up (t.up^[k] n)) := ⟨k + 1, Function.iterate_succ_apply' t.up k n⟩
    have hne : t.up (t.up^[k] n) ≠ n := fun heq =>
      h.links.not_below_up hc (heq.symm ▸ ⟨k, rfl⟩)
    rw [show fuel + (k + 1) = (fuel + k) + 1 from rfl, h.findBigallocRecursive_step hc hk
        (h.laminar_addrs.subset_of_below hn ⟨k, rfl⟩ hc0 ha) (hm _ hbelow hne hk)]
    exact ih hc0 fuel

/-- From the page index, the parent links lead to the top-level record with the address. -/
theorem WellFormed.rootOf_pageindex (h : t.WellFormed) (hn : t.InUse n) (hup : t.up n = 0)
    (ha : a ∈ t.addrs n) : t.rootOf nbigallocs (t.pageindex (pagenum a)) = some n := by
  obtain ⟨hu, hau⟩ := h.mem_addrs_pageindex (h.pageindex_ne_zero hn ha)
  obtain ⟨d, hd⟩ := h.links.exists_depth hu
  obtain ⟨r, hroot, hr, hrup, hrb⟩ := rootOf_eq h.links hu hd (h.links.depth_lt hu hd).le
  have har := h.laminar_addrs.subset_of_below hu hrb hr.ne_zero hau
  have hrn : r = n := by
    by_contra hne
    exact Set.disjoint_left.mp (h.apart r n hr hn (hrup.trans hup.symm) hne).disjoint_addrs har ha
  rw [hroot, hrn]

section

variable (h : t.WellFormed) (hn : t.InUse n) (ha : a ∈ t.addrs n)
  (hm : ∀ p, Below t.up n p → p ≠ n → p ≠ 0 → ¬ t.Matches al m p)

include h hn ha hm

variable (al m) in
/-- A search from the top for an address of `n`, none of whose ancestors matches. -/
theorem WellFormed.findBigallocFromTop_under (env : Env) :
    ∃ fuel, t.findBigallocFromTop env a al m
      = (t.findBigallocRecursive a al m (fuel + 1) n).map fun r => (r, t) := by
  have h0 := h.pageindex_ne_zero hn ha
  obtain ⟨r, hr, hrup, k, hk⟩ := h.links.exists_root hn
  have hroot := h.rootOf_pageindex hr hrup
    (h.laminar_addrs.subset_of_below hn ⟨k, hk⟩ hr.ne_zero ha)
  obtain ⟨d, hd⟩ := h.links.exists_depth hn
  have hkd := hd.lt_of_iterate_ne h.links.up_zero (hk ▸ hr.ne_zero)
  have hdn := h.links.depth_lt hn hd
  obtain ⟨fuel, hfuel⟩ : ∃ fuel, nbigallocs = fuel + 1 + k := ⟨nbigallocs - 1 - k, by omega⟩
  have hfind := h.findBigallocRecursive_descend (k := k) hn ha (hk ▸ hr.ne_zero) hm (fuel + 1)
  rw [hk, ← hfuel] at hfind
  refine ⟨fuel, ?_⟩
  unfold findBigallocFromTop
  rw [if_neg fun hc => h0 hc.1]
  simp only [findBigallocFromEntry, hroot, some_bind, hfind]
  cases t.findBigallocRecursive a al m (fuel + 1) n <;> rfl

/-- A search from the top finds the first record on the way down that matches. -/
theorem WellFormed.findBigallocFromTop_first (hmatch : t.Matches al m n) :
    t.findBigallocFromTop env a al m = some (n, t) := by
  obtain ⟨fuel, heq⟩ := h.findBigallocFromTop_under al m hn ha hm env
  unfold Matches at hmatch
  rw [heq, findBigallocRecursive, if_pos hmatch]
  rfl

end

/-- A lookup leaves the table alone on an indexed page, or once system calls are trapped. -/
theorem findBigallocFromTop_quiet {t' : Table} {b : Nat}
    (hq : env.systrapIsInitialized = true ∨ t.pageindex (pagenum a) ≠ 0)
    (hrun : t.findBigallocFromTop env a al m = some (b, t')) : t' = t := by
  have hno : ¬ (t.pageindex (pagenum a) = 0 ∧ (!env.systrapIsInitialized) = true) := by
    intro ⟨h0, hs⟩
    rcases hq with hq | hq
    · simp [hq] at hs
    · exact hq h0
  unfold findBigallocFromTop at hrun
  rw [if_neg hno] at hrun
  obtain ⟨b', -, hrun⟩ := of_bind hrun
  exact (congrArg Prod.snd (Option.some.inj hrun)).symm

theorem findDeepestBigallocRecursive_spec (h : t.WellFormed) (hn : t.InUse n) (ha : a ∈ t.addrs n)
    (hd : HasDepth t.up 0 n d) (hf : nbigallocs ≤ d + fuel) :
    ∃ r, t.findDeepestBigallocRecursive a fuel n = some r
      ∧ t.DeepestSuchThat (a ∈ t.addrs ·) r := by
  induction fuel generalizing n d with
  | zero =>
    have := h.links.depth_lt hn hd
    omega
  | succ fuel ih =>
    obtain ⟨l, hl⟩ := h.links.kids n hn
    simp only [findDeepestBigallocRecursive, hl.children_eq, some_bind]
    rcases find_child_cases hl with ⟨c, hfind, hc, hup, hac⟩ | ⟨hfind, hno⟩
    · obtain ⟨r, hr, hdeep⟩ := ih hc hac ((hasDepth_succ hc.ne_zero).mpr (hup ▸ hd)) (by omega)
      refine ⟨r, ?_, hdeep⟩
      simp only [hfind]
      exact hr
    · refine ⟨n, ?_, h.laminar_addrs.deepest_of_no_child hn ha hno⟩
      simp [hfind]

theorem foldl_children_none (cur : Nat) (hno : ∀ x ∈ l, ¬ t.contains a x = true) :
    l.foldl (fun cur child => if t.contains a child then child else cur) cur = cur := by
  induction l with
  | nil => rfl
  | cons x l ih =>
    rw [List.foldl_cons, if_neg (hno x (.head _))]
    exact ih fun y hy => hno y (List.mem_cons_of_mem x hy)

theorem foldl_children (cur : Nat) (hc : c ∈ l) (hcon : t.contains a c = true)
    (hone : ∀ x ∈ l, t.contains a x = true → x = c) :
    l.foldl (fun cur child => if t.contains a child then child else cur) cur = c := by
  induction l generalizing cur with
  | nil => exact absurd hc List.not_mem_nil
  | cons x l ih =>
    have hone' : ∀ y ∈ l, t.contains a y = true → y = c := fun y hy =>
      hone y (List.mem_cons_of_mem x hy)
    rw [List.foldl_cons]
    by_cases hcl : c ∈ l
    · exact ih _ hcl hone'
    · have hxc : x = c := ((List.mem_cons.mp hc).resolve_right hcl).symm
      subst hxc
      rw [if_pos hcon]
      exact foldl_children_none x fun y hy hcon' => hcl (hone' y hy hcon' ▸ hy)

theorem leafLoop_spec (h : t.WellFormed) (hn : t.InUse n) (ha : a ∈ t.addrs n)
    (hd : HasDepth t.up 0 n d) (hf : nbigallocs ≤ d + fuel) :
    ∃ r, t.leafLoop a fuel n e = some r ∧ t.DeepestSuchThat (a ∈ t.addrs ·) r := by
  induction fuel generalizing n d e with
  | zero =>
    have := h.links.depth_lt hn hd
    omega
  | succ fuel ih =>
    obtain ⟨l, hl⟩ := h.links.kids n hn
    have hstep : t.leafLoop a (fuel + 1) n e = t.leafLoop a fuel
        (if l.foldl (fun cur child => if t.contains a child then child else cur) n = n then 0
          else l.foldl (fun cur child => if t.contains a child then child else cur) n) n := by
      simp [leafLoop, if_neg hn.ne_zero, hl.children_eq, some_bind]
    rw [hstep]
    rcases find_child_cases (a := a) hl with ⟨c, -, hc, hup, hac⟩ | ⟨-, hno⟩
    · have hone : ∀ x ∈ l, t.contains a x = true → x = c := by
        intro x hx hcon
        obtain ⟨hxu, hxn⟩ := (hl.mem_iff x).mp hx
        by_contra hne
        exact Set.disjoint_left.mp (h.apart x c hxu hc (hxn.trans hup.symm) hne).disjoint_addrs
          (contains_iff.mp hcon) hac
      have hcn : c ≠ n := fun hcn => h.links.not_below_up hc (by
        rw [hup, hcn]
        exact Below.refl t.up n)
      rw [foldl_children n ((hl.mem_iff c).mpr ⟨hc, hup⟩) (contains_iff.mpr hac) hone, if_neg hcn]
      exact ih hc hac ((hasDepth_succ hc.ne_zero).mpr (hup ▸ hd)) (by omega)
    · rw [foldl_children_none n fun x hx hcon => ?_, if_pos rfl]
      · refine ⟨n, ?_, h.laminar_addrs.deepest_of_no_child hn ha hno⟩
        cases fuel <;> rfl
      · obtain ⟨hxu, hxn⟩ := (hl.mem_iff x).mp hx
        exact hno x hxu hxn (contains_iff.mp hcon)

/-! ### From the top-level records -/

/-- The descent from the top-level records, which does not look at the page index. -/
def plainDescent (t : Table) (addr : Nat) : Option Nat :=
  match (List.range nbigallocs).find? fun n => decide (t.InUse n ∧ t.up n = 0) && t.contains addr n with
  | some r => t.findDeepestBigallocRecursive addr nbigallocs r
  | none => some 0

section

variable (h : t.WellFormed)

include h

theorem WellFormed.deepest_zero (h0 : t.pageindex (pagenum a) = 0) :
    t.DeepestSuchThat (a ∈ t.addrs ·) 0 :=
  .inl ⟨rfl, fun _ hn ha => h.pageindex_ne_zero hn ha h0⟩

theorem WellFormed.plainDescent_spec (a : Nat) :
    ∃ r, t.plainDescent a = some r ∧ t.DeepestSuchThat (a ∈ t.addrs ·) r := by
  unfold plainDescent
  cases hf : (List.range nbigallocs).find? fun n =>
      decide (t.InUse n ∧ t.up n = 0) && t.contains a n with
  | some r =>
    have hr := List.find?_some hf
    simp only [Bool.and_eq_true, decide_eq_true_eq] at hr
    obtain ⟨d, hd⟩ := h.links.exists_depth hr.1.1
    exact findDeepestBigallocRecursive_spec h hr.1.1 (contains_iff.mp hr.2) hd (by omega)
  | none =>
    refine ⟨0, rfl, .inl ⟨rfl, fun n hn ha => ?_⟩⟩
    obtain ⟨r, hr, hup, hb⟩ := h.links.exists_root hn
    have := List.find?_eq_none.mp hf r (List.mem_range.mpr hr.2.1)
    refine this ?_
    simp only [Bool.and_eq_true, decide_eq_true_eq]
    exact ⟨⟨hr, hup⟩, contains_iff.mpr (h.laminar_addrs.subset_of_below hn hb hr.ne_zero ha)⟩

/-! ### The entry points -/

theorem WellFormed.leafBigallocFor_spec (a : Nat) :
    ∃ r, t.leafBigallocFor a = some r ∧ t.DeepestSuchThat (a ∈ t.addrs ·) r := by
  by_cases h0 : t.pageindex (pagenum a) = 0
  · refine ⟨0, ?_, h.deepest_zero h0⟩
    simp only [leafBigallocFor, getBigallocContaining, h0]
    rfl
  · obtain ⟨hu, ha⟩ := h.mem_addrs_pageindex h0
    obtain ⟨d, hd⟩ := h.links.exists_depth hu
    exact leafLoop_spec h hu ha hd (by omega)

theorem WellFormed.leafBigallocFor_eq (hn : t.DeepestSuchThat (a ∈ t.addrs ·) n) :
    t.leafBigallocFor a = some n := by
  obtain ⟨r, hr, hdeep⟩ := h.leafBigallocFor_spec a
  rw [hr, h.laminar_addrs.deepest_unique hdeep hn]

/-- `find_deepest_bigalloc`, when asking about an unindexed address changes nothing. -/
theorem WellFormed.findDeepestBigalloc_spec (a : Nat)
    (hquiet : t.pageindex (pagenum a) = 0 →
      ∃ claimed, t.notifyUnindexedAddress env a = some (claimed, t)) :
    ∃ r, t.findDeepestBigalloc env a = some (r, t) ∧ t.DeepestSuchThat (a ∈ t.addrs ·) r := by
  by_cases h0 : t.pageindex (pagenum a) = 0
  · obtain ⟨claimed, hnotify⟩ := hquiet h0
    refine ⟨0, ?_, h.deepest_zero h0⟩
    simp [findDeepestBigalloc, h0, hnotify]
  · obtain ⟨hu, ha⟩ := h.mem_addrs_pageindex h0
    obtain ⟨d, hd⟩ := h.links.exists_depth hu
    obtain ⟨r, hr, hdeep⟩ := findDeepestBigallocRecursive_spec h hu ha hd
      (show nbigallocs ≤ d + nbigallocs by omega)
    refine ⟨r, ?_, hdeep⟩
    simp [findDeepestBigalloc, h0, hr]

end

end Liballocs.Table
