/-
Splitting a record at a page boundary.

The second half is a copy with another begin, metadata included, and takes over the children that begin
in it.  A child across the boundary stays with the first half and reaches beyond it: the test meant to
catch it asks for a child in both halves at once.
-/
import Liballocs.Proofs.Truncate

namespace Liballocs.Table

open Forest

variable {t t₁ t' : Table} {b c e m n new p q : Nat}

/-! ### The children -/

/-- `t'` is `t` with the records in `s` handed over to `new`. -/
structure HandedOver (t : Table) (new : Nat) (s : Set Nat) (t' : Table) : Prop where
  links : t'.Links 0
  keep : ∀ n, n ∉ s → (t'.bigAllocations n).core = (t.bigAllocations n).core
  moved : ∀ n ∈ s, (t'.bigAllocations n).core = { (t.bigAllocations n).core with parent := new }
  rest : t' = { t with bigAllocations := t'.bigAllocations }

namespace HandedOver

variable {s s₁ s₂ : Set Nat}

theorem refl (h : t.Links 0) (new : Nat) : t.HandedOver new ∅ t :=
  ⟨h, fun _ _ => rfl, fun _ hn => absurd hn (Set.notMem_empty _), rfl⟩

theorem trans (h : t.HandedOver new s₁ t₁) (h' : t₁.HandedOver new s₂ t') :
    t.HandedOver new (s₁ ∪ s₂) t' := by
  refine ⟨h'.links, fun n hn => ?_, fun n hn => ?_, ?_⟩
  · rw [h'.keep n fun hc => hn (.inr hc), h.keep n fun hc => hn (.inl hc)]
  · by_cases h2 : n ∈ s₂
    · rw [h'.moved n h2]
      by_cases h1 : n ∈ s₁
      · rw [h.moved n h1]
      · rw [h.keep n h1]
    · rw [h'.keep n h2]
      exact h.moved n (hn.resolve_right h2)
  · rw [h'.rest, h.rest]

theorem bounds_eq (h : t.HandedOver new s t') (n : Nat) :
    (t' n).begin = (t n).begin ∧ (t' n).end_ = (t n).end_ := by
  by_cases hn : n ∈ s
  · have h1 := congrArg (·.begin) (h.moved n hn)
    have h2 := congrArg (·.end_) (h.moved n hn)
    exact ⟨h1, h2⟩
  · exact bounds_congr (h.keep n hn)

/-- The way up from `new` is as it was, unless through what was handed over. -/
theorem below_new_iff (h : t.HandedOver new s t') (hs : ∀ n, Below t.up new n → n ∉ s) (x : Nat) :
    Below t'.up new x ↔ Below t.up new x :=
  below_congr (P := fun y => Below t.up new y)
    (fun y hy => ⟨up_congr (h.keep y (hs y hy)), hy.trans (Below.step (Below.refl t.up _))⟩)
    (Below.refl t.up new)

end HandedOver

theorem Links.handOver (h : t.Links 0) (hnew : t.InUse new) (hcyc : ¬ Below t.up new c)
    (hc : t.up c ≠ 0) :
    t.unlinkChild c = some (t.unlinked c) ∧ t.HandedOver new {c} ((t.unlinked c).addChild c new)
      ∧ ∀ b l, b ≠ 0 → b ≠ new → t.ChildList b l →
        ((t.unlinked c).addChild c new).ChildList b (l.erase c) := by
  obtain ⟨heq, hlinks⟩ := h.unlinkChild hc
  have hcu : t.InUse c := h.inUse_of_up hc
  have hcn : c ≠ new := by
    rintro rfl
    exact hcyc (Below.refl t.up c)
  have hcu' : (t.unlinked c).InUse c := hcu
  have hnew' : (t.unlinked c).InUse new := hnew
  have hacyc : ¬ Below (t.unlinked c).up new c := fun hb =>
    hcyc (Below.of_update (fun x hx => by simp [unlinked, hx]) hb)
  refine ⟨heq, ⟨hlinks.addChild hcu' hnew' (by simp [unlinked]) hacyc, fun n hn => ?_,
    fun n hn => ?_, ?_⟩, fun b l hb hbn hl => ?_⟩
  · have hnc : n ≠ c := hn
    simp [addChild_eq hcn, unlinked, relinked, BigAllocation.core, hnc, up]
  · obtain rfl : n = c := hn
    simp [addChild_eq hcn, unlinked, relinked, BigAllocation.core]
  · rw [addChild_eq hcn]
    rfl
  · exact (hl.unlinked h hc hb).addChild hlinks hnew' hcn hb hbn

/-- The loop hands over the children that begin at the split or later. -/
theorem splitChildren_eq (hb : b ≠ 0) (hbn : b ≠ new) :
    ∀ (l2 l1 : List Nat) (t : Table) (fuel : Nat), t.Links 0 → t.InUse new →
      (∀ c ∈ l2, ¬ Below t.up new c) → t.ChildList b (l1 ++ l2) → l2.length ≤ fuel →
      (∀ c ∈ l2, (t c).begin < (t c).end_ ∧ (t c).end_ ≤ (t b).end_) →
      ∃ t', splitChildren b new e fuel t (l2.head?.getD 0) = some t'
        ∧ t.HandedOver new { c | c ∈ l2 ∧ e ≤ (t c).begin } t'
        ∧ ∀ p l, p ≠ 0 → p ≠ b → p ≠ new → t.ChildList p l → t'.ChildList p l := by
  intro l2
  induction l2 with
  | nil =>
    intro l1 t fuel h _ _ _ _ _
    have hnone : { c | c ∈ [] ∧ e ≤ (t c).begin } = (∅ : Set Nat) := by simp
    rw [hnone]
    refine ⟨t, ?_, HandedOver.refl h new, fun _ _ _ _ _ hl => hl⟩
    cases fuel <;> simp [splitChildren]
  | cons c l2 ih =>
    intro l1 t fuel h hnew hcyc hl hfuel hin
    obtain ⟨fuel, rfl⟩ : ∃ f, fuel = f + 1 := ⟨fuel - 1, by simp at hfuel; omega⟩
    have hfuel' : l2.length ≤ fuel := by simpa using hfuel
    obtain ⟨hcu, hup⟩ := (hl.mem_iff c).mp (by simp)
    have hnext : (t c).nextSib = l2.head?.getD 0 := hl.linked.next_eq
    obtain ⟨hclt, hce⟩ := hin c (.head _)
    have hhead : (c :: l2).head?.getD 0 = c := rfl
    unfold splitChildren
    rw [hhead, if_neg hcu.ne_zero]
    dsimp only
    rw [if_neg (by omega), hnext]
    by_cases he : e ≤ (t c).begin
    · -- this one goes; the rest of the list is reached as before
      have hcyc0 := hcyc c (.head _)
      obtain ⟨heq, hover, hlists⟩ := h.handOver hnew hcyc0 (hup ▸ hb)
      set t₁ := (t.unlinked c).addChild c new with ht1
      have hcl1 : c ∉ l1 := fun hx => (List.nodup_append.mp hl.nodup).2.2 c hx c (by simp) rfl
      have hl' : t₁.ChildList b (l1 ++ l2) := by
        have := hlists b _ hb hbn hl
        rwa [List.erase_append_right _ hcl1, List.erase_cons_head] at this
      have hnc : new ∉ ({c} : Set Nat) := by
        rintro rfl
        exact hcyc0 (Below.refl t.up _)
      have hway := hover.below_new_iff fun n hn hc => hcyc0 (Set.mem_singleton_iff.mp hc ▸ hn)
      obtain ⟨t', hrun, hover', hlists'⟩ := ih l1 t₁ fuel hover.links
        ((inUse_congr (hover.keep new hnc)).mpr hnew)
        (fun x hx hc => hcyc x (List.mem_cons_of_mem c hx) ((hway x).mp hc)) hl'
        hfuel' fun x hx => by
          rw [(hover.bounds_eq x).1, (hover.bounds_eq x).2, (hover.bounds_eq b).2]
          exact hin x (List.mem_cons_of_mem c hx)
      have hset : { x | x ∈ c :: l2 ∧ e ≤ (t x).begin }
          = {c} ∪ { x | x ∈ l2 ∧ e ≤ (t₁ x).begin } := by
        ext x
        simp only [List.mem_cons, Set.mem_ofPred_eq, Set.mem_union, Set.mem_singleton_iff,
          (hover.bounds_eq x).1]
        constructor
        · rintro ⟨rfl | hx, hle⟩
          · exact .inl rfl
          · exact .inr ⟨hx, hle⟩
        · rintro (rfl | ⟨hx, hle⟩)
          · exact ⟨.inl rfl, he⟩
          · exact ⟨.inr hx, hle⟩
      rw [hset]
      refine ⟨t', ?_, hover.trans hover', fun p l hp hpb hpn hl => hlists' p l hp hpb hpn ?_⟩
      · rw [if_pos ⟨he, hce⟩, heq]
        exact hrun
      · have hcl : c ∉ l := fun hc => hpb (((hl.mem_iff c).mp hc).2.symm.trans hup)
        rw [← List.erase_of_not_mem hcl]
        exact hlists p l hp hpn hl
    · obtain ⟨t', hrun, hover', hlists'⟩ := ih (l1 ++ [c]) t fuel h hnew
        (fun x hx => hcyc x (List.mem_cons_of_mem c hx)) (by simpa using hl) hfuel'
        fun x hx => hin x (List.mem_cons_of_mem c hx)
      have hset : { x | x ∈ c :: l2 ∧ e ≤ (t x).begin } = { x | x ∈ l2 ∧ e ≤ (t x).begin } := by
        ext x
        simp only [List.mem_cons, Set.mem_ofPred_eq]
        constructor
        · rintro ⟨rfl | hx, hle⟩
          · exact absurd hle he
          · exact ⟨hx, hle⟩
        · exact fun hx => ⟨.inr hx.1, hx.2⟩
      rw [hset]
      refine ⟨t', ?_, hover', hlists'⟩
      rw [if_neg fun hc => he hc.1]
      exact hrun

/-! ### The two halves -/

/-- `t'` is `t` with the record `b` split at `e`.  The second half is the record `new`. -/
structure SplitAt (t : Table) (b e new : Nat) (t' : Table) : Prop where
  links : t'.Links 0
  free : ¬ t.InUse new
  inUse : t'.InUse new
  before : (t'.bigAllocations b).core = { (t.bigAllocations b).core with end_ := e }
  behind : (t'.bigAllocations new).core = { (t.bigAllocations b).core with begin := e }
  others : ∀ n, n ≠ b → n ≠ new →
    (t'.bigAllocations n).core = { (t.bigAllocations n).core with
      parent := if t.up n = b ∧ e ≤ (t.bigAllocations n).begin then new else t.up n }
  pages : ∀ q, t'.pageindex q
    = if e ≤ q * pageSize ∧ q * pageSize < (t.bigAllocations b).end_ ∧ t.pageindex q = b then new
      else t.pageindex q
  lists : ∀ p l, p ≠ 0 → p ≠ b → p ≠ new → p ≠ t.up b → t.ChildList p l → t'.ChildList p l
  rest : t' = { t with bigAllocations := t'.bigAllocations, pageindex := t'.pageindex }

theorem WellFormed.fitsTop_behind (h : t.WellFormed) (hb : t.InUse b) (hup : t.up b = 0)
    (h1 : (t b).begin < e) (h2 : e < (t b).end_) : t.FitsTop { t b with begin := e } := by
  intro n hn hupn
  have hlt := h.bounds n hn
  by_cases hnb : n = b
  · subst hnb
    exact .inl ⟨h1, le_rfl⟩
  · rcases h.apart n b hn hb (hupn.trans hup.symm) hnb with h3 | h3
    · exact .inl ⟨by show _ < e; omega, by show _ ≤ (t b).end_; omega⟩
    · exact .inr ⟨by show e < _; omega, by show (t b).end_ < _; omega⟩

theorem WellFormed.splitInit (h : t.WellFormed) (hb : t.InUse b)
    (h1 : (t b).begin < e) (h2 : e < (t b).end_)
    (hnew : t.findFreeBigalloc = some new) :
    ∃ t₁, t.bigallocInitNomemset new { t b with
          begin := e, end_ := e + ((t b).end_ - e) } (t b).parent
        = some t₁
      ∧ t.Added new { t b with begin := e } (t.up b) t₁
      ∧ ∀ q l, q ≠ 0 → q ≠ new → q ≠ t.up b → t.ChildList q l → t₁.ChildList q l := by
  obtain ⟨hlo, hhi, hfree⟩ := findFreeBigalloc_eq_some hnew
  have hend : e + ((t b).end_ - e) = (t b).end_ := by omega
  rw [hend]
  exact h.links.bigallocInitNomemset (b := new) (p := t.up b)
    (r := { t b with begin := e }) hfree hlo hhi (by show e ≠ 0; omega)
    (by show (t b).end_ ≠ 0; omega) (h.links.up_inUse b hb)
    fun hup => ⟨h.entered, h.fitsTop_behind hb hup h1 h2⟩

/-- The children that go to the second half. -/
def inSecondHalf (t : Table) (b e : Nat) : Set Nat :=
  { n | t.up n = b ∧ e ≤ (t.bigAllocations n).begin }

/-- The loop over the children, from the table that `splitInit` makes. -/
theorem Added.splitChildren (h : t.WellFormed) (hb : t.InUse b) (hfree : ¬ t.InUse new)
    (hadd : t.Added new { t b with begin := e } (t.up b) t₁) :
    ∃ t₂, splitChildren b new e nbigallocs t₁ (t₁ b).firstChild = some t₂
      ∧ t₁.HandedOver new (t.inSecondHalf b e) t₂
      ∧ ∀ p l, p ≠ 0 → p ≠ b → p ≠ new → t₁.ChildList p l → t₂.ChildList p l := by
  have hbn : b ≠ new := fun hc => hfree (hc ▸ hb)
  obtain ⟨l, hl⟩ := hadd.links.kids b (hadd.inUse_iff.mpr (.inl hb))
  have hold : ∀ n, t₁.up n = b → n ≠ new ∧ t.up n = b := by
    intro n hn
    have hne : n ≠ new := by
      rintro rfl
      exact h.links.up_ne_self hb (hadd.up_eq.symm.trans hn)
    exact ⟨hne, (hadd.old hne).2.2.symm.trans hn⟩
  have hmoved : { c | c ∈ l ∧ e ≤ (t₁ c).begin } = t.inSecondHalf b e := by
    ext n
    simp only [Set.mem_ofPred_eq, hl.mem_iff, inSecondHalf]
    constructor
    · rintro ⟨⟨hn, hup⟩, hbe⟩
      obtain ⟨hne, hup'⟩ := hold n hup
      exact ⟨hup', (hadd.old hne).1 ▸ hbe⟩
    · rintro ⟨hup, hbe⟩
      have hnu := (h.links.up_eq_inUse hup hb.ne_zero).1
      have hne : n ≠ new := fun hc => hfree (hc ▸ hnu)
      obtain ⟨hb1, -, hup1⟩ := hadd.old hne
      exact ⟨⟨hadd.inUse_iff.mpr (.inl hnu), hup1.trans hup⟩, hb1.symm ▸ hbe⟩
  -- the parent of `new` is that of `b`, which is not below a child of `b`
  have hcyc : ∀ c ∈ l, ¬ Below t₁.up new c := by
    intro c hc hbelow
    obtain ⟨hcu, hup⟩ := (hl.mem_iff c).mp hc
    obtain ⟨hne, hup'⟩ := hold c hup
    rcases Forest.below_iff.mp hbelow with hx | hx
    · exact hne hx.symm
    · rw [hadd.up_eq] at hx
      by_cases hp : t.up b = 0
      · rw [hp] at hx
        exact hcu.ne_zero (eq_null_of_below hadd.links.up_zero hx)
      · have hpn : t.up b ≠ new := fun hc => hfree (hc ▸ h.links.up_inUse b hb hp)
        have hx' := (hadd.below_iff hpn).mp hx
        exact h.links.not_below_up hb (hx'.trans (Below.step (by rw [hup']; exact Below.refl _ _)))
  obtain ⟨t₂, hrun, hover, hlists⟩ := splitChildren_eq (e := e) hb.ne_zero hbn l [] t₁ nbigallocs
    hadd.links hadd.inUse hcyc hl hl.length_le fun c hc => by
      obtain ⟨hcu, hup⟩ := (hl.mem_iff c).mp hc
      obtain ⟨hne, hup'⟩ := hold c hup
      obtain ⟨hb1, he1, -⟩ := hadd.old hne
      obtain ⟨-, he2, -⟩ := hadd.old hbn
      have hcu' := (hadd.inUse_iff.mp hcu).resolve_right hne
      have hins := (h.inside c hcu' (hup' ▸ hb.ne_zero)).2
      rw [hup'] at hins
      rw [hb1, he1, he2]
      exact ⟨h.bounds c hcu', hins⟩
  have hhead : (t₁ b).firstChild = l.head?.getD 0 := hl.linked.head_eq
  rw [hmoved] at hover
  rw [hhead]
  exact ⟨t₂, hrun, hover, hlists⟩

/-- The old number gives way to the new one in the second half. -/
def splitIndex (t : Table) (b e new q : Nat) : Nat :=
  if pagenum (roundUp e pageSize) ≤ q ∧ q < pagenum (roundUp (t.bigAllocations b).end_ pageSize)
    ∧ t.pageindex q = b then new else t.pageindex q

/-- The second half has its children; the first has not been cut yet. -/
structure BeforeCut (t : Table) (b e new : Nat) (t₂ : Table) : Prop where
  links : t₂.Links 0
  inUse : t₂.InUse new
  first : (t₂.bigAllocations b).core = (t.bigAllocations b).core
  second : (t₂.bigAllocations new).core = { (t.bigAllocations b).core with begin := e }
  others : ∀ n, n ≠ b → n ≠ new →
    (t₂.bigAllocations n).core = { (t.bigAllocations n).core with
      parent := if t.up n = b ∧ e ≤ (t.bigAllocations n).begin then new else t.up n }
  rest : t₂ = { t with bigAllocations := t₂.bigAllocations }

theorem Added.beforeCut {t₂ : Table} (hadd : t.Added new { t b with begin := e } (t.up b) t₁)
    (hover : t₁.HandedOver new (t.inSecondHalf b e) t₂) (h : t.WellFormed) (hb : t.InUse b)
    (hfree : ¬ t.InUse new) : t.BeforeCut b e new t₂ := by
  have hbn : b ≠ new := fun hc => hfree (hc ▸ hb)
  have hnotb : b ∉ t.inSecondHalf b e := fun hc => h.links.up_ne_self hb hc.1
  have hnotnew : new ∉ t.inSecondHalf b e := fun hc =>
    hb.ne_zero (hc.1.symm.trans (h.links.free new hfree))
  refine ⟨hover.links, (inUse_congr (hover.keep new hnotnew)).mpr hadd.inUse,
    (hover.keep b hnotb).trans (hadd.keep b hbn), ?_, fun n _ hne => ?_, ?_⟩
  · rw [hover.keep new hnotnew, hadd.new]
    rfl
  · by_cases hns : t.up n = b ∧ e ≤ (t n).begin
    · rw [if_pos hns, hover.moved n hns, hadd.keep n hne]
    · rw [if_neg hns, hover.keep n hns, hadd.keep n hne]
      rfl
  · rw [hover.rest, hadd.rest]

namespace BeforeCut

variable {t₂ : Table}

section

variable (hc : t.BeforeCut b e new t₂)
include hc

theorem begin_eq : (t₂ b).begin = (t b).begin := (congrArg (·.begin) hc.first :)

theorem end_eq : (t₂ b).end_ = (t b).end_ := (congrArg (·.end_) hc.first :)

theorem begin_new : (t₂ new).begin = e := (congrArg (·.begin) hc.second :)

theorem end_new : (t₂ new).end_ = (t b).end_ := (congrArg (·.end_) hc.second :)

theorem core_top (hnew : 0 < new) (hnb : n ≠ b) (hnn : n ≠ new)
    (hup : t₂.up n = 0) : (t₂ n).core = (t n).core := by
  have hn := hc.others n hnb hnn
  have hns : ¬ (t.up n = b ∧ e ≤ (t n).begin) := by
    intro hcond
    have hparent := congrArg (·.parent) hn
    rw [if_pos hcond] at hparent
    exact hnew.ne' (hparent.symm.trans hup)
  rw [if_neg hns] at hn
  exact hn

theorem links_cut (h : t.WellFormed) (hb : t.InUse b) (h1 : (t b).begin < e)
    (h2 : e < (t b).end_) (hnew : 0 < new) : (t₂.setBounds b (t₂ b).begin e).Links 0 := by
  have hinUse : t₂.InUse b := (inUse_congr hc.first).mpr hb
  refine hc.links.setBounds hinUse hinUse.2.2.1 (by omega) fun hup n hn hupn hne => ?_
  rw [hc.begin_eq, hc.end_eq]
  by_cases hnn : n = new
  · rw [hnn, hc.begin_new, hc.end_new]
    omega
  · have hcore := hc.core_top hnew hne hnn hupn
    obtain ⟨h3, h4⟩ := bounds_congr hcore
    have hn' := (inUse_congr hcore).mp hn
    have hups : t.up n = t.up b := by
      rw [← up_congr hcore, ← up_congr hc.first, hup, hupn]
    have hapart := h.apart n b hn' hb hups hne
    unfold Apart at hapart
    rw [h3, h4]
    omega

end

end BeforeCut

/-- **A split gives the two halves**, whatever the children. -/
theorem WellFormed.splitBigallocAtPageBoundary_at (h : t.WellFormed) (hb : t.InUse b)
    (h1 : (t b).begin < e) (h2 : e < (t b).end_)
    (hnew : t.findFreeBigalloc = some new) :
    ∃ t', t.splitBigallocAtPageBoundary b e = some (new, t') ∧ t.SplitAt b e new t' := by
  obtain ⟨hlo, -, hfree⟩ := findFreeBigalloc_eq_some hnew
  have hbn : b ≠ new := fun hc => hfree (hc ▸ hb)
  obtain ⟨t₁, hinit, hadd, hlists1⟩ := h.splitInit hb h1 h2 hnew
  obtain ⟨t₂, hrun, hover, hlists2⟩ := hadd.splitChildren h hb hfree
  have hc := hadd.beforeCut hover h hb hfree
  have hinUse : t₂.InUse b := (inUse_congr hc.first).mpr hb
  have hpos := hinUse.2.2.1
  have hlinks := hc.links_cut h hb h1 h2 hlo
  set t3 := t₂.setBounds b (t₂ b).begin e with ht3
  have hpi : t3.pageindex = t.pageindex := by
    show t₂.pageindex = _
    rw [hc.rest]
  have hnew3 : t3 new = t₂ new := setBounds_of_ne (Ne.symm hbn)
  refine ⟨{ t3 with pageindex := t.splitIndex b e new }, ?_, hlinks.of_eq rfl rfl, hfree, ?_, ?_,
    ?_, fun n hnb hne => ?_, fun q => ?_, fun p l hp hpb hpn hpu hl => ?_, ?_⟩
  · simp only [splitBigallocAtPageBoundary, hnew, some_bind, hinit,
      hrun, modify_end, Option.pure_def, ← ht3, hnew3, hc.begin_new, hc.end_new, hpi]
    rfl
  · exact (setBounds_inUse hinUse hpos (by omega)).mpr hc.inUse
  · show (t3 b).core = _
    rw [ht3, setBounds_self, hc.begin_eq]
    have := congrArg (fun r : BigAllocation =>
      { r with begin := (t b).begin, end_ := e }) hc.first
    exact this
  · show (t3 new).core = _
    rw [hnew3, hc.second]
  · show (t3 n).core = _
    rw [ht3, setBounds_of_ne hnb]
    exact hc.others n hnb hne
  · exact if_congr (and_congr pagenum_roundUp_le (and_congr lt_pagenum_roundUp Iff.rfl)) rfl rfl
  · have hl3 : t3.ChildList p l := (hlists2 p l hp hpb hpn (hlists1 p l hp hpn hpu hl)).setBounds
      hinUse hpos (by omega)
    exact ⟨hl3.linked, hl3.nodup, hl3.mem_iff⟩
  · rw [ht3, setBounds, modify, hc.rest]

namespace SplitAt

section

variable (hs : t.SplitAt b e new t')
include hs

theorem ne (hb : t.InUse b) : b ≠ new := fun hc => hs.free (hc ▸ hb)

theorem begin_eq (hn : n ≠ new) : (t' n).begin = (t n).begin := by
  by_cases hnb : n = b
  · have := congrArg (·.begin) hs.before
    exact hnb ▸ this
  · exact (congrArg (·.begin) (hs.others n hnb hn) :)

theorem end_eq (hn : n ≠ new) : (t' n).end_ = if n = b then e else (t n).end_ := by
  by_cases hnb : n = b
  · have := congrArg (·.end_) hs.before
    rw [if_pos hnb, hnb]
    exact this
  · have := congrArg (·.end_) (hs.others n hnb hn)
    rw [if_neg hnb]
    exact this

theorem begin_new : (t' new).begin = e := (congrArg (·.begin) hs.behind :)

theorem end_new : (t' new).end_ = (t b).end_ := (congrArg (·.end_) hs.behind :)

theorem up_new : t'.up new = t.up b := (congrArg (·.parent) hs.behind :)

theorem up_self : t'.up b = t.up b := (congrArg (·.parent) hs.before :)

theorem up_moved (hn : n ≠ b) (hnn : n ≠ new) (hup : t.up n = b)
    (he : e ≤ (t n).begin) : t'.up n = new := by
  have := congrArg (·.parent) (hs.others n hn hnn)
  rw [if_pos ⟨hup, he⟩] at this
  exact this

theorem up_kept (hnn : n ≠ new) (hno : ¬ (t.up n = b ∧ e ≤ (t n).begin)) : t'.up n = t.up n := by
  by_cases hnb : n = b
  · rw [hnb]
    exact hs.up_self
  · have := congrArg (·.parent) (hs.others n hnb hnn)
    rw [if_neg hno] at this
    exact this

theorem inUse_iff (he : e ≠ 0) (hb : t.InUse b) : t'.InUse n ↔ t.InUse n ∨ n = new := by
  by_cases hnn : n = new
  · simp [hnn, hs.inUse]
  · unfold InUse
    rw [hs.begin_eq hnn, hs.end_eq hnn]
    by_cases hnb : n = b
    · obtain ⟨h1, h2, h3, h4⟩ := hb
      simp [hnb, he, h1, h2, h3, h4]
    · simp [hnb, hnn]

end

end SplitAt

/-- No child of `b` lies across `e`. -/
def NoneAcross (t : Table) (b e : Nat) : Prop :=
  ∀ c, t.InUse c → t.up c = b → (t.bigAllocations c).end_ ≤ e ∨ e ≤ (t.bigAllocations c).begin

/-- The record that a record of the split table was, or was part of. -/
def whole (b new n : Nat) : Nat := if n = new then b else n

theorem whole_of_ne (hn : n ≠ new) : whole b new n = n := if_neg hn

namespace SplitAt

section

variable (hs : t.SplitAt b e new t')
include hs

theorem inUse_whole (he : e ≠ 0) (hb : t.InUse b) (hn : t'.InUse n) : t.InUse (whole b new n) := by
  unfold whole
  split
  · exact hb
  · rename_i hnn
    exact ((hs.inUse_iff he hb).mp hn).resolve_right hnn

theorem up_ne_new (h : t.WellFormed) (n : Nat) : t.up n ≠ new := by
  intro hc
  exact hs.free (h.links.up_eq_inUse hc hs.inUse.ne_zero).2

theorem up_whole (h : t.WellFormed) (hb : t.InUse b) :
    t.up (whole b new n) = whole b new (t'.up n) := by
  have hup := hs.up_ne_new h
  by_cases hnn : n = new
  · rw [hnn, hs.up_new, whole_of_ne (hup b), whole, if_pos rfl]
  rw [whole_of_ne hnn]
  by_cases hno : t.up n = b ∧ e ≤ (t n).begin
  · have hnb : n ≠ b := fun hc => h.links.up_ne_self hb (by rw [hc] at hno; exact hno.1)
    rw [hs.up_moved hnb hnn hno.1 hno.2, whole, if_pos rfl, hno.1]
  · rw [hs.up_kept hnn hno, whole_of_ne (hup n)]

end

end SplitAt

section

variable (hs : t.SplitAt b e new t') (h1 : (t b).begin < e) (h2 : e < (t b).end_)
include hs h1 h2

theorem SplitAt.range_whole :
    (t (whole b new n)).begin ≤ (t' n).begin ∧ (t' n).end_ ≤ (t (whole b new n)).end_ := by
  by_cases hnn : n = new
  · rw [hnn, hs.begin_new, hs.end_new, whole, if_pos rfl]
    omega
  · rw [whole_of_ne hnn, hs.begin_eq hnn, hs.end_eq hnn]
    by_cases hnb : n = b
    · rw [if_pos hnb, hnb]
      omega
    · rw [if_neg hnb]
      exact ⟨le_rfl, le_rfl⟩

theorem SplitAt.spansPage_whole (hq : t'.SpansPage n q) :
    t.SpansPage (whole b new n) q := by
  obtain ⟨hr1, hr2⟩ := hs.range_whole (n := n) h1 h2
  exact ⟨hr1.trans hq.1, hq.2.trans hr2⟩

variable (h : t.WellFormed) (hb : t.InUse b) (hacross : t.NoneAcross b e)
include h hb hacross

theorem SplitAt.tiled : t'.Tiled := by
  have hpos : e ≠ 0 := by omega
  have hbn := hs.ne hb
  have hrange : ∀ n, _ := fun n => hs.range_whole (n := n) h1 h2
  refine ⟨fun n hn => ?_, fun n hn hup => ?_, fun m n hm hn hup hne => ?_⟩
  · by_cases hnn : n = new
    · rw [hnn, hs.begin_new, hs.end_new]
      exact h2
    · have hn' := ((hs.inUse_iff hpos hb).mp hn).resolve_right hnn
      rw [hs.begin_eq hnn, hs.end_eq hnn]
      split
      · rename_i hnb
        rw [hnb]
        exact h1
      · exact h.bounds n hn'
  · have hn' := hs.inUse_whole hpos hb hn
    have hwhole := hs.up_whole (n := n) h hb
    have hin := h.inside (whole b new n) hn' (by
      rw [hwhole]
      unfold whole
      split
      · exact hb.ne_zero
      · exact hup)
    unfold Inside at hin ⊢
    rw [hwhole] at hin
    have hr := hrange n
    by_cases hpn : t'.up n = new
    · have hnn : n ≠ new := fun hc => hs.up_ne_new h b (hs.up_new.symm.trans (hc ▸ hpn))
      have hmoved : t.up n = b ∧ e ≤ (t n).begin := by
        by_contra hno
        exact hs.up_ne_new h n ((hs.up_kept hnn hno).symm.trans hpn)
      rw [hpn, whole, if_pos rfl] at hin
      rw [hpn, hs.begin_new, hs.end_new, hs.begin_eq hnn]
      omega
    · rw [whole_of_ne hpn] at hin
      rw [hs.begin_eq hpn, hs.end_eq hpn]
      by_cases hpb : t'.up n = b
      · have hnn : n ≠ new := fun hc =>
          h.links.up_ne_self hb (hs.up_new.symm.trans (hc ▸ hpb))
        have hnb : n ≠ b := fun hc => h.links.up_ne_self hb (hs.up_self.symm.trans (hc ▸ hpb))
        rw [whole_of_ne hnn] at hn' hwhole hr hin
        rw [hpb, whole_of_ne hbn] at hwhole
        have hno : ¬ e ≤ (t n).begin := fun hc =>
          hpn (hs.up_moved hnb hnn hwhole hc)
        have hle := (hacross n hn' hwhole).resolve_right hno
        rw [if_pos hpb]
        omega
      · rw [if_neg hpb]
        omega
  · have hm' := hs.inUse_whole hpos hb hm
    have hn' := hs.inUse_whole hpos hb hn
    have hrm := hrange m
    have hrn := hrange n
    unfold Apart
    by_cases heq : whole b new m = whole b new n
    · by_cases hmn : m = new
      · have hnn : n ≠ new := fun hc => hne (hmn.trans hc.symm)
        rw [whole_of_ne hnn, whole, if_pos hmn] at heq
        right
        rw [hmn, hs.begin_new, hs.end_eq hnn, if_pos heq.symm]
      · rw [whole_of_ne hmn] at heq
        by_cases hnn : n = new
        · rw [whole, if_pos hnn] at heq
          left
          rw [hnn, hs.begin_new, hs.end_eq hmn, if_pos heq]
        · rw [whole_of_ne hnn] at heq
          exact absurd heq hne
    · have hap := h.apart _ _ hm' hn' (by rw [hs.up_whole h hb, hs.up_whole h hb, hup]) heq
      unfold Apart at hap
      omega

variable (he : PageAligned e)
include he

/-- The substitution of numbers is what the two halves need. -/
theorem SplitAt.canonical : t'.Canonical := by
  have hpos : e ≠ 0 := by omega
  have hlam := (hs.tiled h1 h2 h hb hacross).laminar_pages hs.links
  intro q
  have hpage := hs.pages q
  have hwhole : whole b new (t'.pageindex q) = t.pageindex q := by
    rw [hpage]
    split
    · rename_i hc
      rw [whole, if_pos rfl, hc.2.2]
    · refine whole_of_ne fun hc => ?_
      rcases h.canonical_iff q with ⟨h0, -⟩ | ⟨hu, -⟩
      · exact hs.inUse.ne_zero (hc.symm.trans h0)
      · exact hs.free (hc ▸ hu)
  rcases h.canonical_iff q with ⟨h0, hno⟩ | ⟨hu, hspan, hbelow⟩
  · refine .inl ⟨?_, fun n hn hnq => ?_⟩
    · rw [hpage, if_neg fun hc => hb.ne_zero (hc.2.2.symm.trans h0), h0]
    · exact hno _ (hs.inUse_whole hpos hb hn) (hs.spansPage_whole h1 h2 hnq)
  · -- nothing below the record that had the page spans it, as a whole or in part
    have hnochild : ∀ c, t'.InUse c → t'.up c = t'.pageindex q → ¬ t'.SpansPage c q := by
      intro c hc hup hcq
      have hc' := hs.inUse_whole hpos hb hc
      have hupc := hs.up_whole (n := c) h hb
      rw [hup, hwhole] at hupc
      apply h.links.not_below_up hc'
      rw [hupc]
      exact hbelow _ hc' (hs.spansPage_whole h1 h2 hcq)
    have hhas : t'.InUse (t'.pageindex q) ∧ t'.SpansPage (t'.pageindex q) q := by
      rw [hpage]
      split
      · rename_i hc
        refine ⟨hs.inUse, ?_⟩
        unfold SpansPage at hspan ⊢
        rw [hc.2.2] at hspan
        rw [hs.begin_new, hs.end_new]
        exact ⟨hc.1, hspan.2⟩
      · rename_i hc
        have hnn : t.pageindex q ≠ new := fun hc => hs.free (hc ▸ hu)
        refine ⟨(hs.inUse_iff hpos hb).mpr (.inl hu), ?_⟩
        unfold SpansPage at hspan ⊢
        rw [hs.begin_eq hnn, hs.end_eq hnn]
        split
        · -- a page of `b` before the boundary, which is a page boundary
          rename_i hqb
          rw [hqb] at hspan
          refine ⟨hqb ▸ hspan.1, ?_⟩
          have hlt : q * pageSize < e := by
            by_contra hge
            exact hc ⟨not_lt.mp hge, by
              have := hspan.2
              simp only [pageSize] at this ⊢
              omega, hqb⟩
          obtain ⟨k, rfl⟩ := he
          simp only [pageSize] at hlt ⊢
          omega
        · exact hspan
    exact hlam.deepest_of_no_child hhas.1 hhas.2 hnochild

theorem SplitAt.wellFormed : t'.WellFormed := by
  have hpos : e ≠ 0 := by omega
  have hstart : t'.start = t.start := by rw [hs.rest]
  refine wellFormed_iff.mpr ⟨⟨hs.tiled h1 h2 h hb hacross, hs.links, fun h0 => ?_,
    hs.canonical h1 h2 h hb hacross he⟩, fun n hn hup => ?_⟩
  · rw [hstart] at h0 ⊢
    obtain ⟨hu, hup, hne⟩ := h.entered h0
    have hnn : t.start ≠ new := fun hc => hs.free (hc ▸ hu)
    refine ⟨(hs.inUse_iff hpos hb).mpr (.inl hu), ?_, hne⟩
    rw [hs.up_kept hnn fun hc => hb.ne_zero (hc.1.symm.trans hup)]
    exact hup
  · have hwhole := hs.up_whole (n := n) h hb
    rw [hup, whole_of_ne hs.inUse.ne_zero.symm] at hwhole
    obtain ⟨ha1, ha2⟩ := h.aligned _ (hs.inUse_whole hpos hb hn) hwhole
    by_cases hnn : n = new
    · rw [whole, if_pos hnn] at ha2
      rw [hnn, hs.begin_new, hs.end_new]
      exact ⟨he, ha2⟩
    · rw [whole_of_ne hnn] at ha1 ha2
      rw [hs.begin_eq hnn, hs.end_eq hnn]
      refine ⟨ha1, ?_⟩
      split
      · exact he
      · exact ha2

/-! ### The result -/

/-- What a split of a bigalloc is to do: two bigallocs under the same parent that meet at `e`, each
with the children on its side. -/
structure SplitWell (t : Table) (b e new : Nat) (t' : Table) : Prop where
  wellFormed : t'.WellFormed
  first : (t'.bigAllocations b).begin = (t.bigAllocations b).begin
    ∧ (t'.bigAllocations b).end_ = e
  second : (t'.bigAllocations new).begin = e
    ∧ (t'.bigAllocations new).end_ = (t.bigAllocations b).end_
  parents : t'.up b = t.up b ∧ t'.up new = t.up b
  kids : ∀ c, t.InUse c → t.up c = b →
    (t'.up c = b ∧ (t.bigAllocations c).end_ ≤ e) ∨ (t'.up c = new ∧ e ≤ (t.bigAllocations c).begin)
  others : ∀ n, t.InUse n → n ≠ b → (t'.bigAllocations n).begin = (t.bigAllocations n).begin
    ∧ (t'.bigAllocations n).end_ = (t.bigAllocations n).end_ ∧ (t.up n ≠ b → t'.up n = t.up n)
  lists : ∀ p, t.InUse p → p ≠ b → p ≠ t.up b → t'.children p = t.children p
  pages : ∀ q, t.pageindex q ≠ b → t'.pageindex q = t.pageindex q

theorem SplitAt.splitWell : t.SplitWell b e new t' := by
  have hold : ∀ n, t.InUse n → n ≠ new := fun n hn hc => hs.free (hc ▸ hn)
  refine ⟨hs.wellFormed h1 h2 h hb hacross he, ⟨hs.begin_eq (hs.ne hb), ?_⟩,
    ⟨hs.begin_new, hs.end_new⟩, ⟨hs.up_self, hs.up_new⟩, fun c hc hup => ?_,
    fun n hn hnb => ⟨hs.begin_eq (hold n hn), ?_, fun hup => ?_⟩, fun p hp hpb hpu => ?_,
    fun q hq => ?_⟩
  · rw [hs.end_eq (hs.ne hb), if_pos rfl]
  · have hcb : c ≠ b := fun hcb => h.links.up_ne_self hb (by rw [hcb] at hup; exact hup)
    by_cases hc' : e ≤ (t c).begin
    · exact .inr ⟨hs.up_moved hcb (hold c hc) hup hc', hc'⟩
    · exact .inl ⟨(hs.up_kept (hold c hc) fun hx => hc' hx.2).trans hup,
        (hacross c hc hup).resolve_right hc'⟩
  · rw [hs.end_eq (hold n hn), if_neg hnb]
  · exact hs.up_kept (hold n hn) fun hc => hup hc.1
  · obtain ⟨l, hl⟩ := h.links.kids p hp
    rw [hl.children_eq, (hs.lists p l hp.ne_zero hpb (hold p hp) hpu hl).children_eq]
  · rw [hs.pages q, if_neg fun hc => hq hc.2.2]

end

/-- **Splitting a bigalloc at a page boundary is right, or aborts, exactly when no record is free or
no child lies across the boundary.** -/
theorem splitBigallocAtPageBoundary_wellFormed_iff (t : Table) (b splitAddr : Nat)
    (h : t.WellFormed) (hb : t.InUse b) (halign : PageAligned splitAddr)
    (h1 : (t.bigAllocations b).begin < splitAddr) (h2 : splitAddr < (t.bigAllocations b).end_) :
    (∀ new t', t.splitBigallocAtPageBoundary b splitAddr = some (new, t') →
        t.SplitWell b splitAddr new t')
      ↔ t.findFreeBigalloc = none ∨ t.NoneAcross b splitAddr := by
  constructor
  · intro hall
    cases hnew : t.findFreeBigalloc with
    | none => exact .inl rfl
    | some new =>
      obtain ⟨t', hrun, -⟩ := h.splitBigallocAtPageBoundary_at hb h1 h2 hnew
      refine .inr fun c hc hup => ?_
      rcases (hall new t' hrun).kids c hc hup with ⟨-, hc'⟩ | ⟨-, hc'⟩
      · exact .inl hc'
      · exact .inr hc'
  · intro hcond new t' hrun
    cases hnew : t.findFreeBigalloc with
    | none =>
      unfold splitBigallocAtPageBoundary at hrun
      rw [hnew] at hrun
      cases hrun
    | some new' =>
      obtain ⟨t'', hrun', hs⟩ := h.splitBigallocAtPageBoundary_at hb h1 h2 hnew
      obtain ⟨rfl, rfl⟩ : new' = new ∧ t'' = t' := by
        rw [hrun'] at hrun
        simpa using hrun
      exact hs.splitWell h1 h2 h hb
        (hcond.resolve_left (by rw [hnew]; exact Option.some_ne_none _)) halign

/-- The middle record `[5000, 14000)` of three split behind its child `[5100, 9000)`. -/
theorem splitBigallocAtPageBoundary_wellFormed_sample : ∃ used t new t',
    sampleDeep = some (used, t) ∧ t.splitBigallocAtPageBoundary 2 12288 = some (new, t')
      ∧ t.SplitWell 2 12288 new t' := by
  obtain ⟨used, t, ht, new, t', hrun, hmem, hin, h1, h2, hup1, hup2, hend⟩ :
      ∃ used t, sampleDeep = some (used, t)
        ∧ ∃ new t', t.splitBigallocAtPageBoundary 2 12288 = some (new, t') ∧ used = [3, 2, 1]
          ∧ t.InUse 2 ∧ (t 2).begin < 12288 ∧ 12288 < (t 2).end_
          ∧ t.up 1 = 0 ∧ t.up 2 = 1 ∧ (t 3).end_ ≤ 12288 := by
    decide +kernel
  obtain ⟨hwf, -, hused, -⟩ := sample_empty.createAll_wellFormed ht
  have hacross : t.NoneAcross 2 12288 := by
    intro c hc hupc
    have hc' := hused c hc
    rw [hmem] at hc'
    simp only [List.mem_cons, List.not_mem_nil, or_false] at hc'
    rcases hc' with rfl | rfl | rfl
    · exact .inl hend
    · exact absurd (hup2.symm.trans hupc) (by decide)
    · exact absurd (hup1.symm.trans hupc) (by decide)
  exact ⟨used, t, new, t', ht, hrun, (splitBigallocAtPageBoundary_wellFormed_iff t 2 12288 hwf hin
    (by decide) h1 h2).mpr (.inr hacross) new t' hrun⟩

/-- Split at 8192 instead, the record keeps its child, which now sticks out of it. -/
theorem splitBigallocAtPageBoundary_across : ∃ used t new t', sampleDeep = some (used, t)
    ∧ t.WellFormed ∧ t.InUse 2 ∧ (t.bigAllocations 2).begin < 8192
    ∧ 8192 < (t.bigAllocations 2).end_ ∧ t.splitBigallocAtPageBoundary 2 8192 = some (new, t')
    ∧ t'.InUse 3 ∧ t'.up 3 = 2 ∧ (t'.bigAllocations 2).end_ < (t'.bigAllocations 3).end_ := by
  obtain ⟨used, t, ht, ⟨hin, h1, h2⟩, new, t', h⟩ : ∃ used t, sampleDeep = some (used, t)
      ∧ (t.InUse 2 ∧ (t 2).begin < 8192 ∧ 8192 < (t 2).end_)
      ∧ ∃ new t', t.splitBigallocAtPageBoundary 2 8192 = some (new, t') ∧ t'.InUse 3 ∧ t'.up 3 = 2
        ∧ (t' 2).end_ < (t' 3).end_ := by
    decide +kernel
  exact ⟨used, t, new, t', ht, (sample_empty.createAll_wellFormed ht).1, hin, h1, h2, h⟩

end Liballocs.Table
