/-
Moving records between child lists.

Each primitive that edits links is one replacement of the four link fields (`relinked`), and what it
does to the forest a statement about four functions.
-/
import Mathlib.Tactic.Set
import Mathlib.Tactic.Tauto
import Liballocs.Proofs.Links

namespace Liballocs.Table

open Dll Forest

/-- The table with the links of its records replaced. -/
def relinked (t : Table) (parent firstChild nextSib prevSib : Nat → Nat) : Table :=
  { t with
    bigAllocations := fun n =>
      { t.bigAllocations n with
        parent := parent n, firstChild := firstChild n, nextSib := nextSib n, prevSib := prevSib n } }

variable {t t' : Table} {b c d n p d' q : Nat} {P F N V : Nat → Nat} {l : List Nat}
  {r : BigAllocation}

@[simp] theorem relinked_up : (t.relinked P F N V).up = P := rfl
@[simp] theorem relinked_next : (t.relinked P F N V).next = N := rfl
@[simp] theorem relinked_prev : (t.relinked P F N V).prev = V := rfl
@[simp] theorem relinked_first : (t.relinked P F N V).first = F := rfl
@[simp] theorem relinked_begin : ((t.relinked P F N V) n).begin = (t n).begin := rfl
@[simp] theorem relinked_end : ((t.relinked P F N V) n).end_ = (t n).end_ := rfl
@[simp] theorem relinked_inUse : (t.relinked P F N V).InUse n ↔ t.InUse n := Iff.rfl

theorem eq_relinked (h : t' = { t with bigAllocations := t'.bigAllocations }) (hr : ∀ n, t' n
      = { t n with
          parent := P n, firstChild := F n, nextSib := N n, prevSib := V n }) :
    t' = t.relinked P F N V := by
  rw [h, relinked]
  congr 1
  exact funext hr

/-! ### Child lists -/

theorem setNextSib_eq (t : Table) (p m : Nat) :
    t.setNextSib p m
      = t.relinked t.up t.first (fun n => if n = p ∧ n ≠ 0 then m else t.next n) t.prev := by
  unfold setNextSib
  split <;>
  · refine eq_relinked rfl fun n => ?_
    ext <;> grind [modify, up, first, next, prev]

theorem setPrevSib_eq (t : Table) (p m : Nat) :
    t.setPrevSib p m
      = t.relinked t.up t.first t.next fun n => if n = p ∧ n ≠ 0 then m else t.prev n := by
  unfold setPrevSib
  split <;>
  · refine eq_relinked rfl fun n => ?_
    ext <;> grind [modify, up, first, next, prev]

theorem addChild_eq (hbp : b ≠ p) :
    t.addChild b p = t.relinked (fun n => if n = b then p else t.up n)
      (fun n => if n = p then b else t.first n)
      (fun n => if n = b then t.first p else t.next n)
      (fun n => if n = t.first p ∧ n ≠ 0 then b else t.prev n) := by
  unfold addChild
  simp only [modify, if_neg (Ne.symm hbp)]
  split <;>
  · refine eq_relinked rfl fun n => ?_
    ext <;> grind [up, first, next, prev]

theorem unlinkChild_eq (hp : t.up c ≠ 0) :
    t.unlinkChild c = some (t.relinked (fun n => if n = c then 0 else t.up n)
      (fun n => if n = t.up c ∧ t.first n = c then t.next c else t.first n)
      (fun n => if n = c then 0 else if n = t.prev c ∧ n ≠ 0 then t.next c else t.next n)
      (fun n => if n = c then 0 else if n = t.next c ∧ n ≠ 0 then t.prev c else t.prev n)) := by
  have hfirst : (if c = (t (t c).parent).firstChild then
        t.modify (t c).parent fun r =>
          { r with firstChild := (t c).nextSib }
      else t)
      = t.relinked t.up
        (fun n => if n = t.up c ∧ t.first n = c then t.next c else t.first n) t.next t.prev := by
    split <;>
    · refine eq_relinked rfl fun n => ?_
      ext <;> grind [modify, up, first, next, prev]
  -- Reading the child's own links after each write gives what they were before.
  set t1 := t.relinked t.up
    (fun n => if n = t.up c ∧ t.first n = c then t.next c else t.first n) t.next t.prev with ht1
  have hnext : t1.setNextSib (t1 c).prevSib (t1 c).nextSib
      = t.relinked t.up t1.first (fun n => if n = t.prev c ∧ n ≠ 0 then t.next c else t.next n)
        t.prev := setNextSib_eq t1 (t.prev c) (t.next c)
  set t2 := t.relinked t.up t1.first
    (fun n => if n = t.prev c ∧ n ≠ 0 then t.next c else t.next n) t.prev with ht2
  have hself : (t2 c).nextSib = t.next c := ite_self (t.next c)
  have hprev : t2.setPrevSib (t2 c).nextSib (t2 c).prevSib = t.relinked t.up t1.first t2.next
        fun n => if n = t.next c ∧ n ≠ 0 then t.prev c else t.prev n := by
    rw [hself]
    exact setPrevSib_eq t2 (t.next c) (t.prev c)
  simp only [unlinkChild, if_neg (show (t c).parent ≠ 0 from hp), hfirst, hnext,
    hprev, Option.some.injEq]
  refine eq_relinked rfl fun n => ?_
  by_cases hn : n = c
  · simp only [modify, relinked, if_pos hn]
    rfl
  · simp only [modify, relinked, if_neg hn]
    rfl

/-! ### Carrying lists over -/

theorem ChildList.transport {p : Nat} (h : t.ChildList p l) (hf : t'.first p = t.first p)
    (hn : ∀ x ∈ l, t'.next x = t.next x ∧ t'.prev x = t.prev x)
    (hm : ∀ c, (t'.InUse c ∧ t'.up c = p) ↔ (t.InUse c ∧ t.up c = p)) : t'.ChildList p l := by
  refine ⟨?_, h.nodup, fun c => (h.mem_iff c).trans (hm c).symm⟩
  rw [hf]
  exact h.linked.congr (fun x hx => (hn x hx).1) fun x hx => (hn x hx).2

theorem TopList.transport (h : t.TopList d l)
    (hm : ∀ n, (t'.InUse n ∧ t'.up n = 0 ∧ n ≠ d') ↔ (t.InUse n ∧ t.up n = 0 ∧ n ≠ d))
    (hr : ∀ n ∈ l, t'.next n = t.next n ∧ t'.prev n = t.prev n ∧ (t' n).begin = (t n).begin ∧
      (t' n).end_ = (t n).end_) : t'.TopList d' l := by
  obtain ⟨hd, hlinked⟩ := h.linked
  refine ⟨⟨hd, hlinked.congr (fun n hn => (hr n hn).1) fun n hn => (hr n hn).2.1⟩,
    h.nodup, fun n => (h.mem_iff n).trans (hm n).symm, ?_⟩
  refine h.sorted.imp_of_mem fun {a b} ha hb hab => ?_
  obtain ⟨-, -, ha1, ha2⟩ := hr a ha
  obtain ⟨-, -, hb1, hb2⟩ := hr b hb
  rw [ha1, ha2, hb1, hb2]
  exact hab

theorem TopLinks.transport (h : t.TopLinks d) (hs : t'.start = t.start)
    (hm : ∀ n, (t'.InUse n ∧ t'.up n = 0 ∧ n ≠ d') ↔ (t.InUse n ∧ t.up n = 0 ∧ n ≠ d))
    (hr : ∀ n, t.InUse n → t.up n = 0 → n ≠ d → t'.next n = t.next n ∧ t'.prev n = t.prev n ∧
      (t' n).begin = (t n).begin ∧
      (t' n).end_ = (t n).end_) : t'.TopLinks d' := by
  rcases h with ⟨h0, hz⟩ | ⟨h0, l, hl⟩
  · refine .inl ⟨hs.trans h0, fun n h1 h2 h3 => ?_⟩
    obtain ⟨h1, h2, h3⟩ := (hm n).mp ⟨h1, h2, h3⟩
    obtain ⟨hn, hp, -⟩ := hr n h1 h2 h3
    rw [hn, hp]
    exact hz n h1 h2 h3
  · refine .inr ⟨hs ▸ h0, l, hl.transport hm fun n hn => ?_⟩
    obtain ⟨h1, h2, h3⟩ := (hl.mem_iff n).mp hn
    exact hr n h1 h2 h3

/-! ### Filling in a free record -/

/-- A free record filled in but not yet put into a list. -/
def place (t : Table) (b : Nat) (r : BigAllocation) : Table :=
  t.modify b fun old =>
    { r with firstChild := 0, nextSib := 0, prevSib := 0, parent := old.parent }

@[simp] theorem place_up (r : BigAllocation) : (t.place b r).up = t.up := by
  funext n
  simp only [up, place, modify]
  split <;> rfl

theorem place_inUse (hlo : 0 < b) (hhi : b < nbigallocs) (h1 : r.begin ≠ 0)
    (h2 : r.end_ ≠ 0) : (t.place b r).InUse n ↔ t.InUse n ∨ n = b := by
  by_cases hn : n = b
  · subst hn
    simp [InUse, place, modify, hlo, hhi, h1, h2]
  · simp [InUse, place, modify, hn]

theorem place_of_ne (hn : n ≠ b) :
    (t.place b r) n = t n := if_neg hn

theorem place_self : (t.place b r) b
    = { r with firstChild := 0, nextSib := 0, prevSib := 0, parent := t.up b } := if_pos rfl

/-- The child lists of other records do not notice. -/
theorem ChildList.place (hl : t.ChildList q l) (h : t.Links 0) (hb : ¬ t.InUse b) (hlo : 0 < b)
    (hhi : b < nbigallocs) (h1 : r.begin ≠ 0) (h2 : r.end_ ≠ 0) (hq : q ≠ 0)
    (hqb : q ≠ b) : (t.place b r).ChildList q l := by
  refine hl.transport ?_ (fun x hx => ?_) fun c => ?_
  · simp [first, place_of_ne hqb]
  · have hxb : x ≠ b := fun hc => hb (hc ▸ ((hl.mem_iff x).mp hx).1)
    simp [next, prev, place_of_ne hxb, and_self]
  · rw [place_inUse hlo hhi h1 h2, place_up]
    constructor
    · rintro ⟨hc | rfl, hc'⟩
      · exact ⟨hc, hc'⟩
      · exact absurd (hc'.symm.trans (h.free c hb)) hq
    · rintro ⟨hc, hc'⟩
      exact ⟨.inl hc, hc'⟩

theorem Links.place (h : t.Links 0) (hb : ¬ t.InUse b) (hlo : 0 < b) (hhi : b < nbigallocs)
    (h1 : r.begin ≠ 0) (h2 : r.end_ ≠ 0) : (t.place b r).Links b := by
  have hin : ∀ n, (t.place b r).InUse n ↔ t.InUse n ∨ n = b := fun n => place_inUse hlo hhi h1 h2
  have hupb : t.up b = 0 := h.free b hb
  have hne : ∀ {n}, t.InUse n → n ≠ b := fun hn hc => hb (hc ▸ hn)
  refine ⟨?_, fun n hn => ?_, ?_, fun n hn hu => ?_, fun n hn => ?_, fun p hp => ?_, ?_⟩
  · rw [place_of_ne hlo.ne]
    exact h.null
  · rw [place_up]
    exact h.free n fun hc => hn ((hin n).mpr (.inl hc))
  · rw [place_up]
    exact hupb
  · rw [place_up] at hu ⊢
    exact (hin _).mpr (.inl (h.up_inUse n (h.inUse_of_up hu) hu))
  · rw [place_up]
    rcases (hin n).mp hn with hn | rfl
    · exact h.rooted n hn
    · exact ⟨1, hupb⟩
  · rcases (hin p).mp hp with hp | rfl
    · obtain ⟨l, hl⟩ := h.kids p hp
      exact ⟨l, hl.place h hb hlo hhi h1 h2 hp.ne_zero (hne hp)⟩
    · -- The new record has no children: whoever names it as parent would make it in use.
      refine ⟨[], ?_, List.nodup_nil, fun c => ?_⟩
      · simp [first, Table.place, modify]
      · rw [place_up]
        simp only [List.not_mem_nil, false_iff, not_and]
        intro _ hc
        exact hb (h.up_eq_inUse hc hlo.ne').2
  · refine h.tops.transport rfl (fun n => ?_) fun n hn hu _ => ?_
    · rw [hin, place_up]
      constructor
      · rintro ⟨hn | rfl, hu, hnb⟩
        · exact ⟨hn, hu, hn.ne_zero⟩
        · exact absurd rfl hnb
      · rintro ⟨hn, hu, -⟩
        exact ⟨.inl hn, hu, hne hn⟩
    · simp [next, prev, place_of_ne (hne hn), and_self]

/-! ### Linking and unlinking a child -/

theorem Links.up_first (h : t.Links d) (hp : t.InUse p) {x : Nat} (hx : x = t.first p ∧ x ≠ 0) :
    t.up x = p := by
  obtain ⟨rfl, h0⟩ := hx
  obtain ⟨lp, hlp⟩ := h.kids p hp
  have hlinked := hlp.linked
  cases lp with
  | nil => exact absurd hlinked h0
  | cons a l => exact ((hlp.mem_iff _).mp (hlinked.1 ▸ List.mem_cons_self)).2

theorem ChildList.addChild (h : t.Links b) (hp : t.InUse p) (hbp : b ≠ p) (hq : q ≠ 0) (hqp : q ≠ p)
    (hl : t.ChildList q l) : (t.addChild b p).ChildList q l := by
  have hupb : t.up b = 0 := h.detached
  rw [addChild_eq hbp]
  refine hl.transport (by simp [hqp]) (fun x hx => ?_) fun c => ?_
  · obtain ⟨-, hux⟩ := (hl.mem_iff x).mp hx
    have h1 : x ≠ b := by
      rintro rfl
      exact hq (hux.symm.trans hupb)
    have h2 : ¬ (x = t.first p ∧ x ≠ 0) := fun hc => hqp (hux.symm.trans (h.up_first hp hc))
    simp [relinked_next, relinked_prev, if_neg h1, if_neg h2, and_self]
  · simp only [relinked_inUse, relinked_up]
    by_cases hcb : c = b
    · subst hcb
      simp only [if_true, hupb]
      exact ⟨fun hc => absurd hc.2.symm hqp, fun hc => absurd hc.2.symm hq⟩
    · simp [if_neg hcb]

/-- The child list of the new parent begins with the new child. -/
theorem ChildList.addChild_parent (h : t.Links b) (hb : t.InUse b) (hp : t.InUse p)
    (hprev : t.prev b = 0) (hbp : b ≠ p) (hl : t.ChildList p l) :
    (t.addChild b p).ChildList p (b :: l) := by
  have hupb : t.up b = 0 := h.detached
  have hbl : b ∉ l := fun hc => hp.ne_zero (((hl.mem_iff b).mp hc).2.symm.trans hupb)
  rw [addChild_eq hbp]
  refine ⟨?_, List.nodup_cons.mpr ⟨hbl, hl.nodup⟩, fun c => ?_⟩
  · have hins := Dll.Linked.insert (a := b) (p := 0) (q := t.first p) [] l
      (fun n => if n = b then t.first p else t.next n)
      (fun n => if n = t.first p ∧ n ≠ 0 then b else t.prev n)
      hl.linked hl.nodup (fun hc => hl.linked.ne_null hc rfl) hb.ne_zero rfl ?_ (if_pos rfl) ?_ ?_ ?_
    · simpa using hins
    · have hlinked := hl.linked
      cases l with
      | nil => exact hlinked
      | cons a l => exact hlinked.1
    · show (if b = t.first p ∧ b ≠ 0 then b else t.prev b) = 0
      rw [if_neg, hprev]
      intro hc
      exact hp.ne_zero ((h.up_first hp hc).symm.trans hupb)
    · intro x hx
      have h1 : x ≠ b := fun hc => hbl (hc ▸ hx)
      have h2 : x ≠ 0 := hl.linked.ne_null hx
      simp [h1, h2]
    · intro x hx
      have h2 : x ≠ 0 := hl.linked.ne_null hx
      simp [h2]
  · simp only [List.mem_cons, hl.mem_iff, relinked_inUse, relinked_up]
    constructor
    · rintro (rfl | ⟨hc, hu⟩)
      · exact ⟨hb, if_pos rfl⟩
      · refine ⟨hc, ?_⟩
        rw [if_neg, hu]
        rintro rfl
        exact hp.ne_zero (hu.symm.trans hupb)
    · rintro ⟨hc, hu⟩
      split at hu
      · rename_i heq
        exact .inl heq
      · exact .inr ⟨hc, hu⟩

theorem Links.addChild (h : t.Links b) (hb : t.InUse b) (hp : t.InUse p) (hprev : t.prev b = 0)
    (hacyc : ¬ Below t.up p b) : (t.addChild b p).Links 0 := by
  have hbp : b ≠ p := fun hc => hacyc (hc ▸ Below.refl t.up b)
  rw [addChild_eq hbp]
  refine ⟨?_, fun n hn => ?_, ?_, fun n hn hu => ?_, fun n hn => ?_, fun q hq => ?_, ?_⟩
  · have h0 := h.null
    have h1 := hb.ne_zero
    have h2 := hp.ne_zero
    ext <;> simp [relinked, h0, first, next, prev, up, Ne.symm h1, Ne.symm h2]
  · have : n ≠ b := fun hc => hn (hc ▸ hb)
    simpa [this] using h.free n hn
  · simpa [Ne.symm hb.ne_zero] using h.up_zero
  · simp only [relinked_up, relinked_inUse] at hn hu ⊢
    split at hu
    · rename_i heq
      rw [if_pos heq]
      exact hp
    · rename_i hnb
      rw [if_neg hnb]
      exact h.up_inUse n hn hu
  · exact rooted_update t.up (p := p) (fun x hx => if_neg hx) (if_pos rfl) (h.rooted p hp)
      hacyc (h.rooted n hn)
  · obtain ⟨l, hl⟩ := h.kids q hq
    rw [← addChild_eq hbp]
    by_cases hqp : q = p
    · subst hqp
      exact ⟨b :: l, hl.addChild_parent h hb hp hprev hbp⟩
    · exact ⟨l, hl.addChild h hp hbp (InUse.ne_zero hq) hqp⟩
  · refine h.tops.transport rfl (fun n => ?_) fun n hn hu hnb => ?_
    · simp only [relinked_inUse, relinked_up]
      by_cases hnb : n = b
      · subst hnb
        simp [hp.ne_zero]
      · simp only [if_neg hnb]
        constructor
        · rintro ⟨h1, h2, -⟩
          exact ⟨h1, h2, hnb⟩
        · rintro ⟨h1, h2, -⟩
          exact ⟨h1, h2, h1.ne_zero⟩
    · have h2 : ¬ (n = t.first p ∧ n ≠ 0) := fun hc =>
        hp.ne_zero ((h.up_first hp hc).symm.trans hu)
      simp [relinked_next, relinked_prev, if_neg hnb, if_neg h2, relinked_begin, relinked_end,
        and_self]

/-- The table after a child has been taken out of its list. -/
def unlinked (t : Table) (c : Nat) : Table := t.relinked
  (fun n => if n = c then 0 else t.up n)
  (fun n => if n = t.up c ∧ t.first n = c then t.next c else t.first n)
  (fun n => if n = c then 0 else if n = t.prev c ∧ n ≠ 0 then t.next c else t.next n)
  (fun n => if n = c then 0 else if n = t.next c ∧ n ≠ 0 then t.prev c else t.prev n)

theorem sibling_mem {h : Nat} (hl : Linked t.next t.prev 0 0 h l) (hc : c ∈ l) :
    (t.prev c ≠ 0 → t.prev c ∈ l) ∧ (t.next c ≠ 0 → t.next c ∈ l) := by
  obtain ⟨l1, l2, rfl⟩ := List.append_of_mem hc
  constructor
  · intro h0
    rw [hl.prev_eq] at h0 ⊢
    cases hlast : l1.getLast? with
    | none => simp [hlast] at h0
    | some x => exact List.mem_append_left _ (List.mem_of_getLast? hlast)
  · intro h0
    rw [hl.next_eq] at h0 ⊢
    cases l2 with
    | nil => exact absurd rfl h0
    | cons x l2 => simp

/-- Taking out a child takes it out of its own list and leaves the others alone. -/
theorem ChildList.unlinked (h : t.Links d) (hc : t.up c ≠ 0) (hq : q ≠ 0)
    (hl : t.ChildList q l) : (t.unlinked c).ChildList q (l.erase c) := by
  obtain ⟨hcuse, hpuse⟩ := h.up_eq_inUse (c := c) rfl hc
  obtain ⟨lp, hlp⟩ := h.kids _ hpuse
  have hclp : c ∈ lp := (hlp.mem_iff c).mpr ⟨hcuse, rfl⟩
  obtain ⟨hsp, hsn⟩ := sibling_mem hlp.linked hclp
  have hmem : ∀ x, x ∈ l.erase c ↔ (t.unlinked c).InUse x ∧ (t.unlinked c).up x = q := by
    intro x
    rw [hl.nodup.mem_erase_iff, hl.mem_iff]
    simp only [Table.unlinked, relinked_inUse, relinked_up]
    by_cases hxc : x = c
    · simp [hxc, Ne.symm hq]
    · simp [hxc]
  refine ⟨?_, hl.nodup.erase c, hmem⟩
  by_cases hcl : c ∈ l
  · have hqc : t.up c = q := ((hl.mem_iff c).mp hcl).2
    obtain ⟨l1, l2, rfl⟩ := List.append_of_mem hcl
    have hnd := hl.nodup
    obtain ⟨h1, h2⟩ : c ∉ l1 ∧ c ∉ l2 := by
      simpa using (List.nodup_cons.mp (List.nodup_middle.mp hnd)).1
    rw [List.erase_append_right _ h1, List.erase_cons_head]
    have hne : ∀ x ∈ l1 ++ l2, x ≠ c ∧ x ≠ 0 := by
      intro x hx
      refine ⟨?_, hl.linked.ne_null (by simp only [List.mem_append, List.mem_cons] at hx ⊢; tauto)⟩
      rintro rfl
      simp only [List.mem_append] at hx
      exact hx.elim h1 h2
    have hrem := hl.linked.remove (t.unlinked c).next (t.unlinked c).prev hnd
      (fun h0 => hl.linked.ne_null h0 rfl) (fun x hx => ?_) fun x hx => ?_
    · have hf : (t.unlinked c).first q = if t.first q = c then t.next c else t.first q := by
        simp [Table.unlinked, hqc]
      rw [hf]
      exact hrem
    · simp [Table.unlinked, hne x hx]
    · simp [Table.unlinked, hne x hx]
  · have hqc : t.up c ≠ q := fun he => hcl ((hl.mem_iff c).mpr ⟨hcuse, he⟩)
    rw [List.erase_of_not_mem hcl]
    have hf : (t.unlinked c).first q = t.first q := by
      simp [Table.unlinked, Ne.symm hqc]
    rw [hf]
    -- A neighbour of `c` is a child of another record, so no node of this list is one.
    have hout : ∀ x ∈ l, x ≠ c ∧ ¬ (x = t.prev c ∧ x ≠ 0) ∧ ¬ (x = t.next c ∧ x ≠ 0) := by
      intro x hx
      have hxq := ((hl.mem_iff x).mp hx).2
      refine ⟨fun he => hcl (he ▸ hx), fun he => ?_, fun he => ?_⟩
      · exact hqc ((((hlp.mem_iff _).mp (he.1 ▸ hsp (he.1 ▸ he.2))).2.symm.trans hxq))
      · exact hqc ((((hlp.mem_iff _).mp (he.1 ▸ hsn (he.1 ▸ he.2))).2.symm.trans hxq))
    refine hl.linked.congr (fun x hx => ?_) fun x hx => ?_
    · obtain ⟨h1, h2, -⟩ := hout x hx
      simp [Table.unlinked, relinked_next, if_neg h1, if_neg h2]
    · obtain ⟨h1, -, h3⟩ := hout x hx
      simp [Table.unlinked, relinked_prev, if_neg h1, if_neg h3]

theorem Links.unlinkChild (h : t.Links 0) (hc : t.up c ≠ 0) :
    t.unlinkChild c = some (t.unlinked c) ∧ (t.unlinked c).Links c := by
  obtain ⟨hcuse, hpuse⟩ := h.up_eq_inUse (c := c) rfl hc
  obtain ⟨lp, hlp⟩ := h.kids _ hpuse
  have hclp : c ∈ lp := (hlp.mem_iff c).mpr ⟨hcuse, rfl⟩
  obtain ⟨hsp, hsn⟩ := sibling_mem hlp.linked hclp
  refine ⟨unlinkChild_eq hc, ?_⟩
  refine ⟨?_, fun n hn => ?_, ?_, fun n hn hu => ?_, fun n hn => ?_, fun q hq => ?_, ?_⟩
  · have h0 := h.null
    have h1 := hcuse.ne_zero
    ext <;> simp [unlinked, relinked, h0, first, next, prev, up, Ne.symm h1]
  · have : n ≠ c := fun he => hn (he ▸ hcuse)
    simpa [unlinked, this] using h.free n hn
  · simp [unlinked]
  · simp only [unlinked, relinked_up, relinked_inUse] at hn hu ⊢
    split at hu
    · exact absurd rfl hu
    · rename_i hnc
      rw [if_neg hnc]
      exact h.up_inUse n hn hu
  · exact rooted_update t.up (p := 0) (fun x hx => if_neg hx) (if_pos rfl) ⟨0, rfl⟩
      (fun hb => hcuse.ne_zero (eq_null_of_below h.up_zero hb)) (h.rooted n hn)
  · obtain ⟨l, hl⟩ := h.kids q hq
    exact ⟨_, hl.unlinked h hc (InUse.ne_zero hq)⟩
  · refine h.tops.transport rfl (fun n => ?_) fun n hn hu _ => ?_
    · simp only [unlinked, relinked_inUse, relinked_up]
      by_cases hnc : n = c
      · subst hnc
        simp [hc]
      · simp only [if_neg hnc]
        constructor
        · rintro ⟨h1, h2, -⟩
          exact ⟨h1, h2, h1.ne_zero⟩
        · rintro ⟨h1, h2, -⟩
          exact ⟨h1, h2, hnc⟩
    · have h1 : n ≠ c := by
        rintro rfl
        exact hc hu
      have h2 : ¬ (n = t.prev c ∧ n ≠ 0) := fun he =>
        hc (((hlp.mem_iff _).mp (he.1 ▸ hsp (he.1 ▸ he.2))).2.symm.trans hu)
      have h3 : ¬ (n = t.next c ∧ n ≠ 0) := fun he =>
        hc (((hlp.mem_iff _).mp (he.1 ▸ hsn (he.1 ▸ he.2))).2.symm.trans hu)
      simp [unlinked, relinked_next, relinked_prev, if_neg h1, if_neg h2, if_neg h3,
        relinked_begin, relinked_end, and_self]

/-! ### Giving a record back -/

theorem clear_inUse : (t.clearBigallocNomemset b).InUse n ↔ t.InUse n ∧ n ≠ b := by
  by_cases hn : n = b
  · simp [InUse, clearBigallocNomemset, hn]
  · simp [InUse, clearBigallocNomemset, hn]

@[simp] theorem clear_up : (t.clearBigallocNomemset b).up = t.up := by
  funext n
  simp only [up, clearBigallocNomemset, modify_bigAllocations]
  split <;> rfl

@[simp] theorem clear_first : (t.clearBigallocNomemset b).first = t.first := by
  funext n
  simp only [first, clearBigallocNomemset, modify_bigAllocations]
  split <;> rfl

@[simp] theorem clear_next : (t.clearBigallocNomemset b).next = t.next := by
  funext n
  simp only [next, clearBigallocNomemset, modify_bigAllocations]
  split <;> rfl

@[simp] theorem clear_prev : (t.clearBigallocNomemset b).prev = t.prev := by
  funext n
  simp only [prev, clearBigallocNomemset, modify_bigAllocations]
  split <;> rfl

theorem ChildList.clear (hup : t.up b = 0) (hp : p ≠ 0) (hl : t.ChildList p l) :
    (t.clearBigallocNomemset b).ChildList p l := by
  refine hl.transport (by simp) (fun x _ => by simp) fun c => ?_
  rw [clear_inUse, clear_up]
  constructor
  · rintro ⟨⟨h1, -⟩, h2⟩
    exact ⟨h1, h2⟩
  · rintro ⟨h1, h2⟩
    refine ⟨⟨h1, ?_⟩, h2⟩
    rintro rfl
    exact hp (h2.symm.trans hup)

theorem Links.clear (h : t.Links b) (hb : b ≠ 0) (hno : ∀ c, t.up c ≠ b) :
    (t.clearBigallocNomemset b).Links 0 := by
  refine ⟨?_, fun n hn => ?_, ?_, fun n hn hu => ?_, fun n hn => ?_, fun p hp => ?_, ?_⟩
  · simp only [clearBigallocNomemset, modify_bigAllocations, if_neg (Ne.symm hb)]
    exact h.null
  · rw [clear_up]
    rw [clear_inUse, not_and_or, not_not] at hn
    rcases hn with hn | rfl
    · exact h.free n hn
    · exact h.detached
  · simpa using h.up_zero
  · rw [clear_up] at hu ⊢
    exact clear_inUse.mpr ⟨h.up_inUse n (clear_inUse.mp hn).1 hu, hno n⟩
  · simpa using h.rooted n (clear_inUse.mp hn).1
  · obtain ⟨l, hl⟩ := h.kids p (clear_inUse.mp hp).1
    exact ⟨l, hl.clear h.detached hp.ne_zero⟩
  · refine h.tops.transport rfl (fun n => ?_) fun n _ _ hnb => ?_
    · rw [clear_inUse, clear_up]
      constructor
      · rintro ⟨⟨h1, h2⟩, h3, -⟩
        exact ⟨h1, h3, h2⟩
      · rintro ⟨h1, h2, h3⟩
        exact ⟨⟨h1, h3⟩, h2, h1.ne_zero⟩
    · refine ⟨by rw [clear_next], by rw [clear_prev], ?_, ?_⟩ <;>
        simp [clearBigallocNomemset, hnb]

end Liballocs.Table
