/-
The list of top-level records.

The searches start at `START`, somewhere in the middle, go away from it in one direction and, when that
stops at `START` itself, in the other.  On a sorted list both end up at the boundary between the
records that qualify and those that do not.
-/
import Liballocs.Proofs.Relink

namespace Liballocs.Table

open Dll Forest

variable {t : Table} {b d n addr p q x : Nat} {l l₁ l₂ : List Nat} {N V : Nat → Nat}

/-! ### Searching -/

theorem searchUntil_append (p : Nat → Bool) (l₁ l₂ : List Nat) (h1 : ∀ a ∈ l₁, p a = false)
    (h2 : ∀ a ∈ l₂, p a = true) (prev : Nat) :
    searchUntil p prev (l₁ ++ l₂) = (l₂.head?.getD 0, l₁.getLast?.getD prev) := by
  induction l₁ generalizing prev with
  | nil =>
    cases l₂ with
    | nil => rfl
    | cons a l => simp [searchUntil, h2 a (.head _)]
  | cons a l ih =>
    rw [List.cons_append, searchUntil, if_neg (by simp [h1 a (.head _)]),
      ih (fun x hx => h1 x (.tail _ hx)), List.getLast?_cons]
    rfl

theorem TopList.length_le (h : t.TopList d l) : l.length ≤ nbigallocs :=
  (length_lt_nbigallocs h.nodup fun n hn => ((h.mem_iff n).mp hn).1).le

theorem TopList.nextwards_eq (h : t.TopList d (l₁ ++ t.start :: l₂)) :
    t.nextwards = some (t.start :: l₂) := by
  obtain ⟨hd, hl⟩ := h.linked
  have hlen := h.length_le
  simp only [List.length_append, List.length_cons] at hlen
  exact hl.drop.walk_eq (by simp only [List.length_cons]; omega)

theorem TopList.prevwards_eq (h : t.TopList d (l₁ ++ t.start :: l₂)) :
    t.prevwards = some (t.start :: l₁.reverse) := by
  obtain ⟨hd, hl⟩ := h.linked
  have hlen := h.length_le
  simp only [List.length_append, List.length_cons] at hlen
  exact hl.reverse.walk_eq (by simp only [List.length_cons, List.length_reverse]; omega)

section

variable (h : t.TopList d (l₁ ++ l₂)) (hmem : t.start ∈ l₁ ++ l₂)

include h hmem

theorem TopList.findToplevelLowestGe_eq (h1 : ∀ a ∈ l₁, (t a).end_ - 1 < addr)
    (h2 : ∀ a ∈ l₂, addr ≤ (t a).end_ - 1) :
    t.findToplevelLowestGe addr = some (l₂.head?.getD 0) := by
  have hnz := ((h.mem_iff t.start).mp hmem).1.ne_zero
  rcases List.mem_append.mp hmem with hs | hs
  · -- START does not reach the address, so the forward search decides.
    obtain ⟨m, k, rfl⟩ := List.append_of_mem hs
    have h' : t.TopList d (m ++ t.start :: (k ++ l₂)) := by simpa using h
    have hsearch := searchUntil_append (fun cur => decide ((t cur).end_ - 1 ≥ addr))
      (t.start :: k) l₂ (fun a ha => by simpa using h1 a (List.mem_append_right _ ha))
      (fun a ha => by simpa using h2 a ha) 0
    simp only [findToplevelLowestGe, h'.nextwards_eq, some_bind, ← List.cons_append, hsearch]
    cases l₂ with
    | nil => simp
    | cons a l =>
      have hne : a ≠ 0 := ((h.mem_iff a).mp (by simp)).1.ne_zero
      have hns : a ≠ t.start := by
        rintro rfl
        have := h1 t.start hs
        have := h2 t.start (.head _)
        omega
      simp [hne, hns]
  · obtain ⟨k, m, rfl⟩ := List.append_of_mem hs
    have h' : t.TopList d ((l₁ ++ k) ++ t.start :: m) := by simpa using h
    have hstart := h2 t.start (by simp)
    have hsearch := searchUntil_append
      (fun cur => !decide (addr ≤ (t cur).end_ - 1)) k.reverse l₁.reverse
      (fun a ha => by
        simpa using h2 a (List.mem_append_left _ (List.mem_reverse.mp ha)))
      (fun a ha => by simpa using h1 a (by simpa using ha)) t.start
    simp only [findToplevelLowestGe, h'.nextwards_eq, h'.prevwards_eq, some_bind, searchUntil,
      ge_iff_le, hstart, decide_true, if_true, ne_eq, not_true,
      and_false, if_false, hnz, List.reverse_append, Bool.not_true, Bool.false_eq_true, hsearch]
    cases k with
    | nil => rfl
    | cons a k => simp

theorem TopList.findToplevelHighestLt_eq (h1 : ∀ a ∈ l₁, (t a).begin < addr)
    (h2 : ∀ a ∈ l₂, addr ≤ (t a).begin) :
    t.findToplevelHighestLt addr = some (l₁.getLast?.getD 0) := by
  have hnz := ((h.mem_iff t.start).mp hmem).1.ne_zero
  rcases List.mem_append.mp hmem with hs | hs
  · obtain ⟨m, k, rfl⟩ := List.append_of_mem hs
    have h' : t.TopList d (m ++ t.start :: (k ++ l₂)) := by simpa using h
    have hstart := h1 t.start hs
    have hsearch := searchUntil_append (fun cur => !decide ((t cur).begin < addr)) k l₂
      (fun a ha => by simpa using h1 a (by simp [ha])) (fun a ha => by simpa using h2 a ha) t.start
    simp only [findToplevelHighestLt, h'.nextwards_eq, h'.prevwards_eq, some_bind, searchUntil,
      hstart, decide_true, if_true, ne_eq, not_true,
      and_false, if_false, hnz, Bool.not_true, Bool.false_eq_true, hsearch]
    simp [List.getLast?_append, List.getLast?_cons]
  · -- START begins too high, so the backward search decides.
    obtain ⟨k, m, rfl⟩ := List.append_of_mem hs
    have h' : t.TopList d ((l₁ ++ k) ++ t.start :: m) := by simpa using h
    have hsearch := searchUntil_append (fun cur => decide ((t cur).begin < addr))
      (t.start :: k.reverse) l₁.reverse
      (fun a ha => by
        simp only [List.mem_cons, List.mem_reverse] at ha
        have hmem : a ∈ k ++ t.start :: m := by
          rcases ha with rfl | ha
          · simp
          · exact List.mem_append_left _ ha
        simpa using h2 a hmem)
      (fun a ha => by simpa using h1 a (by simpa using ha)) 0
    simp only [findToplevelHighestLt, h'.prevwards_eq, some_bind,
      List.reverse_append, ← List.cons_append, hsearch, List.head?_reverse]
    cases hlast : l₁.getLast? with
    | none => simp
    | some a =>
      have ha := List.mem_of_getLast? hlast
      have hne : a ≠ 0 := ((h.mem_iff a).mp (by simp [ha])).1.ne_zero
      have hns : a ≠ t.start := by
        rintro rfl
        have := h1 t.start ha
        have := h2 t.start hs
        omega
      simp [hne, hns]

end

/-! ### Inserting -/

/-- The place for a record in the top-level list is free: every other one comes before it or after it.
-/
def Fits (t : Table) (b : Nat) : Prop :=
  ∀ n, t.InUse n → t.up n = 0 → n ≠ b →
    ((t.bigAllocations n).begin < (t.bigAllocations b).begin
        ∧ (t.bigAllocations n).end_ ≤ (t.bigAllocations b).end_)
      ∨ ((t.bigAllocations b).begin < (t.bigAllocations n).begin
        ∧ (t.bigAllocations b).end_ < (t.bigAllocations n).end_)

theorem exists_split {R : Nat → Nat → Prop} {P Q : Nat → Prop} (hl : l.Pairwise R)
    (hPQ : ∀ a ∈ l, P a ∨ Q a) (hRQ : ∀ a c, Q a → R a c → ¬ P c) :
    ∃ l₁ l₂, l = l₁ ++ l₂ ∧ (∀ a ∈ l₁, P a) ∧ ∀ a ∈ l₂, Q a := by
  induction l with
  | nil => exact ⟨[], [], rfl, by simp, by simp⟩
  | cons a l ih =>
    obtain ⟨ha, hl⟩ := List.pairwise_cons.mp hl
    rcases hPQ a (.head _) with hP | hQ
    · obtain ⟨l₁, l₂, rfl, h1, h2⟩ := ih hl fun x hx => hPQ x (.tail _ hx)
      exact ⟨a :: l₁, l₂, rfl, by simpa [hP] using h1, h2⟩
    · refine ⟨[], a :: l, rfl, by simp, fun x hx => ?_⟩
      rcases List.mem_cons.mp hx with rfl | hx
      · exact hQ
      · exact (hPQ x (.tail _ hx)).resolve_left (hRQ a x hQ (ha x hx))

/-- A record is put between two top-level ones. -/
def insertedTop (t : Table) (b p q : Nat) : Table := t.relinked t.up t.first
  (fun n => if n = p ∧ n ≠ 0 then b else if n = b then q else t.next n)
  (fun n => if n = q ∧ n ≠ 0 then b else if n = b then p else t.prev n)

theorem addToplevel_eq (hq : t.findToplevelLowestGe (t b).end_ = some q)
    (hp : (t.modify b fun r => { r with nextSib := q }).toplevelPrev b q = some p) :
    t.addToplevel b = some (t.insertedTop b p q) := by
  simp only [addToplevel, hq, hp, some_bind, Option.pure_def,
    Option.some.injEq, setNextSib_eq, setPrevSib_eq]
  refine eq_relinked rfl fun n => ?_
  by_cases hn : n = b <;> ext <;> simp [relinked, up, first, next, prev, hn]

theorem ChildList.relinked_top (hq : q ≠ 0) (hl : t.ChildList q l)
    (hN : ∀ n, t.up n ≠ 0 → N n = t.next n)
    (hV : ∀ n, t.up n ≠ 0 → V n = t.prev n) : (t.relinked t.up t.first N V).ChildList q l := by
  refine hl.transport rfl (fun x hx => ?_) fun c => Iff.rfl
  have hx' : t.up x ≠ 0 := ((hl.mem_iff x).mp hx).2 ▸ hq
  exact ⟨hN x hx', hV x hx'⟩

/-- Edits of top-level sibling links keep the forest, if they keep the top-level list. -/
theorem Links.relinked_top {d d' : Nat} (h : t.Links d) (hd : t.up d' = 0)
    (hN : ∀ n, t.up n ≠ 0 ∨ n = 0 → N n = t.next n) (hV : ∀ n, t.up n ≠ 0 ∨ n = 0 → V n = t.prev n)
    (htops : (t.relinked t.up t.first N V).TopLinks d') :
    (t.relinked t.up t.first N V).Links d' := by
  refine ⟨?_, h.free, hd, h.up_inUse, h.rooted, fun q hq => ?_, htops⟩
  · have h0 := h.null
    have h1 : N 0 = 0 := by rw [hN 0 (.inr rfl), next, h0]
    have h2 : V 0 = 0 := by rw [hV 0 (.inr rfl), prev, h0]
    ext <;> simp [relinked, h0, h1, h2, up, first]
  · obtain ⟨l, hl⟩ := h.kids q hq
    exact ⟨l, hl.relinked_top (InUse.ne_zero hq) (fun n hn => hN n (.inl hn))
      fun n hn => hV n (.inl hn)⟩

theorem findToplevel_of_start_zero (h0 : t.start = 0) (addr : Nat) :
    t.findToplevelLowestGe addr = some 0 ∧ t.findToplevelHighestLt addr = some 0 := by
  have hn : t.nextwards = some [] := by simp [nextwards, h0, walk, nbigallocs]
  have hp : t.prevwards = some [] := by simp [prevwards, h0, walk, nbigallocs]
  simp [findToplevelLowestGe, findToplevelHighestLt, hn, hp, searchUntil]

/-- Whatever records `b` is put between, the links of records with a parent stay. -/
theorem insertedTop_inner (hb : t.InUse b) (hup : t.up b = 0) (hp : p ≠ 0 → t.up p = 0)
    (hq : q ≠ 0 → t.up q = 0) :
    (∀ n, t.up n ≠ 0 ∨ n = 0 → (t.insertedTop b p q).next n = t.next n)
      ∧ ∀ n, t.up n ≠ 0 ∨ n = 0 → (t.insertedTop b p q).prev n = t.prev n := by
  have hedge : ∀ {x n}, (x ≠ 0 → t.up x = 0) → t.up n ≠ 0 ∨ n = 0 → ¬ (n = x ∧ n ≠ 0) := by
    rintro x n hx (hn | hn) ⟨rfl, hc⟩
    · exact hn (hx hc)
    · exact hc hn
  have hself : ∀ {n}, t.up n ≠ 0 ∨ n = 0 → n ≠ b := by
    rintro n (hn | hn) rfl
    · exact hn hup
    · exact hb.ne_zero hn
  constructor <;> intro n hn
  · exact (if_neg (hedge hp hn)).trans (if_neg (hself hn))
  · exact (if_neg (hedge hq hn)).trans (if_neg (hself hn))

theorem mem_of_getLast?_getD (h : l.getLast?.getD 0 = x) (hx : x ≠ 0) : x ∈ l := by
  subst h
  cases hlast : l.getLast? with
  | none => simp [hlast] at hx
  | some y => exact List.mem_of_getLast? hlast

theorem mem_of_head?_getD (h : l.head?.getD 0 = x) (hx : x ≠ 0) : x ∈ l := by
  subst h
  cases l with
  | nil => exact absurd rfl hx
  | cons y l => exact (.head _)

theorem TopList.insert (hl : t.TopList b (l₁ ++ l₂)) (hb : t.InUse b) (hup : t.up b = 0)
    (h₁ : ∀ a ∈ l₁, (t a).begin < (t b).begin ∧ (t a).end_ ≤ (t b).end_)
    (h₂ : ∀ a ∈ l₂, (t b).begin < (t a).begin ∧ (t b).end_ < (t a).end_) :
    (t.insertedTop b (l₁.getLast?.getD 0) (l₂.head?.getD 0)).TopList 0 (l₁ ++ b :: l₂) := by
  have hmem : ∀ n ∈ l₁ ++ l₂, n ≠ 0 ∧ n ≠ b := fun n hn => by
    obtain ⟨h1, -, h3⟩ := (hl.mem_iff n).mp hn
    exact ⟨h1.ne_zero, h3⟩
  have hbl : b ∉ l₁ ++ l₂ := fun hc => (hmem b hc).2 rfl
  obtain ⟨hd, hlinked⟩ := hl.linked
  refine ⟨⟨_, hlinked.insert _ _ _ _ hl.nodup (fun hc => hlinked.ne_null hc rfl) hb.ne_zero rfl rfl
    ?_ ?_ (fun x hx => ?_) fun x hx => ?_⟩, ?_, fun n => ?_, ?_⟩
  · exact (if_neg fun hc => hbl (List.mem_append_left _ (mem_of_getLast?_getD hc.1.symm hc.2))).trans
      (if_pos rfl)
  · exact (if_neg fun hc => hbl (List.mem_append_right _ (mem_of_head?_getD hc.1.symm hc.2))).trans
      (if_pos rfl)
  · obtain ⟨h1, h2⟩ := hmem x hx
    simp [insertedTop, h1, h2]
  · obtain ⟨h1, h2⟩ := hmem x hx
    simp [insertedTop, h1, h2]
  · rw [List.nodup_middle]
    exact List.nodup_cons.mpr ⟨hbl, hl.nodup⟩
  · change _ ↔ t.InUse n ∧ t.up n = 0 ∧ n ≠ 0
    rw [List.perm_middle.mem_iff, List.mem_cons, hl.mem_iff]
    constructor
    · rintro (rfl | ⟨h1, h2, -⟩)
      · exact ⟨hb, hup, hb.ne_zero⟩
      · exact ⟨h1, h2, h1.ne_zero⟩
    · rintro ⟨h1, h2, -⟩
      by_cases hnb : n = b
      · exact .inl hnb
      · exact .inr ⟨h1, h2, hnb⟩
  · obtain ⟨s1, s2, s3⟩ := List.pairwise_append.mp hl.sorted
    refine List.pairwise_append.mpr ⟨s1, List.pairwise_cons.mpr ⟨fun a ha => ?_, s2⟩,
      fun a ha => List.forall_mem_cons.mpr ⟨h₁ a ha, s3 a ha⟩⟩
    obtain ⟨a1, a2⟩ := h₂ a ha
    exact ⟨a1, a2.le⟩

theorem TopList.addToplevel (h : t.TopList b (l₁ ++ l₂)) (hmem : t.start ∈ l₁ ++ l₂)
    (hb : t.InUse b) (h1 : ∀ a ∈ l₁, (t a).begin < (t b).begin ∧ (t a).end_ ≤ (t b).end_)
    (h2 : ∀ a ∈ l₂, (t b).begin < (t a).begin ∧ (t b).end_ < (t a).end_) :
    t.addToplevel b = some (t.insertedTop b (l₁.getLast?.getD 0) (l₂.head?.getD 0)) := by
  have hend : (t b).end_ ≠ 0 := hb.2.2.2
  refine addToplevel_eq (h.findToplevelLowestGe_eq hmem (fun a ha => ?_) fun a ha => ?_) ?_
  · have := h1 a ha
    omega
  · have := h2 a ha
    omega
  · set q := l₂.head?.getD 0 with hq
    set t' := t.modify b fun r => { r with nextSib := q } with ht'
    have hne : ∀ n ∈ l₁ ++ l₂, n ≠ b := fun n hn => ((h.mem_iff n).mp hn).2.2
    have hbig : ∀ n, (t' n).begin = (t n).begin ∧ (t' n).end_ = (t n).end_
        ∧ (t' n).parent = (t n).parent
        ∧ (t' n).prevSib = (t n).prevSib := by
      intro n
      simp only [ht', modify_bigAllocations]
      split <;> simp
    have h' : t'.TopList b (l₁ ++ l₂) := by
      refine h.transport (fun n => ?_) fun n hn => ?_
      · simp [InUse, up, hbig n]
      · refine ⟨?_, (hbig n).2.2.2, (hbig n).1, (hbig n).2.1⟩
        simp [ht', next, hne n hn]
    unfold toplevelPrev
    split
    · rename_i hq0
      rw [(hbig q).2.2.2]
      cases l₂ with
      | nil => exact absurd hq hq0
      | cons a l₂ =>
        obtain ⟨hd, hlinked⟩ := h.linked
        exact congrArg some hlinked.prev_eq
    · rename_i hq0
      have hl2 : l₂ = [] := by
        cases l₂ with
        | nil => rfl
        | cons a l₂ =>
          exact absurd (((h.mem_iff a).mp (by simp)).1.ne_zero) (by simpa [hq] using hq0)
      rw [(hbig b).1]
      refine h'.findToplevelHighestLt_eq hmem (fun a ha => ?_) (by simp [hl2])
      rw [(hbig a).1]
      exact (h1 a ha).1

theorem Links.addToplevel (h : t.Links b) (hb : t.InUse b) (hs : t.Entered b) (hfit : t.Fits b) :
    ∃ p q, t.addToplevel b = some (t.insertedTop b p q) ∧ (t.insertedTop b p q).Links 0 ∧
      ∀ r l, r ≠ 0 → t.ChildList r l → (t.insertedTop b p q).ChildList r l := by
  have hupb := h.detached
  rcases h.tops with ⟨h0, hz⟩ | ⟨h0, l, hl⟩
  · obtain ⟨hN, hV⟩ := insertedTop_inner (p := 0) (q := 0) hb hupb (fun hc => absurd rfl hc)
      fun hc => absurd rfl hc
    refine ⟨0, 0, addToplevel_eq (findToplevel_of_start_zero h0 _).1 ?_, ?_, fun r l hr hl => ?_⟩
    · simp only [toplevelPrev, ne_eq, not_true, if_false]
      exact (findToplevel_of_start_zero (t := t.modify b _) h0 _).2
    · refine h.relinked_top h.up_zero hN hV (.inl ⟨h0, fun n hn hu _ => ?_⟩)
      simp only [relinked_next, relinked_prev]
      have h1 : ¬ (n = 0 ∧ n ≠ 0) := fun hc => hc.2 hc.1
      rw [if_neg h1, if_neg h1]
      by_cases hnb : n = b
      · simp [hnb]
      · rw [if_neg hnb, if_neg hnb]
        exact hz n hn hu hnb
    · exact hl.relinked_top hr (fun n hn => hN n (.inl hn)) fun n hn => hV n (.inl hn)
  · obtain ⟨l₁, l₂, rfl, h₁, h₂⟩ := exists_split hl.sorted (fun a ha => by
        obtain ⟨h1, h2, h3⟩ := (hl.mem_iff a).mp ha
        exact hfit a h1 h2 h3)
      (fun a c ha hac hc => by omega)
    have hup : ∀ n ∈ l₁ ++ l₂, t.up n = 0 := fun n hn => ((hl.mem_iff n).mp hn).2.1
    obtain ⟨hN, hV⟩ := insertedTop_inner hb hupb
      (fun hc => hup _ (List.mem_append_left l₂ (mem_of_getLast?_getD (l := l₁) rfl hc)))
      (fun hc => hup _ (List.mem_append_right l₁ (mem_of_head?_getD (l := l₂) rfl hc)))
    exact ⟨_, _, hl.addToplevel ((hl.mem_iff _).mpr (hs h0)) hb h₁ h₂,
      h.relinked_top h.up_zero hN hV (.inr ⟨h0, l₁ ++ b :: l₂, hl.insert hb hupb h₁ h₂⟩),
      fun r l hr hl => hl.relinked_top hr (fun n hn => hN n (.inl hn)) fun n hn => hV n (.inl hn)⟩

/-! ### Removing -/

theorem unlinkToplevel_eq (t : Table) (b : Nat) :
    t.unlinkToplevel b = t.relinked t.up t.first
      (fun n => if n = t.prev b ∧ n ≠ 0 then t.next b else t.next n)
      (fun n => if n = t.next b ∧ n ≠ 0 then t.prev b else t.prev n) := by
  have hself : ((t.setNextSib (t.prev b) (t.next b)) b).nextSib = t.next b := by
    rw [setNextSib_eq]
    exact ite_self (t.next b)
  have hprev : ((t.setNextSib (t.prev b) (t.next b)) b).prevSib = t.prev b := by
    rw [setNextSib_eq]
    rfl
  show (t.setNextSib (t.prev b) (t.next b)).setPrevSib
    ((t.setNextSib (t.prev b) (t.next b)) b).nextSib
    ((t.setNextSib (t.prev b) (t.next b)) b).prevSib = _
  rw [hself, hprev, setPrevSib_eq, setNextSib_eq]
  rfl

theorem Links.unlinkToplevel (h : t.Links 0) (hb : t.InUse b) (hup : t.up b = 0) :
    (t.unlinkToplevel b).Links b ∧
      ∀ r l, r ≠ 0 → t.ChildList r l → (t.unlinkToplevel b).ChildList r l := by
  rw [unlinkToplevel_eq]
  rcases h.tops with ⟨h0, hz⟩ | ⟨h0, l, hl⟩
  · obtain ⟨hn, hp⟩ := hz b hb hup hb.ne_zero
    have h1 : ∀ n : Nat, ¬ (n = 0 ∧ n ≠ 0) := fun n hc => hc.2 hc.1
    simp only [hn, hp, if_neg (h1 _)]
    refine ⟨h.relinked_top hup (fun _ _ => rfl) (fun _ _ => rfl) (.inl ⟨h0, fun n hn hu _ => ?_⟩),
      fun r l hr hl => hl.relinked_top hr (fun _ _ => rfl) fun _ _ => rfl⟩
    exact hz n hn hu hn.ne_zero
  · obtain ⟨hd, hlinked⟩ := hl.linked
    have hbl : b ∈ l := (hl.mem_iff b).mpr ⟨hb, hup, hb.ne_zero⟩
    obtain ⟨hsp, hsn⟩ := sibling_mem hlinked hbl
    have hmem : ∀ n ∈ l, t.up n = 0 := fun n hn => ((hl.mem_iff n).mp hn).2.1
    have hN : ∀ n, t.up n ≠ 0 ∨ n = 0 →
        (if n = t.prev b ∧ n ≠ 0 then t.next b else t.next n) = t.next n := fun n hn =>
      if_neg fun ⟨he, h0⟩ => hn.elim (fun h' => h' (hmem n (he ▸ hsp (he ▸ h0)))) h0
    have hV : ∀ n, t.up n ≠ 0 ∨ n = 0 →
        (if n = t.next b ∧ n ≠ 0 then t.prev b else t.prev n) = t.prev n := fun n hn =>
      if_neg fun ⟨he, h0⟩ => hn.elim (fun h' => h' (hmem n (he ▸ hsn (he ▸ h0)))) h0
    refine ⟨h.relinked_top hup hN hV (.inr ⟨h0, ?_⟩), fun r l hr hl =>
      hl.relinked_top hr (fun n hn => hN n (.inl hn)) fun n hn => hV n (.inl hn)⟩
    obtain ⟨l₁, l₂, rfl⟩ := List.append_of_mem hbl
    have hnd := hl.nodup
    obtain ⟨h1, h2⟩ : b ∉ l₁ ∧ b ∉ l₂ := by
      simpa using (List.nodup_cons.mp (List.nodup_middle.mp hnd)).1
    have hsub : (l₁ ++ l₂).Sublist (l₁ ++ b :: l₂) :=
      List.Sublist.append_left (List.sublist_cons_self b l₂) l₁
    refine ⟨l₁ ++ l₂, ⟨_, hlinked.remove _ _ hnd (fun hc => hlinked.ne_null hc rfl) (fun x hx => ?_)
      fun x hx => ?_⟩, hnd.sublist hsub, fun n => ?_, hl.sorted.sublist hsub⟩
    · have h0 : x ≠ 0 := hlinked.ne_null (hsub.subset hx)
      simp [h0]
    · have h0 : x ≠ 0 := hlinked.ne_null (hsub.subset hx)
      simp [h0]
    · have hm := hl.mem_iff n
      simp only [List.mem_append, List.mem_cons] at hm ⊢
      constructor
      · intro hn
        obtain ⟨a1, a2, -⟩ := hm.mp (hn.imp id Or.inr)
        refine ⟨a1, a2, ?_⟩
        rintro rfl
        exact hn.elim h1 h2
      · rintro ⟨a1, a2, a3⟩
        rcases hm.mpr ⟨a1, a2, a1.ne_zero⟩ with hn | hn | hn
        · exact .inl hn
        · exact absurd hn a3
        · exact .inr hn

end Liballocs.Table
