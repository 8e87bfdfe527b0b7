/-
Doubly linked lists threaded through two maps.

The nodes are elements of a type with a null.  `Linked next prev null before h l` says that following
`next` from `h` visits exactly the nodes of `l`, and that `prev` leads back, from the head to `before`.
The rules for edits ask what the new maps say on the nodes of the list, however links are stored.
-/
import Mathlib.Data.List.Basic
import Mathlib.Data.List.Induction
import Mathlib.Data.List.Nodup
import Mathlib.Tactic.Common

namespace Dll

variable {ι : Type*} {a : ι} {l₁ l₂ : List ι}

/-- From `h`, with `before` behind it, the links visit `l` in order and end in `null`. -/
def Linked (next prev : ι → ι) (null : ι) : ι → ι → List ι → Prop
  | _, h, [] => h = null
  | before, h, a :: l => h = a ∧ a ≠ null ∧ prev a = before ∧ Linked next prev null a (next a) l

variable {next prev next' prev' : ι → ι} {null before h : ι} {l : List ι}

@[simp] theorem linked_nil : Linked next prev null before h [] ↔ h = null := Iff.rfl

@[simp] theorem linked_cons : Linked next prev null before h (a :: l)
      ↔ h = a ∧ a ≠ null ∧ prev a = before ∧ Linked next prev null a (next a) l := Iff.rfl

section

variable (hl : Linked next prev null before h l)

include hl

theorem Linked.head_eq : h = l.head?.getD null := by
  cases l with
  | nil => exact hl
  | cons a l => exact hl.1

theorem Linked.ne_null (ha : a ∈ l) : a ≠ null := by
  induction l generalizing before h with
  | nil => cases ha
  | cons b l ih =>
    obtain ⟨-, hne, -, hrest⟩ := hl
    rcases List.mem_cons.mp ha with rfl | ha
    · exact hne
    · exact ih hrest ha

theorem Linked.congr (hn : ∀ a ∈ l, next' a = next a)
    (hp : ∀ a ∈ l, prev' a = prev a) : Linked next' prev' null before h l := by
  induction l generalizing before h with
  | nil => exact hl
  | cons a l ih =>
    obtain ⟨hh, hne, hprev, hrest⟩ := hl
    refine ⟨hh, hne, (hp a (.head _)).trans hprev, ?_⟩
    rw [hn a (.head _)]
    exact ih hrest (fun b hb => hn b (.tail _ hb)) fun b hb => hp b (.tail _ hb)

end

/-! ### Walking -/

/-- Follow `next` from `h` to the end, for at most `fuel` nodes. -/
def walk [DecidableEq ι] (next : ι → ι) (null : ι) : Nat → ι → Option (List ι)
  | 0, h => if h = null then some [] else none
  | fuel + 1, h => if h = null then some [] else (walk next null fuel (next h)).map (h :: ·)

theorem Linked.walk_eq [DecidableEq ι] (hl : Linked next prev null before h l) {fuel : Nat}
    (hf : l.length ≤ fuel) : walk next null fuel h = some l := by
  induction l generalizing before h fuel with
  | nil =>
    obtain rfl := linked_nil.mp hl
    cases fuel <;> simp [walk]
  | cons a l ih =>
    obtain ⟨rfl, hne, -, hrest⟩ := hl
    cases fuel with
    | zero => simp at hf
    | succ fuel =>
      rw [walk, if_neg hne, ih hrest (by simpa using hf)]
      rfl

section

variable (hl : Linked next prev null before h (l₁ ++ a :: l₂))
include hl

theorem Linked.drop : Linked next prev null (prev a) a (a :: l₂) := by
  induction l₁ generalizing before h with
  | nil =>
    obtain ⟨-, hne, -, hrest⟩ := hl
    exact ⟨rfl, hne, rfl, hrest⟩
  | cons b l₁ ih => exact ih hl.2.2.2

theorem Linked.prev_eq : prev a = l₁.getLast?.getD before := by
  induction l₁ generalizing before h with
  | nil => exact hl.2.2.1
  | cons b l₁ ih =>
    rw [ih hl.2.2.2, List.getLast?_cons]
    cases l₁.getLast? <;> rfl

theorem Linked.next_eq : next a = l₂.head?.getD null := by
  have hrest := hl.drop.2.2.2
  cases l₂ with
  | nil => exact hrest
  | cons b l₂ => exact hrest.1

end

/-- Read backwards, the part of a list up to a node is a list as well. -/
theorem Linked.reverse (hl : Linked next prev null null h (l₁ ++ a :: l₂)) :
    Linked prev next null (next a) a (a :: l₁.reverse) := by
  induction l₁ using List.reverseRecOn generalizing a l₂ with
  | nil =>
    obtain ⟨-, hne, hprev, -⟩ := hl
    exact ⟨rfl, hne, rfl, hprev⟩
  | append_singleton l₁ b ih =>
    have hprev : prev a = b := by
      rw [hl.prev_eq, List.getLast?_concat]
      rfl
    have hne : a ≠ null := hl.ne_null (by simp)
    have hl' : Linked next prev null null h (l₁ ++ b :: (a :: l₂)) := by simpa using hl
    refine ⟨rfl, hne, rfl, ?_⟩
    rw [hprev, List.reverse_append, List.reverse_singleton, List.singleton_append]
    have hrev := ih hl'
    rw [hl'.next_eq] at hrev
    exact hrev

theorem Linked.next_eq_iff {b : ι} (hl : Linked next prev null null h l) (ha : a ∈ l)
    (hb : b ∈ l) : next a = b ↔ prev b = a := by
  constructor
  · rintro rfl
    obtain ⟨l₁, l₂, rfl⟩ := List.append_of_mem ha
    have hnext := hl.next_eq
    cases l₂ with
    | nil => exact absurd hnext (hl.ne_null hb)
    | cons c l₂ =>
      have hc : next a = c := hnext
      rw [hc]
      rw [List.append_cons] at hl
      rw [hl.prev_eq, List.getLast?_append]
      rfl
  · rintro rfl
    obtain ⟨l₁, l₂, rfl⟩ := List.append_of_mem hb
    have hprev := hl.prev_eq
    rcases List.eq_nil_or_concat l₁ with rfl | ⟨l₁, c, rfl⟩
    · exact absurd hprev (hl.ne_null ha)
    · have hc : prev b = c := by
        rw [hprev, List.concat_eq_append, List.getLast?_append]
        rfl
      rw [hc]
      rw [List.concat_eq_append, List.append_assoc] at hl
      exact hl.next_eq

/-! ### Editing -/

/-- Taking a node out: its neighbours are linked to each other. -/
theorem Linked.remove [DecidableEq ι] (next' prev' : ι → ι)
    (hl : Linked next prev null before h (l₁ ++ a :: l₂)) (hnd : (l₁ ++ a :: l₂).Nodup)
    (hbefore : before ∉ l₁ ++ a :: l₂)
    (hn : ∀ x ∈ l₁ ++ l₂, next' x = if x = prev a then next a else next x)
    (hp : ∀ x ∈ l₁ ++ l₂, prev' x = if x = next a then prev a else prev x) :
    Linked next' prev' null before (if h = a then next a else h) (l₁ ++ l₂) := by
  induction l₁ generalizing before h with
  | nil =>
    obtain ⟨rfl, -, rfl, hrest⟩ := hl
    simp only [List.nil_append, if_true] at hn hp hnd hbefore ⊢
    cases l₂ with
    | nil => exact hrest
    | cons b l₂ =>
      obtain ⟨hb, hne, -, hrest'⟩ := hrest
      simp only [List.mem_cons, not_or] at hbefore
      refine ⟨hb, hne, ?_, ?_⟩
      · rw [hp b (.head _), if_pos hb.symm]
      · rw [hn b (.head _), if_neg (Ne.symm hbefore.2.1)]
        refine hrest'.congr (fun x hx => ?_) fun x hx => ?_
        · rw [hn x (.tail _ hx), if_neg]
          rintro rfl
          exact hbefore.2.2 hx
        · rw [hp x (.tail _ hx), if_neg]
          rintro rfl
          rw [hb] at hx
          exact (List.nodup_cons.mp (List.nodup_cons.mp hnd).2).1 hx
  | cons c l₁ ih =>
    obtain ⟨rfl, hne, hprev, hrest⟩ := hl
    simp only [List.cons_append, List.nodup_cons] at hnd
    have hca : h ≠ a := fun hc => hnd.1 (hc ▸ by simp)
    have hcnext : h ≠ next a := by
      intro hc
      rw [hrest.next_eq] at hc
      cases l₂ with
      | nil => exact hne hc
      | cons b l₂ => exact hnd.1 (by simp at hc; simp [hc])
    rw [if_neg hca]
    refine ⟨rfl, hne, ?_, ?_⟩
    · rw [hp h (.head _), if_neg hcnext, hprev]
    · have hstep := ih hrest hnd.2 hnd.1 (fun x hx => hn x (.tail _ hx))
        fun x hx => hp x (.tail _ hx)
      -- The head of the rest moves exactly when `a` is the second node.
      have hhead : next' h = if next h = a then next a else next h := by
        rw [hn h (.head _)]
        cases l₁ with
        | nil =>
          have h1 : next h = a := hrest.1
          have h2 : prev a = h := hrest.2.2.1
          rw [if_pos h2.symm, if_pos h1]
        | cons d l₁ =>
          have h1 : next h = d := hrest.1
          have h2 : prev a ≠ h := by
            intro hc
            have hd : Linked next prev null h (next h) ((d :: l₁) ++ a :: l₂) := hrest
            rw [hd.prev_eq, List.getLast?_cons] at hc
            refine hnd.1 (hc ▸ List.mem_append_left _ ?_)
            cases l₁ with
            | nil => simp
            | cons e l₁ =>
              exact .tail _ (by
                rw [List.getLast?_eq_getLast_of_ne_nil (by simp)]
                exact List.getLast_mem (by simp))
          have h3 : next h ≠ a := by
            rw [h1]
            rintro rfl
            exact (List.nodup_cons.mp hnd.2).1 (by simp)
          rw [if_neg (Ne.symm h2), if_neg h3]
      rw [hhead]
      exact hstep

/-- Putting a node between `l₁`, which ends in `p`, and `l₂`, which begins with `q`. -/
theorem Linked.insert {p q : ι} (l₁ l₂ : List ι) [DecidableEq ι] (next' prev' : ι → ι)
    (hl : Linked next prev null before h (l₁ ++ l₂)) (hnd : (l₁ ++ l₂).Nodup)
    (hbefore : before ∉ l₁ ++ l₂) (ha : a ≠ null) (hp : p = l₁.getLast?.getD before)
    (hq : q = l₂.head?.getD null) (hna : next' a = q) (hpa : prev' a = p)
    (hn : ∀ x ∈ l₁ ++ l₂, next' x = if x = p then a else next x)
    (hv : ∀ x ∈ l₁ ++ l₂, prev' x = if x = q then a else prev x) :
    Linked next' prev' null before (if l₁ = [] then a else h) (l₁ ++ a :: l₂) := by
  induction l₁ generalizing before h with
  | nil =>
    obtain rfl : p = before := hp
    simp only [List.nil_append, if_true] at hn hv hnd hl hbefore ⊢
    refine ⟨rfl, ha, hpa, ?_⟩
    rw [hna]
    cases l₂ with
    | nil => exact hq
    | cons b l₂ =>
      obtain ⟨rfl, hne, -, hrest⟩ := hl
      obtain rfl : q = h := hq
      simp only [List.mem_cons, not_or] at hn hv hbefore
      refine ⟨rfl, hne, by rw [hv q (.inl rfl), if_pos rfl], ?_⟩
      rw [hn q (.inl rfl), if_neg (Ne.symm hbefore.1)]
      refine hrest.congr (fun x hx => ?_) fun x hx => ?_
      · rw [hn x (.inr hx), if_neg]
        rintro rfl
        exact hbefore.2 hx
      · rw [hv x (.inr hx), if_neg]
        rintro rfl
        exact (List.nodup_cons.mp hnd).1 hx
  | cons c l₁ ih =>
    obtain ⟨rfl, hne, hprev, hrest⟩ := hl
    simp only [List.cons_append, List.nodup_cons] at hnd
    have hp' : p = l₁.getLast?.getD h := by
      rw [hp, List.getLast?_cons]
      rfl
    refine ⟨rfl, hne, ?_, ?_⟩
    · rw [hv h (.head _), if_neg, hprev]
      rintro rfl
      cases l₂ with
      | nil => exact hne hq
      | cons b l₂ => exact hnd.1 (by simp [show h = b from hq])
    · have hstep := ih hrest hnd.2 hnd.1 hp' (fun x hx => hn x (.tail _ hx))
        fun x hx => hv x (.tail _ hx)
      have hhead : next' h = if l₁ = [] then a else next h := by
        rw [hn h (.head _)]
        cases l₁ with
        | nil => rw [if_pos (show h = p from hp'.symm), if_pos rfl]
        | cons d l₁ =>
          rw [if_neg, if_neg (by simp)]
          rintro rfl
          exact hnd.1 (List.mem_append_left _ (hp' ▸ List.getLast_mem (by simp)))
      rw [hhead]
      exact hstep

end Dll
