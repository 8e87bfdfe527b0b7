/-
Forests given by parent pointers, and laminar families of sets.

`up` takes each node to its parent and a root to null.  `Below up n a` says that `a` is met on the way
up from `n`; the depth of a node is the number of steps to null.

When each node covers a part of what its parent covers, and siblings cover disjoint sets, the nodes
that cover a point form a chain.  Its deepest node is found by descending into the child that covers
the point.
-/
import Mathlib.Data.Finset.Card
import Mathlib.Data.Set.Disjoint
import Mathlib.Data.Set.Lattice
import Mathlib.Logic.Function.Iterate
import Mathlib.Order.CompletePartialOrder
import Mathlib.Order.Interval.Finset.Nat

namespace Forest

variable {ι X : Type*} {up up' : ι → ι} {null : ι} {m n a b : ι} {d e k : Nat} {P : ι → Prop}

/-! ### The way up -/

/-- `a` is `n` or one of its ancestors. -/
def Below (up : ι → ι) (n a : ι) : Prop := ∃ k, up^[k] n = a

theorem Below.refl (up : ι → ι) (n : ι) : Below up n n := ⟨0, rfl⟩

theorem Below.trans (h1 : Below up n a) (h2 : Below up a b) : Below up n b := by
  obtain ⟨j, rfl⟩ := h1
  obtain ⟨k, rfl⟩ := h2
  exact ⟨k + j, Function.iterate_add_apply up k j n⟩

theorem Below.step (h : Below up (up n) a) : Below up n a := by
  obtain ⟨k, rfl⟩ := h
  exact ⟨k + 1, rfl⟩

theorem below_iff : Below up n a ↔ n = a ∨ Below up (up n) a := by
  constructor
  · rintro ⟨k, rfl⟩
    cases k with
    | zero => exact .inl rfl
    | succ k => exact .inr ⟨k, rfl⟩
  · rintro (rfl | h)
    · exact Below.refl up n
    · exact h.step

theorem Below.exists_child (h : Below up n a) (hne : n ≠ a) : ∃ c, Below up n c ∧ up c = a := by
  obtain ⟨k, rfl⟩ := h
  cases k with
  | zero => exact absurd rfl hne
  | succ k => exact ⟨up^[k] n, ⟨k, rfl⟩, (Function.iterate_succ_apply' up k n).symm⟩

/-- Two nodes on the way up from a third are comparable. -/
theorem Below.total (h1 : Below up n a) (h2 : Below up n b) : Below up a b ∨ Below up b a := by
  obtain ⟨j, rfl⟩ := h1
  obtain ⟨k, rfl⟩ := h2
  rcases Nat.le_total j k with hjk | hjk
  · refine .inl ⟨k - j, ?_⟩
    rw [← Function.iterate_add_apply, Nat.sub_add_cancel hjk]
  · refine .inr ⟨j - k, ?_⟩
    rw [← Function.iterate_add_apply, Nat.sub_add_cancel hjk]

section

variable (h : ∀ x, P x → up' x = up x ∧ P (up x)) (hn : P n)

include h hn

/-- The way up stays the same where the parents met on it do. -/
theorem iterate_congr :
    up'^[k] n = up^[k] n := by
  induction k generalizing n with
  | zero => rfl
  | succ k ih =>
    obtain ⟨h1, h2⟩ := h n hn
    rw [Function.iterate_succ_apply, Function.iterate_succ_apply, h1, ih h2]

theorem below_congr :
    Below up' n a ↔ Below up n a := by
  simp [Below, iterate_congr h hn]

end

/-- What is below `a` was below it before the way up from `a` changed. -/
theorem Below.of_update (hne : ∀ x, x ≠ a → up' x = up x) (h : Below up' n a) : Below up n a := by
  obtain ⟨k, hk⟩ := h
  induction k generalizing n with
  | zero => exact ⟨0, hk⟩
  | succ k ih =>
    by_cases hn : n = a
    · exact ⟨0, hn⟩
    · rw [Function.iterate_succ_apply, hne n hn] at hk
      exact (ih hk).step

theorem iterate_null (h0 : up null = null) (k : Nat) : up^[k] null = null :=
  Function.iterate_fixed h0 k

theorem eq_null_of_below (h0 : up null = null) (h : Below up null a) : a = null := by
  obtain ⟨k, rfl⟩ := h
  exact iterate_null h0 k

/-- Moving `b` under a node that is not below it keeps every way up finite. -/
theorem rooted_update (up : ι → ι) {p : ι} (hne : ∀ x, x ≠ b → up' x = up x) (hb : up' b = p)
    (hp : ∃ k, up^[k] p = null) (hacyc : ¬ Below up p b) (hn : ∃ k, up^[k] n = null) :
    ∃ k, up'^[k] n = null := by
  obtain ⟨j, hj⟩ := hp
  have hp' : up'^[j] p = null := by
    rw [iterate_congr (P := fun x => ¬ Below up x b) (fun x hx => ⟨hne x ?_, ?_⟩) hacyc, hj]
    · rintro rfl
      exact hx (Below.refl up x)
    · exact fun hc => hx hc.step
  obtain ⟨k, hk⟩ := hn
  induction k generalizing n with
  | zero => exact ⟨0, hk⟩
  | succ k ih =>
    by_cases hnb : n = b
    · exact ⟨j + 1, by rw [Function.iterate_succ_apply, hnb, hb, hp']⟩
    · obtain ⟨i, hi⟩ := ih hk
      exact ⟨i + 1, by rw [Function.iterate_succ_apply, hne n hnb, hi]⟩

/-! ### Depth -/

/-- Exactly `d` steps up from `n` lead to null. -/
def HasDepth (up : ι → ι) (null n : ι) (d : Nat) : Prop :=
  up^[d] n = null ∧ ∀ k < d, up^[k] n ≠ null

theorem HasDepth.unique (h1 : HasDepth up null n d) (h2 : HasDepth up null n e) : d = e := by
  rcases Nat.lt_trichotomy d e with h | h | h
  · exact absurd h1.1 (h2.2 d h)
  · exact h
  · exact absurd h2.1 (h1.2 e h)

theorem hasDepth_null (h0 : up null = null) : HasDepth up null n 0 ↔ n = null := by
  constructor
  · rintro ⟨h, -⟩
    exact h
  · rintro rfl
    exact ⟨iterate_null h0 0, by simp⟩

theorem hasDepth_succ (hn : n ≠ null) : HasDepth up null n (d + 1) ↔ HasDepth up null (up n) d := by
  constructor
  · rintro ⟨h1, h2⟩
    exact ⟨h1, fun k hk => h2 (k + 1) (Nat.succ_lt_succ hk)⟩
  · rintro ⟨h1, h2⟩
    refine ⟨h1, fun k hk => ?_⟩
    cases k with
    | zero => exact hn
    | succ k => exact h2 k (Nat.lt_of_succ_lt_succ hk)

theorem HasDepth.pos (h : HasDepth up null n d) (hn : n ≠ null) : 0 < d := by
  cases d with
  | zero => exact absurd h.1 hn
  | succ d => exact Nat.succ_pos d

theorem exists_hasDepth (h : up^[k] n = null) : ∃ d ≤ k, HasDepth up null n d := by
  classical
  have hex : ∃ k, up^[k] n = null := ⟨k, h⟩
  exact ⟨Nat.find hex, Nat.find_min' hex h, Nat.find_spec hex, fun j hj => Nat.find_min hex hj⟩

theorem HasDepth.iterate (h : HasDepth up null n d) (hk : k ≤ d) :
    HasDepth up null (up^[k] n) (d - k) := by
  refine ⟨?_, fun j hj => ?_⟩
  · rw [← Function.iterate_add_apply, Nat.sub_add_cancel hk]
    exact h.1
  · rw [← Function.iterate_add_apply]
    exact h.2 _ (by omega)

section

variable (h0 : up null = null)
include h0

theorem HasDepth.lt_of_iterate_ne (h : HasDepth up null n d) (hk : up^[k] n ≠ null) : k < d := by
  by_contra hc
  refine hk ?_
  rw [show k = (k - d) + d by omega, Function.iterate_add_apply, h.1, iterate_null h0]

/-- An ancestor is less deep, and strictly so if it is a proper one. -/
theorem HasDepth.of_below (h : HasDepth up null n d) (hb : Below up n a)
    (ha : a ≠ null) : ∃ e ≤ d, HasDepth up null a e ∧ (e = d → a = n) := by
  obtain ⟨k, rfl⟩ := hb
  have hk : k < d := by
    by_contra hc
    refine ha ?_
    rw [← Nat.sub_add_cancel (Nat.le_of_not_lt hc), Function.iterate_add_apply, h.1,
      iterate_null h0]
  refine ⟨d - k, Nat.sub_le d k, h.iterate hk.le, fun he => ?_⟩
  obtain rfl : k = 0 := by omega
  rfl

/-- Of the ancestors of a node there is one at each depth. -/
theorem HasDepth.eq_of_below (hm : HasDepth up null m e) (ha : HasDepth up null a e)
    (hnm : Below up n m) (hna : Below up n a) (hm0 : m ≠ null) (ha0 : a ≠ null) : m = a := by
  rcases hnm.total hna with hma | ham
  · obtain ⟨f, -, hf, hsame⟩ := hm.of_below h0 hma ha0
    exact (hsame (hf.unique ha)).symm
  · obtain ⟨f, -, hf, hsame⟩ := ha.of_below h0 ham hm0
    exact hsame (hf.unique hm)

section

variable (h : HasDepth up null n d)

include h

theorem HasDepth.not_below_up (hn : n ≠ null) : ¬ Below up (up n) n := by
  intro hb
  cases d with
  | zero => exact hn h.1
  | succ d =>
    obtain ⟨e, hle, he, -⟩ := ((hasDepth_succ hn).mp h).of_below h0 hb hn
    have := he.unique h
    omega

theorem Below.antisymm (h1 : Below up n a) (h2 : Below up a n)
    (hn : n ≠ null) (ha : a ≠ null) : a = n := by
  obtain ⟨e, hle, he, heq⟩ := h.of_below h0 h1 ha
  obtain ⟨d', hle', hd', -⟩ := he.of_below h0 h2 hn
  have := hd'.unique h
  exact heq (by omega)

/-- A node of which one is an ancestor of the other is not its sibling. -/
theorem Below.eq_of_sibling (hb : Below up n a) (ha : a ≠ null)
    (hs : up n = up a) : n = a := by
  rcases below_iff.mp hb with h1 | h1
  · exact h1
  · rw [hs] at h1
    obtain ⟨e, hle, he, heq⟩ := h.of_below h0 hb ha
    have hpos := he.pos ha
    obtain ⟨e, rfl⟩ : ∃ e', e = e' + 1 := ⟨e - 1, by omega⟩
    have hup := (hasDepth_succ ha).mp he
    obtain ⟨f, hfle, hf, -⟩ := hup.of_below h0 h1 ha
    have := hf.unique he
    omega

end

end

theorem HasDepth.le_card (h : HasDepth up null n d) {s : Finset ι}
    (hs : ∀ k < d, up^[k] n ∈ s) : d ≤ s.card := by
  have hinj : Set.InjOn (fun k => up^[k] n) (Finset.range d) := by
    intro i hi j hj hij
    simp only [Finset.coe_range, Set.mem_Iio] at hi hj
    have hi' := h.iterate hi.le
    have hj' := h.iterate hj.le
    simp only at hij
    rw [hij] at hi'
    have := hi'.unique hj'
    omega
  calc d = (Finset.range d).card := (Finset.card_range d).symm
    _ ≤ s.card := Finset.card_le_card_of_injOn _ (fun k hk => hs k (Finset.mem_range.mp hk)) hinj

/-- `n` is the deepest live node with the property `P`, or null if there is none. -/
def Deepest (live : ι → Prop) (up : ι → ι) (null : ι) (P : ι → Prop) (n : ι) : Prop :=
  (n = null ∧ ∀ m, live m → ¬ P m) ∨
    (live n ∧ P n
      ∧ ∀ m d e, live m → P m → HasDepth up null m d → HasDepth up null n e → d ≤ e)

/-! ### Laminar families -/

/-- The live nodes of a forest cover sets that nest as the nodes do. -/
structure Laminar (live : ι → Prop) (up : ι → ι) (null : ι) (cover : ι → Set X) : Prop where
  up_null : up null = null
  ne_null : ∀ n, live n → n ≠ null
  rooted : ∀ n, live n → ∃ k, up^[k] n = null
  up_live : ∀ n, live n → up n ≠ null → live (up n)
  subset : ∀ n, live n → up n ≠ null → cover n ⊆ cover (up n)
  disjoint : ∀ m n, live m → live n → up m = up n → m ≠ n → Disjoint (cover m) (cover n)

namespace Laminar

variable {live : ι → Prop} {cover : ι → Set X} {x : X}

section

variable (h : Laminar live up null cover)
include h

theorem exists_depth (hn : live n) : ∃ d, HasDepth up null n d := by
  obtain ⟨k, hk⟩ := h.rooted n hn
  obtain ⟨d, -, hd⟩ := exists_hasDepth hk
  exact ⟨d, hd⟩

theorem live_of_below (hn : live n) (hb : Below up n a) (ha : a ≠ null) : live a := by
  obtain ⟨k, rfl⟩ := hb
  induction k generalizing n with
  | zero => exact hn
  | succ k ih =>
    by_cases hup : up n = null
    · exact absurd (by rw [Function.iterate_succ_apply, hup, iterate_null h.up_null]) ha
    · exact ih (h.up_live n hn hup) ha

theorem subset_of_below (hn : live n) (hb : Below up n a) (ha : a ≠ null) : cover n ⊆ cover a := by
  obtain ⟨k, rfl⟩ := hb
  induction k generalizing n with
  | zero => exact subset_rfl
  | succ k ih =>
    by_cases hup : up n = null
    · exact absurd (by rw [Function.iterate_succ_apply, hup, iterate_null h.up_null]) ha
    · exact (h.subset n hn hup).trans (ih (h.up_live n hn hup) ha)

section

variable (hm : live m) (hn : live n)

include hm hn

/-- Of each depth, at most one node covers a point. -/
theorem eq_of_depth (hdm : HasDepth up null m d)
    (hdn : HasDepth up null n d) (hxm : x ∈ cover m) (hxn : x ∈ cover n) : m = n := by
  induction d generalizing m n with
  | zero => exact absurd ((hasDepth_null h.up_null).mp hdm) (h.ne_null m hm)
  | succ d ih =>
    have hum := (hasDepth_succ (h.ne_null m hm)).mp hdm
    have hun := (hasDepth_succ (h.ne_null n hn)).mp hdn
    have hup : up m = up n := by
      cases d with
      | zero =>
        rw [(hasDepth_null h.up_null).mp hum, (hasDepth_null h.up_null).mp hun]
      | succ d =>
        have h1 : up m ≠ null := hum.2 0 (Nat.succ_pos d)
        have h2 : up n ≠ null := hun.2 0 (Nat.succ_pos d)
        exact ih (h.up_live m hm h1) (h.up_live n hn h2) hum hun (h.subset m hm h1 hxm)
          (h.subset n hn h2 hxn)
    by_contra hne
    exact Set.disjoint_left.mp (h.disjoint m n hm hn hup hne) hxm hxn

theorem below_of_depth_le (hdm : HasDepth up null m d)
    (hdn : HasDepth up null n e) (hle : d ≤ e) (hxm : x ∈ cover m)
    (hxn : x ∈ cover n) : Below up n m := by
  have hit := hdn.iterate (Nat.sub_le e d)
  rw [Nat.sub_sub_self hle] at hit
  have hb : Below up n (up^[e - d] n) := ⟨e - d, rfl⟩
  have hne : up^[e - d] n ≠ null := by
    have hpos := hdm.pos (h.ne_null m hm)
    exact hdn.2 _ (by omega)
  have hlive := h.live_of_below hn hb hne
  exact h.eq_of_depth hlive hm hit hdm (h.subset_of_below hn hb hne hxn) hxm ▸ hb

theorem below_or_below (hxm : x ∈ cover m) (hxn : x ∈ cover n) : Below up m n ∨ Below up n m := by
  obtain ⟨d, hd⟩ := h.exists_depth hm
  obtain ⟨e, he⟩ := h.exists_depth hn
  rcases Nat.le_total d e with hle | hle
  · exact .inr (h.below_of_depth_le hm hn hd he hle hxm hxn)
  · exact .inl (h.below_of_depth_le hn hm he hd hle hxn hxm)

/-- A node that covers a point no child of it covers lies below every node that does. -/
theorem below_of_no_child (hxm : x ∈ cover m) (hxn : x ∈ cover n)
    (hno : ∀ c, live c → up c = n → x ∉ cover c) : Below up n m := by
  rcases h.below_or_below hm hn hxm hxn with hb | hb
  · by_cases heq : m = n
    · exact heq ▸ Below.refl up m
    · obtain ⟨c, hc, hup⟩ := hb.exists_child heq
      have hcne : c ≠ null := by
        rintro rfl
        exact h.ne_null n hn (by rw [← hup, h.up_null])
      exact absurd (h.subset_of_below hm hc hcne hxm) (hno c (h.live_of_below hm hc hcne) hup)
  · exact hb

end

/-- In a laminar family the deepest node over a point is below all that cover it. -/
theorem deepest_iff :
    Deepest live up null (x ∈ cover ·) n ↔
      (n = null ∧ ∀ m, live m → x ∉ cover m) ∨
        (live n ∧ x ∈ cover n ∧ ∀ m, live m → x ∈ cover m → Below up n m) := by
  refine or_congr Iff.rfl (and_congr_right fun hn => and_congr_right fun hx => ?_)
  constructor
  · intro hd m hm hxm
    obtain ⟨d, hdm⟩ := h.exists_depth hm
    obtain ⟨e, hdn⟩ := h.exists_depth hn
    exact h.below_of_depth_le hm hn hdm hdn (hd m d e hm hxm hdm hdn) hxm hx
  · intro hb m d e hm hxm hdm hdn
    obtain ⟨d', hle, hd', -⟩ := hdn.of_below h.up_null (hb m hm hxm) (h.ne_null m hm)
    exact hd'.unique hdm ▸ hle

theorem deepest_of_no_child (hn : live n) (hx : x ∈ cover n)
    (hno : ∀ c, live c → up c = n → x ∉ cover c) : Deepest live up null (x ∈ cover ·) n :=
  h.deepest_iff.mpr (.inr ⟨hn, hx, fun _ hm hxm => h.below_of_no_child hm hn hxm hx hno⟩)

theorem deepest_unique (hm : Deepest live up null (x ∈ cover ·) m)
    (hn : Deepest live up null (x ∈ cover ·) n) : m = n := by
  rcases h.deepest_iff.mp hm with ⟨rfl, hno⟩ | ⟨hml, hxm, hbm⟩
  · rcases hn with ⟨rfl, -⟩ | ⟨hnl, hxn, -⟩
    · rfl
    · exact absurd hxn (hno n hnl)
  · rcases h.deepest_iff.mp hn with ⟨rfl, hno⟩ | ⟨hnl, hxn, hbn⟩
    · exact absurd hxm (hno m hml)
    · obtain ⟨d, hd⟩ := h.exists_depth hnl
      exact Below.antisymm h.up_null hd (hbn m hml hxm) (hbm n hnl hxn) (h.ne_null n hnl)
        (h.ne_null m hml)

end

end Laminar

end Forest
