/-
Breadth-first search in a graph given by successor lists.

A node that is known is done or in the queue, and only nodes not known are put there, so none is there
twice; when the queue is empty, the nodes that are done are closed under successors.  The number of
reachable nodes bounds the rounds.  The distance of a node is the length of a shortest way to it.
-/
import Mathlib.Data.Set.Finite.Basic
import Mathlib.Data.List.Nodup
import Mathlib.Logic.Relation
import Mathlib.Order.Bounds.Basic

namespace Bfs

variable {α : Type*} [DecidableEq α] {adj : α → List α} {root u v : α}
  {known vs queue done : List α} {fuel : Nat}

/-- The nodes of a list that are not known, each once. -/
def fresh (known : List α) : List α → List α
  | [] => []
  | v :: vs => if v ∈ known then fresh known vs else v :: fresh (known ++ [v]) vs

/-- Do the nodes of the queue, and those that they lead to. -/
def search (adj : α → List α) : Nat → List α → List α → Option (List α)
  | _, [], done => some done
  | 0, _ :: _, _ => none
  | fuel + 1, u :: queue, done =>
    search adj fuel (queue ++ fresh (done ++ u :: queue) (adj u)) (done ++ [u])

/-- The nodes that a node leads to. -/
def Reach (adj : α → List α) : α → α → Prop := Relation.ReflTransGen fun u v => v ∈ adj u

theorem mem_fresh : v ∈ fresh known vs ↔ v ∈ vs ∧ v ∉ known := by
  induction vs generalizing known with
  | nil => simp [fresh]
  | cons w vs ih =>
    rw [fresh]
    split
    next hw =>
      rw [ih, List.mem_cons]
      constructor
      · exact fun h => ⟨.inr h.1, h.2⟩
      · rintro ⟨rfl | h, hn⟩
        · exact absurd hw hn
        · exact ⟨h, hn⟩
    next hw =>
      simp only [List.mem_cons, ih, List.mem_append, List.not_mem_nil, or_false, not_or]
      constructor
      · rintro (rfl | ⟨h, hn, -⟩)
        · exact ⟨.inl rfl, hw⟩
        · exact ⟨.inr h, hn⟩
      · rintro ⟨rfl | h, hn⟩
        · exact .inl rfl
        · by_cases hvw : v = w
          · exact .inl hvw
          · exact .inr ⟨h, hn, hvw⟩

theorem nodup_fresh : (fresh known vs).Nodup := by
  induction vs generalizing known with
  | nil => exact List.nodup_nil
  | cons w vs ih =>
    rw [fresh]
    split
    · exact ih
    · refine List.nodup_cons.mpr ⟨fun h => ?_, ih⟩
      exact (mem_fresh.mp h).2 (by simp)

/-- What holds before each round. -/
structure Inv (adj : α → List α) (root : α) (queue done : List α) : Prop where
  nodup : (done ++ queue).Nodup
  known : root ∈ done ++ queue
  sound : ∀ x ∈ done ++ queue, Reach adj root x
  closed : ∀ x ∈ done, ∀ v ∈ adj x, v ∈ done ++ queue

omit [DecidableEq α] in
theorem inv_init (adj : α → List α) (root : α) : Inv adj root [root] [] where
  nodup := by simp
  known := by simp
  sound := by
    intro x hx
    obtain rfl : x = root := by simpa using hx
    exact Relation.ReflTransGen.refl
  closed := fun _ hx => absurd hx List.not_mem_nil

theorem Inv.step (h : Inv adj root (u :: queue) done) :
    Inv adj root (queue ++ fresh (done ++ u :: queue) (adj u)) (done ++ [u]) := by
  have hassoc : done ++ [u] ++ (queue ++ fresh (done ++ u :: queue) (adj u))
      = (done ++ u :: queue) ++ fresh (done ++ u :: queue) (adj u) := by simp
  have hu : u ∈ done ++ u :: queue := by simp
  constructor
  · rw [hassoc]
    exact List.nodup_append.mpr ⟨h.nodup, nodup_fresh, fun a ha b hb hab =>
      (mem_fresh.mp hb).2 (hab ▸ ha)⟩
  · rw [hassoc]
    exact List.mem_append_left _ h.known
  · rw [hassoc]
    intro x hx
    rcases List.mem_append.mp hx with hx | hx
    · exact h.sound x hx
    · exact (h.sound u hu).tail (mem_fresh.mp hx).1
  · rw [hassoc]
    intro x hx v hv
    rcases List.mem_append.mp hx with hx | hx
    · exact List.mem_append_left _ (h.closed x hx v hv)
    · rw [List.mem_singleton] at hx
      subst hx
      by_cases hknown : v ∈ done ++ x :: queue
      · exact List.mem_append_left _ hknown
      · exact List.mem_append_right _ (mem_fresh.mpr ⟨hv, hknown⟩)

omit [DecidableEq α] in
/-- When the queue is empty, exactly the nodes that can be reached are done. -/
theorem Inv.mem_iff (h : Inv adj root [] done) {x : α} : x ∈ done ↔ Reach adj root x := by
  have hroot := h.known
  have hsound := h.sound
  have hclosed := h.closed
  rw [List.append_nil] at hroot hsound hclosed
  constructor
  · exact hsound x
  · intro hx
    induction hx with
    | refl => exact hroot
    | tail _ hstep ih => exact hclosed _ ih _ hstep

/-- With a round for every reachable node that is not done, the search returns. -/
theorem Inv.search (h : Inv adj root queue done) (hfin : {x | Reach adj root x}.Finite)
    (hf : hfin.toFinset.card ≤ fuel + done.length) :
    ∃ all, Bfs.search adj fuel queue done = some all ∧ all.Nodup
      ∧ ∀ x, x ∈ all ↔ Reach adj root x := by
  induction fuel generalizing queue done with
  | zero =>
    cases queue with
    | nil => exact ⟨done, rfl, by simpa using h.nodup, fun x => h.mem_iff⟩
    | cons u queue =>
      have hcard : (done ++ u :: queue).toFinset.card ≤ hfin.toFinset.card :=
        Finset.card_le_card fun x hx =>
          hfin.mem_toFinset.mpr (h.sound x (List.mem_toFinset.mp hx))
      rw [List.toFinset_card_of_nodup h.nodup, List.length_append, List.length_cons] at hcard
      omega
  | succ fuel ih =>
    cases queue with
    | nil => exact ⟨done, rfl, by simpa using h.nodup, fun x => h.mem_iff⟩
    | cons u queue =>
      have hstep := ih h.step (by rw [List.length_append, List.length_singleton]; omega)
      exact hstep

/-- The search from a node that reaches finitely many does each of them once. -/
theorem search_spec (hfin : {x | Reach adj root x}.Finite) (hf : hfin.toFinset.card ≤ fuel) :
    ∃ all, search adj fuel [root] [] = some all ∧ all.Nodup ∧ ∀ x, x ∈ all ↔ Reach adj root x :=
  (inv_init adj root).search hfin hf

/-! ### Distances -/

section

variable {β : Type*} {r : β → β → Prop} {x y : β} {d e : Nat}

/-- There is a way of so many steps. -/
inductive Steps (r : β → β → Prop) (x : β) : Nat → β → Prop where
  | refl : Steps r x 0 x
  | tail {n : Nat} {y z : β} (h : Steps r x n y) (hstep : r y z) : Steps r x (n + 1) z

/-- The length of a shortest way. -/
def Distance (r : β → β → Prop) (x y : β) (d : Nat) : Prop := IsLeast {n | Steps r x n y} d

theorem Distance.unique (h : Distance r x y d) (h' : Distance r x y e) : d = e :=
  IsLeast.unique h h'

theorem distance_one (hne : y ≠ x) : Distance r x y 1 ↔ r x y := by
  constructor
  · intro h
    cases h.1 with
    | tail h hstep =>
      cases h
      exact hstep
  · intro h
    refine ⟨Steps.refl.tail h, fun n hn => ?_⟩
    cases hn with
    | refl => exact absurd rfl hne
    | tail _ _ => exact Nat.le_add_left 1 _

end

end Bfs
