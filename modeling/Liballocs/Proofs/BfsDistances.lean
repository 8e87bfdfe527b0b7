/-
The distances and predecessors that the walk of the object graph leaves behind.

Both are set from the object that is found: its distance is one more than its own so far, which is
zero, and its predecessor is itself.  So the distances are right for objects that the first one points
to, and the predecessors for none.
-/
import Liballocs.Proofs.UniqtypeBfs

namespace Liballocs

variable {env : BfsEnv} {typeOf depth : Nat → Nat} {o root fuel typeFuel : Nat} {s s' : BfsState}

/-- What the maps say about the objects found so far. -/
structure FoundFromThemselves (root : Nat) (s : BfsState) : Prop where
  white : ∀ o, s.colours o = .white → s.distances o = 0
  found : ∀ o, o ≠ root → s.colours o ≠ .white → s.distances o = 1 ∧ s.predecessors o = o
  queued : ∀ v ∈ s.queue, v.obj ≠ root → s.colours v.obj ≠ .white

namespace FoundFromThemselves

section

variable (h : FoundFromThemselves root s)

include h

theorem setColour {c : NodeColour} (hc : c ≠ .white)
    (ho : o ≠ root → s.colours o ≠ .white) : FoundFromThemselves root (s.setColour o c) := by
  have hcolour : ∀ x, (s.setColour o c).colours x = .white → s.colours x = .white := by
    intro x hx
    simp only [BfsState.setColour] at hx
    split at hx
    next => exact absurd hx hc
    next => exact hx
  have hfound : ∀ x, x ≠ root → (s.setColour o c).colours x ≠ .white → s.colours x ≠ .white := by
    intro x hroot hx
    simp only [BfsState.setColour] at hx
    split at hx
    next heq => exact heq ▸ ho (heq ▸ hroot)
    next => exact hx
  refine ⟨fun x hx => h.white x (hcolour x hx), fun x hroot hx => h.found x hroot ?_, ?_⟩
  · exact hfound x hroot hx
  · intro v hv hroot hwhite
    exact h.queued v hv hroot (hcolour v.obj hwhite)

theorem considerAdjacent (v : NodeRec) :
    FoundFromThemselves root (s.considerAdjacent v) := by
  unfold BfsState.considerAdjacent
  split
  next hwhite =>
    refine ⟨fun x hx => ?_, fun x hroot hx => ?_, fun w hw hroot => ?_⟩
    · simp only [BfsState.setColour] at hx ⊢
      split at hx
      next => cases hx
      next hne =>
        rw [if_neg hne]
        exact h.white x hx
    · simp only [BfsState.setColour] at hx ⊢
      split at hx
      next heq =>
        rw [if_pos heq, if_pos heq, h.white _ hwhite]
        exact ⟨rfl, heq.symm⟩
      next hne =>
        rw [if_neg hne, if_neg hne]
        exact h.found x hroot hx
    · simp only [BfsState.setColour]
      split
      next => decide
      next hne =>
        rcases List.mem_append.mp hw with hw | hw
        · exact h.queued w hw hroot
        · exact absurd (congrArg NodeRec.obj (List.mem_singleton.mp hw)) hne
  next => exact h

theorem foldl (l : List NodeRec) :
    FoundFromThemselves root (l.foldl BfsState.considerAdjacent s) := by
  induction l generalizing s with
  | nil => exact h
  | cons v l ih => exact ih (h.considerAdjacent v)

end

theorem colours_foldl (l : List NodeRec) (ho : s.colours o ≠ .white) :
    (l.foldl BfsState.considerAdjacent s).colours o ≠ .white := by
  induction l generalizing s with
  | nil => exact ho
  | cons v l ih =>
    refine ih ?_
    unfold BfsState.considerAdjacent
    split
    · simp only [BfsState.setColour]
      split
      · decide
      · exact ho
    · exact ho

section

variable (h : FoundFromThemselves root s)

include h

theorem blacken {u : NodeRec}
    (hu : s.colours u.obj ≠ .white) : FoundFromThemselves root (s.blacken u) := by
  have hcolour := h.setColour (c := .black) nofun fun _ => hu
  exact ⟨hcolour.white, hcolour.found, hcolour.queued⟩

theorem round {u : NodeRec} {q : List NodeRec} (hq : s.queue = u :: q) (l : List NodeRec) :
    FoundFromThemselves root ((l.foldl BfsState.considerAdjacent
      ({ s with queue := q }.setColour u.obj .grey)).blacken u) := by
  have hqueued : ∀ v ∈ u :: q, v.obj ≠ root → s.colours v.obj ≠ .white := by
    rw [← hq]
    exact h.queued
  have hpopped : FoundFromThemselves root { s with queue := q } :=
    ⟨h.white, h.found, fun v hv => hqueued v (List.mem_cons_of_mem u hv)⟩
  have hgrey := hpopped.setColour (c := .grey) nofun (hqueued u (.head _))
  refine (hgrey.foldl l).blacken (colours_foldl l ?_)
  simp [BfsState.setColour]

theorem process
    (hs : processBfsQueueAndMaps env typeFuel fuel s = some s') : FoundFromThemselves root s' := by
  induction fuel generalizing s with
  | zero =>
    cases hq : s.queue with
    | nil =>
      rw [processBfsQueueAndMaps_nil hq] at hs
      exact Option.some_inj.mp hs ▸ h
    | cons u q =>
      rw [processBfsQueueAndMaps.eq_def] at hs
      simp only [hq] at hs
      cases hs
  | succ fuel ih =>
    cases hq : s.queue with
    | nil =>
      rw [processBfsQueueAndMaps_nil hq] at hs
      exact Option.some_inj.mp hs ▸ h
    | cons u q =>
      rw [processBfsQueueAndMaps.eq_def] at hs
      simp only [hq] at hs
      obtain ⟨l, -, hs⟩ := Option.bind_eq_some_iff.mp hs
      exact ih (h.round hq l) hs

end

theorem init (t : Nat) : FoundFromThemselves root { queue := [⟨root, t⟩] } where
  white := fun _ _ => rfl
  found := fun _ _ hc => absurd rfl hc
  queued := fun _ hv hne => absurd (congrArg NodeRec.obj (List.mem_singleton.mp hv)) hne

end FoundFromThemselves

/-! ### What the maps should say -/

/-- The distance is the length of a shortest way. -/
def RightDistance (env : BfsEnv) (typeOf : Nat → Nat) (root : Nat) (s : BfsState) (o : Nat) : Prop :=
  Bfs.Distance (Adjacent env typeOf) root o (s.distances o)

/-- The predecessor can be reached, points to the object and is one step closer. -/
def RightPredecessor (env : BfsEnv) (typeOf : Nat → Nat) (root : Nat) (s : BfsState) (o : Nat) :
    Prop :=
  Reachable env typeOf root (s.predecessors o) ∧ Adjacent env typeOf (s.predecessors o) o
    ∧ ∃ d, Bfs.Distance (Adjacent env typeOf) root (s.predecessors o) d
      ∧ Bfs.Distance (Adjacent env typeOf) root o (d + 1)

theorem not_rightPredecessor (h : s.predecessors o = o) :
    ¬ RightPredecessor env typeOf root s o := by
  intro hright
  obtain ⟨-, -, d, hd, hd'⟩ := hright
  rw [h] at hd
  exact absurd (hd.unique hd') (Nat.lt_succ_self d).ne

/-- In every finite object graph the loop ends.  The distance of another reachable object is then
right exactly if the first one points to it, and its predecessor never is: the maps are right for all
of them if and only if there are none. -/
theorem processBfsQueueAndMaps_maps_iff (ht : FollowsTyped env typeOf) (hdepth : NestsTo env depth)
    (hfin : {o | Reachable env typeOf root o}.Finite) :
    ∃ N, ∀ fuel ≥ N, ∃ s,
      processBfsQueueAndMaps env fuel fuel { queue := [⟨root, typeOf root⟩] } = some s
      ∧ (∀ o, Reachable env typeOf root o → o ≠ root →
          (RightDistance env typeOf root s o ↔ Adjacent env typeOf root o))
      ∧ ((∀ o, Reachable env typeOf root o → o ≠ root →
            RightDistance env typeOf root s o ∧ RightPredecessor env typeOf root s o)
        ↔ ∀ o, Reachable env typeOf root o → o = root) := by
  obtain ⟨N, hN⟩ := exists_processBfsQueueAndMaps ht hdepth hfin
  refine ⟨N, fun fuel hf => ?_⟩
  obtain ⟨s, all, hs, hend, -, hmem⟩ := hN fuel hf
  have hmaps := (FoundFromThemselves.init (typeOf root)).process hs
  have hfound : ∀ o, Reachable env typeOf root o → o ≠ root →
      s.distances o = 1 ∧ s.predecessors o = o := by
    intro o ho hne
    refine hmaps.found o hne ?_
    have hknown := (hend.known o).mpr (by rw [List.append_nil]; exact (hmem o).mpr ho)
    simpa using hknown
  refine ⟨s, hs, fun o ho hne => ?_, ?_⟩
  · rw [RightDistance, (hfound o ho hne).1]
    exact Bfs.distance_one hne
  · constructor
    · intro h o ho
      by_contra hne
      exact not_rightPredecessor (hfound o ho hne).2 (h o ho hne).2
    · intro h o ho hne
      exact absurd (h o ho) hne

/-- A chain of three objects of one pointer each, the last of which is null. -/
def chainGraph : BfsEnv where
  types := fun
    | 1 => { posMaxoff := 8, un := .address 1, related := [⟨2, 0⟩] }
    | 2 => { posMaxoff := 8, un := .composite 1, related := [⟨1, 0⟩] }
    | _ => {}
  forEachSubobject := fun t => if t = 2 then [(1, 0)] else []
  voidType := 3
  pointerAt := fun a => if a = 0x400000 then 0x400010 else if a = 0x400010 then 0x400020 else 0
  followPtr := fun p _ => (p, 2)

theorem chainGraph_adjacent {o o' : Nat} : Adjacent chainGraph (fun _ => 2) o o'
    ↔ (o = 0x400000 ∧ o' = 0x400010) ∨ (o = 0x400010 ∧ o' = 0x400020) := by
  have hbuild : ∀ k, buildAdjacencyListRecursive chainGraph o (k + 1) 0 2
      = some (visitPointer chainGraph o 2) := by
    intro k
    have hflatten : buildAdjacencyListRecursive chainGraph o (k + 1) 0 2
        = some [visitPointer chainGraph o 2].flatten := rfl
    rw [hflatten, List.flatten_singleton]
  have hvisit : visitPointer chainGraph o 2 = if o = 0x400000 then [⟨0x400010, 2⟩]
      else if o = 0x400010 then [⟨0x400020, 2⟩] else [] := by
    by_cases h : o = 0x400000
    · rw [h]
      rfl
    · by_cases h' : o = 0x400010
      · rw [h']
        rfl
      · simp [visitPointer, chainGraph, h, h']
  have hadj : Adjacent chainGraph (fun _ => 2) o o'
      ↔ o' ∈ (visitPointer chainGraph o 2).map NodeRec.obj := by
    constructor
    · intro h
      obtain ⟨N, hN⟩ := h
      obtain ⟨l, hl, hmem⟩ := hN (N + 1) (Nat.le_succ N)
      rw [hbuild] at hl
      exact Option.some_inj.mp hl ▸ hmem
    · intro h
      refine ⟨1, fun fuel hf => ?_⟩
      obtain ⟨k, rfl⟩ : ∃ k, fuel = k + 1 := ⟨_, (Nat.sub_add_cancel hf).symm⟩
      exact ⟨_, hbuild k, h⟩
  rw [hadj, hvisit]
  by_cases h : o = 0x400000
  · simp [h]
  · by_cases h' : o = 0x400010
    · simp [h']
    · simp [h, h']

theorem chainGraph_nests : NestsTo chainGraph fun _ => 0 := by
  intro t p hp hcomp
  match t with
  | 2 =>
    have hp : p ∈ [(1, 0)] := hp
    rw [List.mem_singleton.mp hp] at hcomp
    exact nomatch hcomp
  | 0 => exact nomatch hp
  | 1 => exact nomatch hp
  | k + 3 => exact nomatch hp

theorem chainGraph_reachable_last (h : Reachable chainGraph (fun _ => 2) 0x400020 o) :
    o = 0x400020 := by
  rcases Relation.ReflTransGen.cases_head h with h | h
  · exact h.symm
  · obtain ⟨c, hadj, -⟩ := h
    have := chainGraph_adjacent.mp hadj
    omega

theorem processBfsQueueAndMaps_maps_sample :
    (∀ o, Reachable chainGraph (fun _ => 2) 0x400020 o → o = 0x400020)
    ∧ ∃ N, ∀ fuel ≥ N, ∃ s,
      processBfsQueueAndMaps chainGraph fuel fuel { queue := [⟨0x400020, 2⟩] } = some s
      ∧ ∀ o, Reachable chainGraph (fun _ => 2) 0x400020 o → o ≠ 0x400020 →
        RightDistance chainGraph (fun _ => 2) 0x400020 s o
          ∧ RightPredecessor chainGraph (fun _ => 2) 0x400020 s o := by
  refine ⟨fun o => chainGraph_reachable_last, ?_⟩
  have hfin : {o | Reachable chainGraph (fun _ => 2) 0x400020 o}.Finite :=
    (Set.finite_singleton 0x400020).subset fun o => chainGraph_reachable_last
  obtain ⟨N, hN⟩ := @processBfsQueueAndMaps_maps_iff chainGraph (fun _ => 2) (fun _ => 0) 0x400020
    (fun _ _ _ => rfl) chainGraph_nests hfin
  refine ⟨N, fun fuel hf => ?_⟩
  obtain ⟨s, hs, -, hiff⟩ := hN fuel hf
  exact ⟨s, hs, hiff.mpr fun o => chainGraph_reachable_last⟩

/-- The last object of the chain is two steps away and comes from the second; the maps say one step,
and from itself. -/
theorem processBfsQueueAndMaps_maps_wrong :
    FollowsTyped chainGraph (fun _ => 2) ∧ NestsTo chainGraph (fun _ => 0)
    ∧ (processBfsQueueAndMaps chainGraph 3 3 { queue := [⟨0x400000, 2⟩] }).map
        (fun s => (s.distances 0x400020, s.predecessors 0x400020)) = some (1, 0x400020)
    ∧ Bfs.Distance (Adjacent chainGraph fun _ => 2) 0x400000 0x400020 2
    ∧ ¬ Adjacent chainGraph (fun _ => 2) 0x400020 0x400020 := by
  refine ⟨fun _ _ _ => rfl, chainGraph_nests, by decide, ⟨?_, fun n hn => ?_⟩, ?_⟩
  · have hfirst : Adjacent chainGraph (fun _ => 2) 0x400000 0x400010 :=
      chainGraph_adjacent.mpr (by decide)
    have hsecond : Adjacent chainGraph (fun _ => 2) 0x400010 0x400020 :=
      chainGraph_adjacent.mpr (by decide)
    exact (Bfs.Steps.refl.tail hfirst).tail hsecond
  · cases hn with
    | tail h hstep =>
      cases h with
      | refl =>
        have := chainGraph_adjacent.mp hstep
        omega
      | tail h _ => exact Nat.le_add_left 2 _
  · rw [chainGraph_adjacent]
    decide

end Liballocs
