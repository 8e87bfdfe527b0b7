/-
The depth-first walk.

A callback that walks what it is called for, and passes itself on, goes through a finite tree in
pre-order.  Its state is the client's, and the path is that of the position it was called under.
-/
import Liballocs.Proofs.Walk

namespace Liballocs

open Calls

namespace AllocTreePath

/-- The path of some links, from here to the root. -/
def ofLinks : List AllocTreeLink → AllocTreePath
  | [] => .empty
  | link :: links => .under link (ofLinks links) (links.length + 1)

/-- The links of a path, from here to the root. -/
def links : AllocTreePath → List AllocTreeLink
  | empty => []
  | under toHere encl _ => toHere :: encl.links

theorem enclDepth_ofLinks (ls : List AllocTreeLink) : (ofLinks ls).enclDepth = ls.length := by
  cases ls <;> rfl

theorem links_ofLinks (ls : List AllocTreeLink) : (ofLinks ls).links = ls := by
  induction ls with
  | nil => rfl
  | cons l ls ih => simp [ofLinks, links, ih]

end AllocTreePath

namespace WalkEnv

open AllocTreePath (ofLinks enclDepth_ofLinks links_ofLinks)

variable {env : WalkEnv} {links : List AllocTreeLink} {calls : List (AllocVisit AllocTreeLink)}
  {f : Forest (AllocVisit AllocTreePath)}

/-- The calls for what an allocation contains, if it might contain things. -/
def callsUnder (env : WalkEnv) (v : AllocVisit AllocTreeLink) (theAllocation : Nat) :
    Option (List (AllocVisit AllocTreeLink)) :=
  if theAllocation = 0 ∧ v.t = 0 then some []
  else env.callsAt (newPos theAllocation v.obj v.t) none none

/-- The trees of allocations that begin with some calls, under the position of the links: each node
has its bigalloc, and the path from the root. -/
inductive Trees (env : WalkEnv) : List AllocTreeLink → List (AllocVisit AllocTreeLink) →
    Forest (AllocVisit AllocTreePath) → Prop
  | nil {links : List AllocTreeLink} : Trees env links [] .nil
  | cons {links : List AllocTreeLink} {v : AllocVisit AllocTreeLink} {vs calls : List (AllocVisit AllocTreeLink)}
      {theAllocation : Nat} {below rest : Forest (AllocVisit AllocTreePath)}
      (hthe : env.theAllocation v = some theAllocation)
      (hcalls : env.callsUnder v theAllocation = some calls)
      (hbelow : Trees env (v.link :: links) calls below) (hrest : Trees env links vs rest) :
      Trees env links (v :: vs)
        (.cons ⟨theAllocation, v.obj, v.t, v.allocsite, ofLinks (v.link :: links)⟩ below rest)

/-- With fuel for their depth, the calls for some trees are those for their nodes in pre-order. -/
theorem Trees.walk (h : Trees env links calls f) : ∃ n, ∀ fuel, n ≤ fuel →
    ∀ (σ : Type) (cb : σ → AllocVisit AllocTreePath → Int × σ) (s : σ),
      callEach (env.walkOneDfCb cb fuel (ofLinks links)) calls s
        = some (callPreorder cb 0 f.preorder s) := by
  induction h with
  | nil => exact ⟨0, fun _ _ _ _ _ => rfl⟩
  | @cons links v vs calls theAllocation below rest hthe hcalls _ _ ihb ihr =>
    obtain ⟨n, ihb⟩ := ihb
    obtain ⟨m, ihr⟩ := ihr
    refine ⟨max (n + 1) m, fun fuel hfuel σ cb s => ?_⟩
    have hrest := ihr fuel ((Nat.le_max_right _ _).trans hfuel) σ cb
    obtain ⟨k, rfl⟩ : ∃ k, fuel = k + 1 := Nat.exists_eq_add_one.mpr (by omega)
    have hbelow : ∀ s, (if theAllocation = 0 ∧ v.t = 0 then some (0, s)
        else env.walkAllocations (newPos theAllocation v.obj v.t)
          (env.walkOneDfCb cb k (ofLinks (v.link :: links))) none none s)
        = some (callPreorder cb 0 below.preorder s) := by
      intro s
      rw [← ihb k (by omega) σ cb s]
      unfold callsUnder at hcalls
      split at hcalls
      · rename_i h0
        obtain rfl := Option.some.inj hcalls
        rw [if_pos h0]
        rfl
      · rename_i h0
        rw [if_neg h0, walkAllocations_eq, hcalls]
        rfl
    have hpath : AllocTreePath.under v.link (ofLinks links) (1 + (ofLinks links).enclDepth)
        = ofLinks (v.link :: links) := by
      rw [enclDepth_ofLinks, Nat.add_comm]
      rfl
    rw [callEach, walkOneDfCb]
    simp only [hthe, hpath, some_bind, Option.pure_def, hrest, hbelow,
      Forest.preorder, callPreorder]
    generalize cb s ⟨theAllocation, v.obj, v.t, v.allocsite, ofLinks (v.link :: links)⟩ = r
    by_cases h1 : r.1 = -1
    · simp [h1, callPreorder_skip]
    · by_cases h0 : r.1 = 0
      · simp only [h0, ne_eq, not_true, if_false, callPreorder_append]
        by_cases hb : (callPreorder cb 0 below.preorder r.2).1 = 0 <;> simp [hb]
      · simp [h1, h0]

theorem Trees.path (h : Trees env links calls f) :
    ∀ x ∈ f.preorder, x.1.link.enclDepth = x.1.link.links.length := by
  induction h with
  | nil => exact fun x hx => absurd hx List.not_mem_nil
  | cons _ _ _ _ ihb ihr =>
    intro x hx
    rcases List.mem_cons.mp hx with rfl | hx
    · rw [enclDepth_ofLinks, links_ofLinks]
    · exact (List.mem_append.mp hx).elim (ihb x) (ihr x)

/-- **The depth-first walk** of a finite tree calls the client for its nodes in pre-order, each with
the path from the root. -/
theorem walkAllocationsDf_preorder (env : WalkEnv) (underHere : AllocTreePos)
    (calls : List (AllocVisit AllocTreeLink)) (f : Forest (AllocVisit AllocTreePath))
    (hcalls : env.callsAt underHere none none = some calls) (hf : Trees env [] calls f) :
    (∃ n, ∀ fuel, n ≤ fuel → ∀ (σ : Type) (cb : σ → AllocVisit AllocTreePath → Int × σ) (s : σ),
      env.walkAllocationsDf fuel underHere cb s = some (callPreorder cb 0 f.preorder s))
    ∧ ∀ x ∈ f.preorder, x.1.link.enclDepth = x.1.link.links.length := by
  refine ⟨?_, hf.path⟩
  obtain ⟨n, hn⟩ := hf.walk
  refine ⟨n, fun fuel hfuel σ cb s => ?_⟩
  rw [walkAllocationsDf, walkAllocations_eq, hcalls]
  exact hn fuel hfuel σ cb s

/-- A bigalloc with an object of two members. -/
def samplePair : WalkEnv where
  table.bigAllocations := fun _ => { begin := 4096, end_ := 8192, suballocator := some .genericSmall }
  forEachSubobject := fun t => if t = 8 then [(16, 0), (16, 4)] else []
  allocations := fun _ b => [⟨0, 4200, 8, 0, ⟨⟨4096, .bigalloc b, false⟩, 1⟩⟩]

/-- A client that wants nothing under the second thing, and ends the walk with the third. -/
theorem walkAllocationsDf_preorder_sample : ∃ n, ∀ fuel, n ≤ fuel →
    samplePair.walkAllocationsDf fuel ⟨4096, .bigalloc 1, false⟩
      (fun s v => ((if s.length = 1 then -1 else if s.length = 2 then 7 else 0), s ++ [(v.obj, v.t)])) []
    = some (7, [(4200, 8), (4200, 16), (4204, 16)]) := by
  obtain ⟨⟨n, hn⟩, -⟩ := walkAllocationsDf_preorder samplePair ⟨4096, .bigalloc 1, false⟩ _ _ rfl
    (.cons rfl rfl (.cons rfl rfl .nil (.cons rfl rfl .nil .nil)) .nil)
  exact ⟨n, fun fuel hfuel => hn fuel hfuel _ _ _⟩

end WalkEnv

end Liballocs
