/-
Which allocations a walk calls back for.

Every walk is a list of calls, made until one does not return zero.  An imposed child is announced as
the bigalloc it is in, and what is still to be walked moves to the end of every child, skipped or not.
-/
import Liballocs.Walk

namespace Liballocs.WalkEnv

open Calls

variable {σ : Type} {env : WalkEnv} {b coord w : Nat} {sa : Allocator} {maybeRangeEnd : Option Nat}
  {cb : WalkAllocCb σ} {children : List Nat}

/-! ### The calls that are made -/

/-- The child is walked, from some place on. -/
def Reached (env : WalkEnv) (b : Nat) (maybeRangeEnd : Option Nat) (w child : Nat) : Prop :=
  w < (env.table.bigAllocations child).end_
    ∧ maybeRangeEnd.any (· < (env.table.bigAllocations child).begin) = false
    ∧ env.isImposed b child

instance (child : Nat) : Decidable (env.Reached b maybeRangeEnd w child) := inferInstanceAs (Decidable (_ ∧ _))

/-- The calls under a bigalloc, from a place on. -/
def callsFrom (env : WalkEnv) (b : Nat) (sa : Allocator) (maybeRangeEnd : Option Nat) :
    List Nat → Nat → Nat → List (AllocVisit AllocTreeLink)
  | [], _, w => env.allocationsIn sa b w (env.rangeEnd b maybeRangeEnd)
  | child :: rest, coord, w =>
    (if env.Reached b maybeRangeEnd w child then
      env.allocationsIn sa b w (env.table.bigAllocations child).begin ++ [env.visitOf b coord]
    else []) ++ env.callsFrom b sa maybeRangeEnd rest (coord + 1)
      (env.table.bigAllocations child).end_

theorem not_reached_iff {child : Nat} :
    ¬ env.Reached b maybeRangeEnd w child ↔ (env.table child).end_ ≤ w
      ∨ maybeRangeEnd.any (· < (env.table child).begin)
      ∨ ¬ env.isImposed b child := by
  simp only [Reached, not_and_or, Nat.not_lt, Bool.not_eq_false]

theorem walkBigalloc_eq (hsa : (env.table b).suballocator = some sa) (s : σ) :
    env.walkBigalloc b cb maybeRangeEnd children coord w s
      = callEach cb (env.callsFrom b sa maybeRangeEnd children coord w) s := by
  induction children generalizing coord w s with
  | nil => simp [walkBigalloc, callsFrom, walkSuballocator, hsa]
  | cons child rest ih =>
    by_cases hr : env.Reached b maybeRangeEnd w child
    · rw [walkBigalloc, if_neg (mt not_reached_iff.mpr (not_not.mpr hr)), callsFrom, if_pos hr]
      simp only [walkSuballocator, hsa, callEach_append, ih, some_bind, Option.bind_assoc]
      congr 1
      funext r
      by_cases h : r.1 = 0
      · simp only [h, callEach, ne_eq, not_true, if_false, Option.bind_eq_bind, Option.bind_assoc]
        congr 1
        funext r
        by_cases h : r.1 = 0 <;> simp [h]
      · simp [h]
    · rw [walkBigalloc, if_pos (not_reached_iff.mp hr), callsFrom, if_neg hr, List.nil_append]
      exact ih s

theorem walkBigalloc_eq_none (hsa : (env.table b).suballocator = none) (s : σ) :
    env.walkBigalloc b cb maybeRangeEnd children coord w s = none := by
  induction children generalizing coord w with
  | nil => simp [walkBigalloc, walkSuballocator, hsa]
  | cons child rest ih => simp [walkBigalloc, walkSuballocator, hsa, ih]

/-- The calls under a position. -/
def callsAt (env : WalkEnv) (scope : AllocTreePos) (maybeRangeBegin maybeRangeEnd : Option Nat) :
    Option (List (AllocVisit AllocTreeLink)) :=
  match scope.bigallocOrUniqtype with
  | .bigalloc b => do
    let sa ← (env.table.bigAllocations b).suballocator
    let children ← env.consideredChildren scope b
    return env.callsFrom b sa maybeRangeEnd children 1 (maybeRangeBegin.getD scope.base)
  | .uniqtype t => some (env.subobjectVisits scope t)

theorem walkAllocations_eq {scope : AllocTreePos} {maybeRangeBegin : Option Nat} (s : σ) :
    env.walkAllocations scope cb maybeRangeBegin maybeRangeEnd s
      = (env.callsAt scope maybeRangeBegin maybeRangeEnd).bind fun calls => callEach cb calls s := by
  unfold walkAllocations callsAt
  cases scope.bigallocOrUniqtype with
  | uniqtype t => rfl
  | bigalloc b =>
    cases hsa : (env.table b).suballocator with
    | none => simp [walkBigalloc_eq_none hsa, hsa]
    | some sa => simp [walkBigalloc_eq hsa, hsa, Option.bind_assoc]

/-! ### The calls that should be made -/

/-- Where the walk of a bigalloc begins. -/
def rangeBegin (env : WalkEnv) (b : Nat) (maybeRangeBegin : Option Nat) : Nat :=
  maybeRangeBegin.getD (env.table.bigAllocations b).begin

/-- The visits of imposed children that have something in the range. -/
def childVisits (env : WalkEnv) (b lo hi : Nat) (children : List Nat) : List (AllocVisit AllocTreeLink) :=
  (children.zipIdx 1).filterMap fun x =>
    let c := env.table.bigAllocations x.1
    if env.isImposed b x.1 ∧ lo < c.end_ ∧ c.begin < hi then
      some { env.visitOf b x.2 with maybeTheAllocation := x.1, obj := c.begin }
    else none

/-- The walk calls back for the imposed children and the suballocations in the range, by address. -/
def WalksRange (env : WalkEnv) (b : Nat) (children : List Nat)
    (maybeRangeBegin maybeRangeEnd : Option Nat) : Prop :=
  let r := env.table.bigAllocations b
  let lo := env.rangeBegin b maybeRangeBegin
  let hi := env.rangeEnd b maybeRangeEnd
  ∀ (σ : Type) (cb : WalkAllocCb σ) (s : σ),
    env.walkAllocations ⟨r.begin, .bigalloc b, true⟩ cb maybeRangeBegin maybeRangeEnd s
      = callEach cb ((env.childVisits b lo hi children
        ++ (r.suballocator.map fun sa => env.allocationsIn sa b lo hi).getD []).mergeSort
          fun v v' => v.obj ≤ v'.obj) s

/-- The children of a bigalloc are in order, and its suballocator has its allocations in order. -/
structure Ordered (env : WalkEnv) (b : Nat) (children : List Nat) : Prop where
  children_eq : env.table.children b = some children
  nonempty : ∀ c ∈ children, (env.table.bigAllocations c).begin < (env.table.bigAllocations c).end_
  sorted : children.Pairwise fun c d =>
    (env.table.bigAllocations c).end_ ≤ (env.table.bigAllocations d).begin
  not_mem : b ∉ children
  allocations_sorted : ∀ sa, (env.allocations sa b).Pairwise fun v v' => v.obj < v'.obj
  allocations_inside : ∀ sa, ∀ v ∈ env.allocations sa b, v.maybeTheAllocation ≠ b

/-- Where the last walk of suballocations begins. -/
def lastEnd (env : WalkEnv) (w : Nat) (children : List Nat) : Nat :=
  (children.getLast?.map fun c => (env.table.bigAllocations c).end_).getD w

/-- No imposed child is walked. -/
def NoneReached (env : WalkEnv) (b : Nat) (maybeRangeEnd : Option Nat) (w : Nat)
    (children : List Nat) : Prop :=
  ∀ c ∈ children, env.isImposed b c →
    maybeRangeEnd.any (· < (env.table.bigAllocations c).begin)
      ∨ (children.head? = some c ∧ (env.table.bigAllocations c).end_ ≤ w)

/-- Not one of several is walked if the first is not, nor any other from the end of the first on. -/
theorem noneReached_cons_iff {child : Nat} {rest : List Nat}
    (hafter : ∀ c ∈ rest, (env.table child).end_ < (env.table c).end_) :
    env.NoneReached b maybeRangeEnd w (child :: rest) ↔ ¬ env.Reached b maybeRangeEnd w child
        ∧ env.NoneReached b maybeRangeEnd (env.table child).end_ rest := by
  constructor
  · intro h
    constructor
    · intro hr
      rcases h child (.head _) hr.2.2 with hany | ⟨-, hle⟩
      · simp [hr.2.1] at hany
      · exact absurd hr.1 hle.not_gt
    · intro c hc hi
      refine (h c (.tail _ hc) hi).imp_right fun hhead => ?_
      obtain rfl : child = c := by simpa using hhead.1
      exact absurd (hafter child hc) (Nat.lt_irrefl _)
  · rintro ⟨hchild, hrest⟩ c hc hi
    rcases List.mem_cons.mp hc with rfl | hc
    · rcases not_reached_iff.mp hchild with hle | hany | hno
      · exact .inr ⟨rfl, hle⟩
      · exact .inl hany
      · exact absurd hi hno
    · exact (hrest c hc hi).imp_right fun hle => absurd (hafter c hc) hle.2.not_gt

/-- Each child ends behind those before it. -/
def EndsIncrease (env : WalkEnv) (children : List Nat) : Prop :=
  children.Pairwise fun c d => (env.table.bigAllocations c).end_ < (env.table.bigAllocations d).end_

theorem callsFrom_eq (hs : env.EndsIncrease children) (h : env.NoneReached b maybeRangeEnd w children) :
    env.callsFrom b sa maybeRangeEnd children coord w
      = env.allocationsIn sa b (env.lastEnd w children) (env.rangeEnd b maybeRangeEnd) := by
  induction children generalizing coord w with
  | nil => rfl
  | cons child rest ih =>
    obtain ⟨hafter, hs⟩ := List.pairwise_cons.mp hs
    obtain ⟨hchild, hrest⟩ := (noneReached_cons_iff hafter).mp h
    rw [callsFrom, if_neg hchild, List.nil_append, ih hs hrest]
    cases rest with
    | nil => rfl
    | cons d rest => simp [lastEnd, List.getLast?_cons]

theorem exists_visitOf_mem (sa : Allocator) (coord : Nat) (hs : env.EndsIncrease children)
    (h : ¬ env.NoneReached b maybeRangeEnd w children) :
    ∃ k, env.visitOf b k ∈ env.callsFrom b sa maybeRangeEnd children coord w := by
  induction children generalizing coord w with
  | nil => exact absurd (fun c hc => absurd hc List.not_mem_nil) h
  | cons child rest ih =>
    obtain ⟨hafter, hs⟩ := List.pairwise_cons.mp hs
    rw [callsFrom]
    by_cases hr : env.Reached b maybeRangeEnd w child
    · exact ⟨coord, by simp [hr]⟩
    · obtain ⟨k, hk⟩ := ih (coord + 1) hs fun hrest =>
        h ((noneReached_cons_iff hafter).mpr ⟨hr, hrest⟩)
      exact ⟨k, List.mem_append_right _ hk⟩

theorem Ordered.endsIncrease (h : env.Ordered b children) : env.EndsIncrease children := by
  refine h.sorted.imp_of_mem fun _ hd hle => ?_
  exact hle.trans_lt (h.nonempty _ hd)

/-- If no imposed child is walked, none has anything in the range. -/
theorem NoneReached.childVisits_eq_nil (h : env.NoneReached b maybeRangeEnd w children) :
    env.childVisits b w (env.rangeEnd b maybeRangeEnd) children = [] := by
  refine List.filterMap_eq_nil_iff.mpr fun x hx => if_neg fun hc => ?_
  have hmem : x.1 ∈ children := List.fst_mem_of_mem_zipIdx hx
  rcases h x.1 hmem hc.1 with hany | ⟨-, hle⟩
  · cases maybeRangeEnd with
    | none => exact absurd hany (by simp)
    | some e =>
      have : e < (env.table x.1).begin := by simpa using hany
      exact absurd hc.2.2 (Nat.le_of_lt this).not_gt
  · exact absurd hc.2.1 hle.not_gt

/-- A visit of the bigalloc itself is none of those that should be made. -/
theorem Ordered.visitOf_not_mem (h : env.Ordered b children) (lo hi k : Nat) :
    env.visitOf b k ∉ env.childVisits b lo hi children ++ env.allocationsIn sa b lo hi := by
  intro hmem
  rcases List.mem_append.mp hmem with hmem | hmem
  · obtain ⟨x, hx, heq⟩ := List.mem_filterMap.mp hmem
    obtain ⟨-, heq⟩ := Option.ite_none_right_eq_some.mp heq
    have hself : x.1 = b := congrArg AllocVisit.maybeTheAllocation (Option.some.inj heq)
    exact h.not_mem (hself ▸ List.fst_mem_of_mem_zipIdx hx)
  · exact h.allocations_inside sa _ (List.mem_of_mem_filter hmem) rfl

/-- **The walk is right** if and only if there is a suballocator, no imposed child is walked, and no
suballocation in the range is below the end of the last child. -/
theorem walkAllocations_walksRange_iff (env : WalkEnv) (b : Nat) (children : List Nat)
    (maybeRangeBegin maybeRangeEnd : Option Nat) (h : env.Ordered b children) :
    env.WalksRange b children maybeRangeBegin maybeRangeEnd
      ↔ ∃ sa, (env.table.bigAllocations b).suballocator = some sa
        ∧ env.NoneReached b maybeRangeEnd (env.rangeBegin b maybeRangeBegin) children
        ∧ env.allocationsIn sa b (env.rangeBegin b maybeRangeBegin) (env.rangeEnd b maybeRangeEnd)
          = env.allocationsIn sa b (env.lastEnd (env.rangeBegin b maybeRangeBegin) children)
            (env.rangeEnd b maybeRangeEnd) := by
  have hsort : ∀ sa lo hi, (env.allocationsIn sa b lo hi).mergeSort (fun v v' => v.obj ≤ v'.obj)
      = env.allocationsIn sa b lo hi := by
    intro sa lo hi
    refine List.mergeSort_of_pairwise (((h.allocations_sorted sa).filter _).imp fun hlt => ?_)
    simpa using Nat.le_of_lt hlt
  unfold WalksRange rangeBegin
  simp only [walkAllocations_eq, callsAt, consideredChildren, if_true, h.children_eq]
  cases hsa : (env.table b).suballocator with
  | none =>
    refine iff_of_false (fun hw => ?_) (by simp)
    have hrun := hw _ (fun s a => some (0, s ++ [a])) []
    rw [callEach_record] at hrun
    exact nomatch hrun
  | some sa =>
    simp only [Option.bind_eq_bind, Option.bind_some, Option.pure_def, Option.map_some,
      Option.getD_some, Option.some.injEq, exists_eq_left']
    constructor
    · intro hw
      have hcalls := eq_of_callEach_eq hw
      have hnone : env.NoneReached b maybeRangeEnd
          (maybeRangeBegin.getD (env.table b).begin) children := by
        by_contra hreached
        obtain ⟨k, hk⟩ := exists_visitOf_mem sa 1 h.endsIncrease hreached
        rw [hcalls, List.mem_mergeSort] at hk
        exact h.visitOf_not_mem _ _ k hk
      rw [callsFrom_eq h.endsIncrease hnone, hnone.childVisits_eq_nil, List.nil_append, hsort]
        at hcalls
      exact ⟨hnone, hcalls.symm⟩
    · intro hcond σ cb s
      rw [callsFrom_eq h.endsIncrease hcond.1, hcond.1.childVisits_eq_nil, List.nil_append, hsort,
        hcond.2]

/-- Four thousand bytes with suballocations at 4200 and 7000 and a child at 5000, by some allocator. -/
def sampleWalk (suballocator : Option Allocator) (allocatedBy : Allocator) : WalkEnv where
  table.bigAllocations := fun n =>
    if n = 1 then { begin := 4096, end_ := 8192, suballocator := suballocator, firstChild := 2 }
    else if n = 2 then { begin := 5000, end_ := 6000, allocatedBy := some allocatedBy } else {}
  forEachSubobject := fun _ => []
  allocations := fun _ b => [4200, 7000].map fun a =>
    { maybeTheAllocation := 0, obj := a, link := ⟨⟨4096, .bigalloc b, false⟩, 0⟩ }

theorem sampleWalk_ordered (suballocator : Option Allocator) (allocatedBy : Allocator) :
    (sampleWalk suballocator allocatedBy).Ordered 1 [2] where
  children_eq := rfl
  nonempty := by simp [sampleWalk]
  sorted := List.pairwise_singleton _ _
  not_mem := by decide
  allocations_sorted := by simp [sampleWalk]
  allocations_inside := by simp [sampleWalk]

/-- From the end of the child on the walk is right. -/
theorem walkAllocations_walksRange_sample :
    (sampleWalk (some .genericSmall) .genericSmall).WalksRange 1 [2] (some 6000) none :=
  (walkAllocations_walksRange_iff _ 1 [2] (some 6000) none (sampleWalk_ordered _ _)).mpr
    ⟨.genericSmall, rfl, by simp [NoneReached, sampleWalk, isImposed], by decide⟩

/-- The bigallocs and the addresses that a walk of the whole calls back with. -/
def sampleCalls (suballocator : Option Allocator) (allocatedBy : Allocator) :
    Option (List (Nat × Nat)) :=
  ((sampleWalk suballocator allocatedBy).walkAllocations ⟨4096, .bigalloc 1, true⟩
    (fun s v => some (0, s ++ [v])) none none []).map
      fun r => r.2.map fun v => (v.maybeTheAllocation, v.obj)

/-- **Three wrong walks**: an imposed child is announced as the bigalloc around it, a suballocation
before another child is left out, and without a suballocator there is no walk. -/
theorem walkAllocations_wrong : (∀ sa al, (sampleWalk sa al).Ordered 1 [2])
    ∧ sampleCalls (some .genericSmall) .stack = some [(0, 4200), (1, 4096), (0, 7000)]
    ∧ sampleCalls (some .genericSmall) .genericSmall = some [(0, 7000)]
    ∧ sampleCalls none .stack = none :=
  ⟨sampleWalk_ordered, by decide, by decide, by decide⟩

end Liballocs.WalkEnv
