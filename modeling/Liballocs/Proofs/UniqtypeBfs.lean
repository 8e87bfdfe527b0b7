/-
The walk of the object graph visits every object that can be reached, once.

Each round is a round of `Bfs.search`, whose known objects are those that are not white, and the head of
the queue.  An object must be of one type by whatever pointer it is found, and types nest to a finite
depth.
-/
import Mathlib.Data.Set.Finite.Lattice
import Liballocs.Lib.Bfs
import Liballocs.UniqtypeBfs

namespace Liballocs

variable {env : BfsEnv} {typeOf depth : Nat → Nat} {obj start t fuel typeFuel root o : Nat}
  {s : BfsState} {l q : List NodeRec} {queue done known all : List Nat} {α β : Type} {u : NodeRec}

/-! ### The queues -/

/-- The nodes from an address on along the `next` pointers. -/
def Chain (next : Nat → Nat) : Nat → List Nat → Prop
  | p, [] => p = 0
  | p, n :: l => p = n ∧ n ≠ 0 ∧ Chain next (next n) l

/-- A queue holds these nodes, in order. -/
structure QueueEnds.Holds (q : QueueEnds) (next : Nat → Nat) (l : List Nat) : Prop where
  chain : Chain next q.head l
  tail_eq : q.tail = l.getLast?.getD 0
  nodup : l.Nodup

theorem Chain.ne_zero {next : Nat → Nat} {p n : Nat} {l : List Nat} (h : Chain next p l)
    (hn : n ∈ l) : n ≠ 0 := by
  induction l generalizing p with
  | nil => cases hn
  | cons m l ih =>
    rcases List.mem_cons.mp hn with rfl | hn
    · exact h.2.1
    · exact ih h.2.2 hn

theorem Chain.congr {next next' : Nat → Nat} {p : Nat} {l : List Nat} (h : Chain next p l)
    (heq : ∀ n ∈ l, next' n = next n) : Chain next' p l := by
  induction l generalizing p with
  | nil => exact h
  | cons n l ih =>
    refine ⟨h.1, h.2.1, ?_⟩
    rw [heq n (.head _)]
    exact ih h.2.2 fun m hm => heq m (.tail _ hm)

/-- A queue is not changed where none of its nodes is. -/
theorem QueueEnds.Holds.update {q : QueueEnds} {next : Nat → Nat} {l : List Nat} {n v : Nat}
    (h : q.Holds next l) (hn : n ∉ l) : q.Holds (Function.update next n v) l :=
  ⟨h.chain.congr fun _ hm => Function.update_of_ne (ne_of_mem_of_not_mem hm hn) _ _, h.tail_eq,
    h.nodup⟩

theorem Chain.append {next : Nat → Nat} {p a b : Nat} {l : List Nat} (h : Chain next p (l ++ [a]))
    (hal : a ∉ l) (hb : b ≠ 0) (hba : b ≠ a) (hnext : next b = 0) :
    Chain (Function.update next a b) p (l ++ [a] ++ [b]) := by
  induction l generalizing p with
  | nil =>
    refine ⟨h.1, h.2.1, ?_, hb, ?_⟩
    · rw [Function.update_self]
    · rw [Function.update_of_ne hba, hnext]
      rfl
  | cons n l ih =>
    have hna : n ≠ a := fun hc => hal (hc ▸ .head _)
    refine ⟨h.1, h.2.1, ?_⟩
    rw [Function.update_of_ne hna]
    exact ih h.2.2 fun hc => hal (.tail _ hc)

/-- **A node is pushed behind the others**, and only the last one's `next` pointer changes. -/
theorem QueueEnds.Holds.pushTail {q : QueueEnds} {next : Nat → Nat} {l : List Nat} {n : Nat}
    (h : q.Holds next l) (hn : n ≠ 0) (hnl : n ∉ l) (hnext : next n = 0) :
    (uniqtypeNodeQueuePushTail q next n).1.Holds (uniqtypeNodeQueuePushTail q next n).2 (l ++ [n])
      ∧ ∀ m, m ∉ l → (uniqtypeNodeQueuePushTail q next n).2 m = next m := by
  rcases List.eq_nil_or_concat l with rfl | ⟨init, a, rfl⟩
  · have htail : ¬ q.tail ≠ 0 := by simp [h.tail_eq]
    rw [uniqtypeNodeQueuePushTail, if_neg htail]
    exact ⟨⟨⟨rfl, hn, hnext⟩, rfl, List.nodup_singleton n⟩, fun _ _ => rfl⟩
  · rw [List.concat_eq_append] at h hnl ⊢
    have htail : q.tail = a := by simp [h.tail_eq]
    have ha : a ≠ 0 := h.chain.ne_zero (by simp)
    obtain ⟨-, -, hdis⟩ := List.nodup_append.mp h.nodup
    rw [uniqtypeNodeQueuePushTail, if_pos (htail ▸ ha), htail]
    refine ⟨⟨h.chain.append (fun hc => hdis a hc a (by simp) rfl) hn (by simp_all) hnext, by simp,
      ?_⟩, fun m hm => Function.update_of_ne (by simp_all) _ _⟩
    exact List.nodup_append.mpr ⟨h.nodup, List.nodup_singleton n, fun x hx y hy hxy =>
      hnl (List.mem_singleton.mp hy ▸ hxy ▸ hx)⟩

/-- **The first node is popped**, and only its own `next` pointer changes. -/
theorem QueueEnds.Holds.popHead {q : QueueEnds} {next : Nat → Nat} {l : List Nat} {n : Nat}
    (h : q.Holds next (n :: l)) : ∃ q', uniqtypeNodeQueuePopHead q next = (n, q', Function.update next n 0)
      ∧ q'.Holds (Function.update next n 0) l := by
  obtain ⟨hhead, hn, hchain⟩ := h.chain
  obtain ⟨hnl, hnodup⟩ := List.nodup_cons.mp h.nodup
  rw [uniqtypeNodeQueuePopHead, if_pos (hhead ▸ hn), hhead]
  refine ⟨_, rfl, QueueEnds.Holds.update ⟨hchain, ?_, hnodup⟩ hnl⟩
  cases l with
  | nil => exact if_pos hchain
  | cons m l =>
    have hm : next n ≠ 0 := by
      rw [hchain.1]
      exact hchain.2.1
    rw [if_neg hm, h.tail_eq]
    simp

/-- **The loop over the adjacency list keeps the queue in step**: it returns, with the state that the
nodes lead to one after the other, and the queue holds the nodes that are in the list. -/
theorem drainAdjacent_eq (node : Nat → NodeRec) {adj m : List Nat} {adjU q : QueueEnds}
    {next : Nat → Nat} (hadj : adjU.Holds next adj) (hq : q.Holds next m) (hapart : adj.Disjoint m)
    (hs : s.queue = m.map node) (hf : adj.length < fuel) :
    ∃ q' next' m', drainAdjacent node fuel adjU q next s
        = some (q', next', (adj.map node).foldl BfsState.considerAdjacent s)
      ∧ q'.Holds next' m'
      ∧ ((adj.map node).foldl BfsState.considerAdjacent s).queue = m'.map node := by
  induction adj generalizing adjU q next m s fuel with
  | nil =>
    obtain ⟨fuel, rfl⟩ := Nat.exists_eq_succ_of_ne_zero (Nat.ne_zero_of_lt hf)
    have hhead : ¬ adjU.head ≠ 0 := not_not.mpr hadj.chain
    refine ⟨q, next, m, ?_, hq, hs⟩
    simp [drainAdjacent, uniqtypeNodeQueuePopHead, hhead]
  | cons v adj ih =>
    obtain ⟨fuel, rfl⟩ := Nat.exists_eq_succ_of_ne_zero (Nat.ne_zero_of_lt hf)
    have hv : v ≠ 0 := hadj.chain.ne_zero (.head _)
    obtain ⟨hvm, hapart⟩ := List.disjoint_cons_left.mp hapart
    obtain ⟨hva, -⟩ := List.nodup_cons.mp hadj.nodup
    obtain ⟨adjU', hpop, hadj⟩ := hadj.popHead
    have hf : adj.length < fuel := by simpa using hf
    by_cases hwhite : s.colours (node v).obj = .white
    · obtain ⟨hq', hsame⟩ := (hq.update (v := 0) hvm).pushTail hv hvm (Function.update_self ..)
      have hadj' := hadj.chain.congr fun n hn => hsame n fun hc => hapart hn hc
      obtain ⟨q', next', m', hrun, hholds, hqueue⟩ := ih ⟨hadj', hadj.tail_eq, hadj.nodup⟩ hq'
        (List.disjoint_append_right.mpr ⟨hapart, List.disjoint_singleton.mpr hva⟩)
        (s := s.considerAdjacent (node v)) (by simp [BfsState.considerAdjacent, hwhite, hs]) hf
      refine ⟨q', next', m', ?_, hholds, hqueue⟩
      rw [drainAdjacent, hpop]
      simpa [hv, hwhite] using hrun
    · obtain ⟨q', next', m', hrun, hholds, hqueue⟩ := ih hadj (hq.update hvm) hapart
        (s := s.considerAdjacent (node v)) (by simp [BfsState.considerAdjacent, hwhite, hs]) hf
      refine ⟨q', next', m', ?_, hholds, hqueue⟩
      rw [drainAdjacent, hpop]
      simpa [hv, hwhite] using hrun

/-! ### Flattening a type -/

/-- The type that comes with an object depends on the object only. -/
def FollowsTyped (env : BfsEnv) (typeOf : Nat → Nat) : Prop :=
  ∀ p static, (env.followPtr p static).1 ≠ 0 →
    (env.followPtr p static).2 = typeOf (env.followPtr p static).1

/-- Composites nest to the depth given. -/
def NestsTo (env : BfsEnv) (depth : Nat → Nat) : Prop :=
  ∀ t, ∀ p ∈ env.forEachSubobject t, (env.types p.1).isCompositeType = true →
    depth p.1 < depth t

/-- One object leads to another: with enough fuel, the other is in its adjacency list. -/
def Adjacent (env : BfsEnv) (typeOf : Nat → Nat) (o o' : Nat) : Prop :=
  ∃ N, ∀ fuel ≥ N, ∃ l, buildAdjacencyListRecursive env o fuel 0 (typeOf o) = some l
    ∧ o' ∈ l.map NodeRec.obj

/-- An object can be reached from another over pointers. -/
def Reachable (env : BfsEnv) (typeOf : Nat → Nat) : Nat → Nat → Prop :=
  Relation.ReflTransGen (Adjacent env typeOf)

theorem mapM_eq_some {f : α → Option β} {g : α → β} {l : List α}
    (h : ∀ a ∈ l, f a = some (g a)) : l.mapM f = some (l.map g) := by
  induction l with
  | nil => rfl
  | cons a l ih =>
    rw [List.mapM_cons, h a (.head _), ih fun b hb => h b (.tail _ hb)]
    rfl

theorem exists_of_mapM {f : α → Option β} {l : List α} {l' : List β} (h : l.mapM f = some l')
    {b : β} (hb : b ∈ l') : ∃ a ∈ l, f a = some b := by
  induction l generalizing l' with
  | nil =>
    obtain rfl := Option.some_inj.mp h
    cases hb
  | cons a l ih =>
    rw [List.mapM_cons] at h
    obtain ⟨c, hc, h⟩ := Option.bind_eq_some_iff.mp h
    obtain ⟨k, hk, h⟩ := Option.bind_eq_some_iff.mp h
    obtain rfl := Option.some_inj.mp h
    rcases List.mem_cons.mp hb with rfl | hb
    · exact ⟨a, .head _, hc⟩
    · obtain ⟨a', ha', hfa'⟩ := ih hk hb
      exact ⟨a', .tail _ ha', hfa'⟩

/-- With fuel beyond its depth, flattening a type returns, and always the same. -/
theorem NestsTo.exists_adjacency (h : NestsTo env depth) (obj start t : Nat) :
    ∃ l, ∀ fuel, depth t < fuel → buildAdjacencyListRecursive env obj fuel start t = some l := by
  induction hd : depth t using Nat.strongRecOn generalizing start t with
  | ind d ih =>
    have hsub : ∀ p ∈ env.forEachSubobject t, ∃ found, ∀ fuel, d ≤ fuel →
        (if (env.types p.1).isPointerType then
            some (visitPointer env (obj + start + p.2) (env.types p.1).pointeeType)
          else if (env.types p.1).isCompositeType then
            buildAdjacencyListRecursive env obj fuel (start + p.2) p.1
          else some []) = some found := by
      intro p hp
      by_cases hptr : (env.types p.1).isPointerType = true
      · exact ⟨_, fun fuel _ => if_pos hptr⟩
      · by_cases hcomp : (env.types p.1).isCompositeType = true
        · have hlt := h t p hp hcomp
          obtain ⟨found, hfound⟩ := ih (depth p.1) (hd ▸ hlt) (start + p.2) p.1 rfl
          refine ⟨found, fun fuel hfuel => ?_⟩
          rw [if_neg hptr, if_pos hcomp]
          exact hfound fuel (by omega)
        · refine ⟨[], fun fuel _ => ?_⟩
          rw [if_neg hptr, if_neg hcomp]
    choose! g hg using hsub
    by_cases hvoid : t = env.voidType ∨ t = 0
    · refine ⟨[], fun fuel hfuel => ?_⟩
      obtain ⟨fuel, rfl⟩ : ∃ k, fuel = k + 1 := ⟨_, (Nat.sub_add_cancel (by omega)).symm⟩
      rw [buildAdjacencyListRecursive]
      rcases hvoid with hvoid | hzero
      · rw [if_pos hvoid]
      · rw [if_pos hzero, ite_self]
    · obtain ⟨hvoid, hzero⟩ := not_or.mp hvoid
      refine ⟨((env.forEachSubobject t).map g).flatten, fun fuel hfuel => ?_⟩
      obtain ⟨fuel, rfl⟩ : ∃ k, fuel = k + 1 := ⟨_, (Nat.sub_add_cancel (by omega)).symm⟩
      rw [buildAdjacencyListRecursive, if_neg hvoid, if_neg hzero,
        mapM_eq_some fun p hp => hg p hp fuel (by omega)]
      rfl

theorem FollowsTyped.adjacency (h : FollowsTyped env typeOf)
    (hl : buildAdjacencyListRecursive env obj fuel start t = some l) :
    ∀ v ∈ l, v.t = typeOf v.obj := by
  induction fuel generalizing start t l with
  | zero => exact nomatch hl
  | succ fuel ih =>
    intro v hv
    rw [buildAdjacencyListRecursive] at hl
    split at hl
    · cases hl
      cases hv
    · split at hl
      · cases hl
        cases hv
      · obtain ⟨found, hfound, hl⟩ := Option.bind_eq_some_iff.mp hl
        obtain rfl := Option.some_inj.mp hl
        obtain ⟨vs, hvs, hv⟩ := List.mem_flatten.mp hv
        obtain ⟨p, -, hp⟩ := exists_of_mapM hfound hvs
        simp only at hp
        split at hp
        · cases hp
          unfold visitPointer at hv
          simp only at hv
          split at hv
          · split at hv
            next hne =>
              rw [List.mem_singleton.mp hv]
              exact h _ _ hne
            next => cases hv
          · cases hv
        · split at hp
          · exact ih hp v hv
          · cases hp
            cases hv

/-! ### The adjacency list of one object -/

/-- The objects of which it is known that they are not white. -/
def Knows (s : BfsState) (known : List Nat) : Prop := ∀ o, s.colours o ≠ .white ↔ o ∈ known

theorem Knows.setColour {c : NodeColour} (h : Knows s known) (hc : c ≠ .white)
    (ho : o ∈ known) : Knows (s.setColour o c) known := by
  intro x
  simp only [BfsState.setColour]
  split
  next hx => exact iff_of_true hc (hx ▸ ho)
  next => exact h x

theorem considerAdjacent_foldl (h : Knows s known) (l : List NodeRec) :
    Knows (l.foldl BfsState.considerAdjacent s) (known ++ Bfs.fresh known (l.map NodeRec.obj))
      ∧ (l.foldl BfsState.considerAdjacent s).queue.map NodeRec.obj
        = s.queue.map NodeRec.obj ++ Bfs.fresh known (l.map NodeRec.obj)
      ∧ (∀ v ∈ (l.foldl BfsState.considerAdjacent s).queue, v ∈ s.queue ∨ v ∈ l)
      ∧ (l.foldl BfsState.considerAdjacent s).blackened = s.blackened := by
  induction l generalizing s known with
  | nil => simpa [Bfs.fresh] using h
  | cons v l ih =>
    rw [List.foldl_cons, List.map_cons, Bfs.fresh]
    by_cases hv : v.obj ∈ known
    · have hskip : s.considerAdjacent v = s := if_neg ((h v.obj).mpr hv)
      rw [if_pos hv, hskip]
      obtain ⟨hknows, hqueue, hfrom, hblack⟩ := ih h
      exact ⟨hknows, hqueue, fun w hw => (hfrom w hw).imp_right (List.mem_cons_of_mem _), hblack⟩
    · have hwhite : s.colours v.obj = .white := by
        by_contra hc
        exact hv ((h v.obj).mp hc)
      have hknows1 : Knows (s.considerAdjacent v) (known ++ [v.obj]) := by
        intro x
        rw [BfsState.considerAdjacent, if_pos hwhite]
        simp only [BfsState.setColour, List.mem_append, List.mem_singleton]
        split
        next hx => exact iff_of_true (by decide) (.inr hx)
        next hx => rw [h x, or_iff_left hx]
      have hqueue1 : (s.considerAdjacent v).queue = s.queue ++ [v] := by
        rw [BfsState.considerAdjacent, if_pos hwhite]
      have hblack1 : (s.considerAdjacent v).blackened = s.blackened := by
        rw [BfsState.considerAdjacent, if_pos hwhite]
        rfl
      obtain ⟨hknows, hqueue, hfrom, hblack⟩ := ih hknows1
      rw [if_neg hv]
      refine ⟨?_, ?_, fun w hw => ?_, hblack.trans hblack1⟩
      · rw [List.append_cons]
        exact hknows
      · rw [hqueue, hqueue1, List.map_append, List.append_assoc]
        rfl
      · rcases hfrom w hw with hw | hw
        · rw [hqueue1] at hw
          rcases List.mem_append.mp hw with hw | hw
          · exact .inl hw
          · exact .inr (List.mem_singleton.mp hw ▸ List.mem_cons_self)
        · exact .inr (.tail _ hw)

/-! ### The loop -/

/-- The state of the loop stands for that of a search on addresses. -/
structure Simulates (typeOf : Nat → Nat) (s : BfsState) (queue done : List Nat) : Prop where
  queue_eq : s.queue.map NodeRec.obj = queue
  done_eq : s.blackened.map NodeRec.obj = done
  typed : ∀ v ∈ s.queue, v.t = typeOf v.obj
  /-- The head of the queue is known whatever its colour. -/
  known : ∀ o, (s.colours o ≠ .white ∨ queue.head? = some o) ↔ o ∈ done ++ queue

theorem Simulates.step (h : Simulates typeOf s queue done) (ht : FollowsTyped env typeOf)
    (hq : s.queue = u :: q) (hl : buildAdjacencyListRecursive env u.obj typeFuel 0 u.t = some l) :
    queue = u.obj :: q.map NodeRec.obj ∧ Simulates typeOf ((l.foldl BfsState.considerAdjacent
          ({ s with queue := q }.setColour u.obj .grey)).blacken u)
        (q.map NodeRec.obj ++ Bfs.fresh (done ++ u.obj :: q.map NodeRec.obj) (l.map NodeRec.obj))
        (done ++ [u.obj]) := by
  obtain rfl : queue = u.obj :: q.map NodeRec.obj := by
    rw [← h.queue_eq, hq]
    rfl
  refine ⟨rfl, ?_⟩
  have hu : u.obj ∈ done ++ u.obj :: q.map NodeRec.obj := by simp
  have hgrey : Knows ({ s with queue := q }.setColour u.obj .grey)
      (done ++ u.obj :: q.map NodeRec.obj) := by
    intro x
    rw [← h.known x]
    simp only [BfsState.setColour, List.head?_cons, Option.some_inj]
    split
    next hx => exact iff_of_true nofun (.inr hx.symm)
    next hx => rw [or_iff_left fun hc => hx hc.symm]
  obtain ⟨hknows, hqueue, hfrom, hblack⟩ := considerAdjacent_foldl hgrey l
  have hblackened := hknows.setColour (c := .black) nofun (List.mem_append_left _ hu)
  refine ⟨hqueue, ?_, fun v hv => ?_, fun x => ?_⟩
  · simp only [BfsState.blacken, List.map_append, hblack]
    rw [← h.done_eq]
    rfl
  · rcases hfrom v hv with hv | hv
    · exact h.typed v (by rw [hq]; exact .tail _ hv)
    · exact ht.adjacency hl v hv
  · have hassoc : done ++ [u.obj] ++ (q.map NodeRec.obj
          ++ Bfs.fresh (done ++ u.obj :: q.map NodeRec.obj) (l.map NodeRec.obj))
        = (done ++ u.obj :: q.map NodeRec.obj)
          ++ Bfs.fresh (done ++ u.obj :: q.map NodeRec.obj) (l.map NodeRec.obj) := by simp
    have hx := hblackened x
    rw [hassoc]
    refine ⟨fun hc => ?_, fun hmem => .inl (hx.mpr hmem)⟩
    rcases hc with hc | hc
    · exact hx.mp hc
    · rw [← hassoc]
      exact List.mem_append_right _ (List.mem_of_mem_head? hc)

theorem processBfsQueueAndMaps_nil (hq : s.queue = []) :
    processBfsQueueAndMaps env typeFuel fuel s = some s := by
  rw [processBfsQueueAndMaps.eq_def]
  simp [hq]

theorem processBfsQueueAndMaps_cons (hq : s.queue = u :: q)
    (hl : buildAdjacencyListRecursive env u.obj typeFuel 0 u.t = some l) :
    processBfsQueueAndMaps env typeFuel (fuel + 1) s
      = processBfsQueueAndMaps env typeFuel fuel ((l.foldl BfsState.considerAdjacent
        ({ s with queue := q }.setColour u.obj .grey)).blacken u) := by
  rw [processBfsQueueAndMaps.eq_def]
  simp [hq, hl, Option.bind_eq_bind, Option.bind_some]

theorem Simulates.process_nil {adj : Nat → List Nat} (h : Simulates typeOf s queue done)
    (hq : s.queue = []) (hall : Bfs.search adj fuel queue done = some all) :
    processBfsQueueAndMaps env typeFuel fuel s = some s ∧ Simulates typeOf s [] all := by
  obtain rfl : queue = [] := by rw [← h.queue_eq, hq, List.map_nil]
  rw [Bfs.search] at hall
  obtain rfl := Option.some_inj.mp hall
  exact ⟨processBfsQueueAndMaps_nil hq, h⟩

/-- The loop returns whenever the search does, and blackens what the search does. -/
theorem Simulates.process {adj : Nat → List NodeRec} (h : Simulates typeOf s queue done)
    (ht : FollowsTyped env typeOf)
    (hinv : Bfs.Inv (fun o => (adj o).map NodeRec.obj) root queue done)
    (hadj : ∀ o, Bfs.Reach (fun o => (adj o).map NodeRec.obj) root o →
      buildAdjacencyListRecursive env o typeFuel 0 (typeOf o) = some (adj o))
    (hall : Bfs.search (fun o => (adj o).map NodeRec.obj) fuel queue done = some all) :
    ∃ s', processBfsQueueAndMaps env typeFuel fuel s = some s' ∧ Simulates typeOf s' [] all := by
  induction fuel generalizing s queue done with
  | zero =>
    cases hq : s.queue with
    | nil => exact ⟨s, h.process_nil hq hall⟩
    | cons u q =>
      rw [← h.queue_eq, hq] at hall
      exact nomatch hall
  | succ fuel ih =>
    cases hq : s.queue with
    | nil => exact ⟨s, h.process_nil hq hall⟩
    | cons u q =>
      have hmem : u.obj ∈ queue := by
        rw [← h.queue_eq, hq]
        exact (.head _)
      have hl := hadj u.obj (hinv.sound u.obj (List.mem_append_right _ hmem))
      rw [← h.typed u (by rw [hq]; exact (.head _))] at hl
      obtain ⟨rfl, hstep⟩ := h.step ht hq hl
      obtain ⟨s', hs', hend⟩ := ih hstep hinv.step hall
      exact ⟨s', (processBfsQueueAndMaps_cons hq hl).trans hs', hend⟩

/-- If finitely many objects can be reached, the loop ends with a search that has done each of them
once. -/
theorem exists_processBfsQueueAndMaps (ht : FollowsTyped env typeOf) (hdepth : NestsTo env depth)
    (hfin : {o | Reachable env typeOf root o}.Finite) :
    ∃ N, ∀ fuel ≥ N, ∃ s all,
      processBfsQueueAndMaps env fuel fuel { queue := [⟨root, typeOf root⟩] } = some s
      ∧ Simulates typeOf s [] all ∧ all.Nodup
      ∧ ∀ o, o ∈ all ↔ Reachable env typeOf root o := by
  choose adj hadj using fun o => hdepth.exists_adjacency o 0 (typeOf o)
  have hgraph : Reachable env typeOf root = Bfs.Reach (fun o => (adj o).map NodeRec.obj) root := by
    unfold Reachable Bfs.Reach
    congr 1
    funext o o'
    refine propext ⟨fun ⟨N, hN⟩ => ?_, fun hmem => ⟨depth (typeOf o) + 1, fun fuel hf =>
      ⟨adj o, hadj o fuel hf, hmem⟩⟩⟩
    obtain ⟨l, hl, hmem⟩ := hN (N + depth (typeOf o) + 1) (by omega)
    rw [hadj o _ (by omega)] at hl
    rw [← Option.some_inj.mp hl] at hmem
    exact hmem
  rw [hgraph] at hfin ⊢
  obtain ⟨D, hD⟩ := (hfin.image fun o => depth (typeOf o)).bddAbove
  refine ⟨hfin.toFinset.card + D + 1, fun fuel hf => ?_⟩
  obtain ⟨all, hall, hnodup, hmem⟩ := Bfs.search_spec hfin (show _ ≤ fuel by omega)
  have hinit : Simulates typeOf { queue := [⟨root, typeOf root⟩] } [root] [] :=
    ⟨rfl, rfl, by simp, fun o => by simp [eq_comm]⟩
  obtain ⟨s', hs', hend⟩ := hinit.process ht (Bfs.inv_init _ root) (fun o ho => hadj o fuel (by
      have := hD (Set.mem_image_of_mem _ ho)
      omega)) hall
  exact ⟨s', all, hs', hend, hnodup, hmem⟩

/-- From any object, whatever cycles and shared targets there are, if finitely many objects can be
reached, the walk returns with enough fuel and calls the function exactly once for each of them and
for no other. -/
theorem walkBfsFromObject_blackens (hroot : root ≠ 0) (ht : FollowsTyped env typeOf)
    (hdepth : NestsTo env depth) (hfin : {o | Reachable env typeOf root o}.Finite) :
    ∃ N, ∀ fuel ≥ N, ∃ nodes, walkBfsFromObject env fuel root (typeOf root) = some nodes
      ∧ (nodes.map NodeRec.obj).Nodup
      ∧ ∀ o, o ∈ nodes.map NodeRec.obj ↔ Reachable env typeOf root o := by
  obtain ⟨N, hN⟩ := exists_processBfsQueueAndMaps ht hdepth hfin
  refine ⟨N, fun fuel hf => ?_⟩
  obtain ⟨s', all, hs', hend, hnodup, hmem⟩ := hN fuel hf
  rw [← hend.done_eq] at hnodup hmem
  refine ⟨s'.blackened, ?_, hnodup, hmem⟩
  rw [walkBfsFromObject, if_neg hroot, hs']
  rfl

/-- Two nodes of two pointers: the first to the second and to itself, the second back to the first,
twice. -/
def sampleGraph : BfsEnv where
  types := fun t =>
    if t = 1 then { posMaxoff := 8, un := .address 1, related := [⟨2, 0⟩] }
    else if t = 2 then { posMaxoff := 16, un := .composite 2, related := [⟨1, 0⟩, ⟨1, 8⟩] }
    else {}
  forEachSubobject := fun t => if t = 2 then [(1, 0), (1, 8)] else []
  voidType := 3
  pointerAt := fun a => if a = 0x400000 then 0x400010 else 0x400000
  followPtr := fun p _ => (p, 2)

example : (walkBfsFromObject sampleGraph 3 0x400000 2).map (·.map NodeRec.obj)
    = some [0x400000, 0x400010] := by decide

theorem sampleGraph_adjacent {o' : Nat} (h : Adjacent sampleGraph (fun _ => 2) o o') :
    o' = 0x400000 ∨ o' = 0x400010 := by
  obtain ⟨N, hN⟩ := h
  obtain ⟨l, hl, hmem⟩ := hN (N + 1) (Nat.le_succ N)
  have hpointer : ∀ a, sampleGraph.pointerAt a = 0x400000 ∨ sampleGraph.pointerAt a = 0x400010 := by
    intro a
    simp only [sampleGraph]
    split <;> simp
  have hvisit : ∀ a t, ∀ v ∈ visitPointer sampleGraph a t, v.obj = 0x400000 ∨ v.obj = 0x400010 := by
    intro a t v hv
    rcases hpointer a with hp | hp
    · rw [visitPointer, hp] at hv
      exact .inl (congrArg NodeRec.obj (List.mem_singleton.mp hv))
    · rw [visitPointer, hp] at hv
      exact .inr (congrArg NodeRec.obj (List.mem_singleton.mp hv))
  obtain rfl := Option.some_inj.mp hl
  obtain ⟨v, hv, rfl⟩ := List.mem_map.mp hmem
  obtain ⟨vs, hvs, hv⟩ := List.mem_flatten.mp hv
  rcases List.mem_cons.mp hvs with rfl | hvs
  · exact hvisit _ _ v hv
  · rw [List.mem_singleton.mp hvs] at hv
    exact hvisit _ _ v hv

theorem sampleGraph_nests : NestsTo sampleGraph fun _ => 0 := by
  intro t p hp hcomp
  by_cases h2 : t = 2
  · subst h2
    have hp : p ∈ [(1, 0), (1, 8)] := hp
    rcases List.mem_pair.mp hp with rfl | rfl
    · exact nomatch hcomp
    · exact nomatch hcomp
  · have hnone : sampleGraph.forEachSubobject t = [] := if_neg h2
    rw [hnone] at hp
    cases hp

theorem walkBfsFromObject_blackens_sample :
    ∃ N, ∀ fuel ≥ N, ∃ nodes, walkBfsFromObject sampleGraph fuel 0x400000 2 = some nodes
      ∧ (nodes.map NodeRec.obj).Nodup
      ∧ ∀ o, o ∈ nodes.map NodeRec.obj ↔ Reachable sampleGraph (fun _ => 2) 0x400000 o := by
  refine @walkBfsFromObject_blackens sampleGraph (fun _ => 2) (fun _ => 0) 0x400000 (by decide)
    (fun _ _ _ => rfl) sampleGraph_nests ?_
  · refine (Set.toFinite {0x400000, 0x400010}).subset fun o ho => ?_
    rcases Relation.ReflTransGen.cases_tail ho with rfl | ⟨o', -, hadj⟩
    · exact .inl rfl
    · exact sampleGraph_adjacent hadj

end Liballocs
