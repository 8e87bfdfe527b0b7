/-
Walking the object graph breadth first (`src/uniqtype-bfs.c`, `include/uniqtype-bfs.h`).

A node is an object with the type it was found under.  Its type is flattened into members and elements,
every pointer among them is read, and `follow_ptr` turns it into an adjacent object and its type.

Queues are lists in the walk, and at the end as they are in memory; maps are zero, or white, where
nothing has been set.  Printing is left out.  The loops are recursions on a fuel.
-/
import Mathlib.Algebra.Group.Nat.Defs
import Mathlib.Logic.Function.Basic
import Liballocs.Uniqtype

namespace Liballocs

/-- `__uniqtype_node_rec`. -/
structure NodeRec where
  obj : Nat
  t : Nat
deriving DecidableEq, Repr

/-- `enum node_colour`. -/
inductive NodeColour where
  | white
  | grey
  | black
deriving DecidableEq, Repr

/-- What the walk reads and calls. -/
structure BfsEnv where
  types : Nat → Uniqtype
  /-- The types and offsets that `UNIQTYPE_FOR_EACH_SUBOBJECT` goes through, none for a type without
  `UNIQTYPE_HAS_SUBOBJECTS`.  The header that has them belongs to another project. -/
  forEachSubobject : Nat → List (Nat × Nat)
  /-- `pointer_to___uniqtype__void`. -/
  voidType : Nat
  /-- The pointer that is stored at an address. -/
  pointerAt : Nat → Nat
  /-- `follow_ptr`, from a pointer and its static pointee type. -/
  followPtr : Nat → Nat → Nat × Nat

/-- `IS_PLAUSIBLE_POINTER`. -/
def isPlausiblePointer (p : Nat) : Bool :=
  p == 0 || p == 2 ^ 64 - 1 || (4194304 ≤ p && p < 0x800000000000)

/-- The pointer case of `visit_one_subobject`: the node that a pointer leads to, if any. -/
def visitPointer (env : BfsEnv) (addr pointedToStaticT : Nat) : List NodeRec :=
  let pointedToObject := env.pointerAt addr
  -- we might be reading some union'd storage that is currently holding a non-pointer
  if pointedToObject ≠ 0 ∧ isPlausiblePointer pointedToObject then
    let (ptr, t) := env.followPtr pointedToObject pointedToStaticT
    if ptr ≠ 0 then [⟨ptr, t⟩] else []
  else []

/-- `build_adjacency_list_recursive`, with `visit_one_subobject`. -/
def buildAdjacencyListRecursive (env : BfsEnv) (objStart : Nat) :
    Nat → Nat → Nat → Option (List NodeRec)
  | 0, _, _ => none
  | fuel + 1, startOffset, t =>
    if t = env.voidType then some []
    else if t = 0 then some []
    else do
      let found ← (env.forEachSubobject t).mapM fun (elementType, membOffset) =>
        let element := env.types elementType
        if element.isPointerType then
          some (visitPointer env (objStart + startOffset + membOffset) element.pointeeType)
        else if element.isCompositeType then
          buildAdjacencyListRecursive env objStart fuel (startOffset + membOffset) elementType
        else some []
      return found.flatten

/-- The queue, the maps, and the calls of `on_blacken` so far. -/
structure BfsState where
  queue : List NodeRec := []
  colours : Nat → NodeColour := fun _ => .white
  distances : Nat → Nat := fun _ => 0
  predecessors : Nat → Nat := fun _ => 0
  blackened : List NodeRec := []

namespace BfsState

/-- `treemap_set` on the colours. -/
def setColour (s : BfsState) (obj : Nat) (colour : NodeColour) : BfsState :=
  { s with colours := fun o => if o = obj then colour else s.colours o }

/-- The body of the loop over the adjacency list: enqueue a node that is white. -/
def considerAdjacent (s : BfsState) (v : NodeRec) : BfsState :=
  if s.colours v.obj = .white then
    { s.setColour v.obj .grey with
      distances := fun o => if o = v.obj then s.distances v.obj + 1 else s.distances o
      predecessors := fun o => if o = v.obj then v.obj else s.predecessors o
      queue := s.queue ++ [v] }
  else s

/-- Blacken a node, and call the function for it. -/
def blacken (s : BfsState) (u : NodeRec) : BfsState :=
  { s.setColour u.obj .black with blackened := s.blackened ++ [u] }

end BfsState

/-- `process_bfs_queue_and_maps`; there is fuel for so many nodes and for types of some depth. -/
def processBfsQueueAndMaps (env : BfsEnv) (typeFuel : Nat) : Nat → BfsState → Option BfsState
  | fuel, s =>
    match fuel, s.queue with
    | _, [] => some s
    | 0, _ :: _ => none
    | fuel + 1, u :: queue => do
      let s := { s with queue := queue }.setColour u.obj .grey
      let adjU ← buildAdjacencyListRecursive env u.obj typeFuel 0 u.t
      let s := adjU.foldl BfsState.considerAdjacent s
      processBfsQueueAndMaps env typeFuel fuel (s.blacken u)

/-- `__uniqtype_walk_bfs_from_object`: the nodes that `on_blacken` is called for, in order. -/
def walkBfsFromObject (env : BfsEnv) (fuel object t : Nat) : Option (List NodeRec) :=
  if object = 0 then some []
  else (processBfsQueueAndMaps env fuel fuel { queue := [⟨object, t⟩] }).map
    BfsState.blackened

/-! ### The queues in memory -/

/-- The two ends of a queue of nodes, which are given by their addresses. -/
structure QueueEnds where
  head : Nat := 0
  tail : Nat := 0

/-- `__uniqtype_node_queue_push_tail`, with the `next` pointers of all nodes. -/
def uniqtypeNodeQueuePushTail (q : QueueEnds) (next : Nat → Nat) (toEnqueue : Nat) :
    QueueEnds × (Nat → Nat) :=
  if q.tail ≠ 0 then ({ q with tail := toEnqueue }, Function.update next q.tail toEnqueue)
  else (⟨toEnqueue, toEnqueue⟩, next)

/-- `__uniqtype_node_queue_pop_head`. -/
def uniqtypeNodeQueuePopHead (q : QueueEnds) (next : Nat → Nat) : Nat × QueueEnds × (Nat → Nat) :=
  if q.head ≠ 0 then
    (q.head, ⟨next q.head, if next q.head = 0 then 0 else q.tail⟩, Function.update next q.head 0)
  else (0, q, next)

/-- The loop over the adjacency list as it runs, from the queue `adjU` to the queue `q`: the nodes are
the same ones, and have one `next` pointer each. -/
def drainAdjacent (node : Nat → NodeRec) :
    Nat → QueueEnds → QueueEnds → (Nat → Nat) → BfsState → Option (QueueEnds × (Nat → Nat) × BfsState)
  | 0, _, _, _, _ => none
  | fuel + 1, adjU, q, next, s =>
    let (v, adjU, next) := uniqtypeNodeQueuePopHead adjU next
    if v = 0 then some (q, next, s)
    else
      let s' := s.considerAdjacent (node v)
      if s.colours (node v).obj = .white then
        let (q, next) := uniqtypeNodeQueuePushTail q next v
        drainAdjacent node fuel adjU q next s'
      else drainAdjacent node fuel adjU q next s'

end Liballocs
