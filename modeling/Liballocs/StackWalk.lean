/-
Finding the frame of an address (`src/allocators/stackframe.c`).

`get_info` walks up the stack, takes for each frame the type that its file's table has for the program
counter, and compares the address with the extent of that type.  The unwinder is given by the frames it
yields, and a frame's registers may be unreadable.
-/
import Liballocs.FrameTypes

namespace Liballocs

/-- What is known of a loaded file: its load address and its table of frames. -/
structure FramesFile where
  lAddr : Nat
  framesInfo : Option (List FrameAllocsiteEntry)

/-- The address in the file of an address in memory. -/
def FramesFile.targetVaddr (afile : FramesFile) (addr : Nat) : Nat :=
  (addr + 2 ^ 64 - afile.lAddr) % 2 ^ 64

/-- The type of the frame that runs at an address, and the offset of its base; `bsearchLeq` is
`bsearch_leq_generic`, on the keys of a table. -/
def pcToFrameUniqtype (bsearchLeq : (Nat → Nat) → Nat → Nat → Option Nat)
    (fileAt : Nat → Option FramesFile) (addr : Nat) : Option FrameTypeName × Nat :=
  match fileAt addr with
  | none => (none, 0)
  | some afile =>
    match afile.framesInfo with
    | none => (none, 0)
    | some framesInfo =>
      let proj := fun i => (framesInfo[i]?.map (·.allocsiteVaddr)).getD 0
      match (bsearchLeq proj framesInfo.length (afile.targetVaddr addr)).bind (framesInfo[·]?) with
      | none => (none, 0)
      | some found => (some found.uniqtype, found.offsetFromFrameBase)

/-- A frame as the unwinder reports it; `bp` is `none` if the register cannot be read. -/
structure UnwFrame where
  ip : Nat
  sp : Nat
  bp : Option Nat

/-- How unwinding ends above the last frame. -/
inductive UnwEnd
  | top
  | badReg
  | failure
deriving DecidableEq

/-- The walk's parameters: the frame types by program counter, with `pos_maxoff`. -/
structure UnwEnv where
  frameDesc : Nat → Option FrameTypeName × Nat
  posMaxoff : FrameTypeName → Nat
  mainBp : Nat
  beginningOfStack : Nat
  unwEnd : UnwEnd

/-- The errors of the walk. -/
inductive StackWalkErr
  | stepFailure
  | reachedHigherFrame
  | reachedTopOfStack
deriving DecidableEq

/-- The outputs of `get_info`. -/
structure FrameInfo where
  base : Nat
  type : FrameTypeName
  site : Nat
  size : Nat
deriving DecidableEq

/-- One turn of the loop after its `unw_step`: the `ip`, and `higherframe_sp` with `higherframe_bp` if
that was got, or nothing if the step failed. -/
structure WalkTurn where
  ip : Nat
  higher : Option (Nat × Option Nat)

namespace UnwEnv

variable (env : UnwEnv)

/-- The turns of the walk, to the beginning of the stack, with `bp` and `atOrAboveMain` from the turn
before. -/
def turns (bp : Nat) (atOrAboveMain : Bool) : List UnwFrame → List WalkTurn
  | [] => []
  | f :: rest =>
    -- a register that cannot be read leaves the variable as it was
    let bp := f.bp.getD bp
    let atOrAboveMain := atOrAboveMain || f.bp.any (env.mainBp ≤ ·) || env.mainBp ≤ f.sp
    let higher := match rest with
      | g :: _ => some (g.sp, g.bp.filter (bp ≤ ·))
      | [] =>
        if env.unwEnd = .top ∨ atOrAboveMain ∧ env.unwEnd = .badReg then
          some (env.beginningOfStack, some env.beginningOfStack)
        else none
    ⟨f.ip, higher⟩ ::
      if higher.any (·.1 = env.beginningOfStack) then [] else turns bp atOrAboveMain rest

/-- What the frame allocates, if it has a descriptor. -/
def frameAllocation (higherframeSp ip : Nat) : Option FrameInfo :=
  match env.frameDesc ip with
  | (none, _) => none
  | (some u, o) => some ⟨(higherframeSp + 2 ^ 64 - o) % 2 ^ 64, u, ip, env.posMaxoff u⟩

/-- The loop, from the turn that is next. -/
def walk (obj : Nat) : List WalkTurn → Except StackWalkErr FrameInfo
  | [] => .error .reachedTopOfStack
  | t :: rest =>
    match t.higher with
    | none => .error .stepFailure
    | some (higherframeSp, higherframeBp) =>
      if higherframeBp.any (· < obj) then walk obj rest
      else match env.frameAllocation higherframeSp t.ip with
        | none => walk obj rest
        | some info =>
          if info.base ≤ obj ∧ obj < info.base + info.size then .ok info
          else if obj < info.base then .error .reachedHigherFrame
          else walk obj rest

/-- `get_info`, on the frames from the innermost one. -/
def stackframeGetInfo (obj : Nat) (frames : List UnwFrame) : Except StackWalkErr FrameInfo :=
  env.walk obj (env.turns 0 false frames)

end UnwEnv

end Liballocs
