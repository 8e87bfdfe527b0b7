/-
The types of stack frames (`tools/frametypes.cpp`).

A subprogram's code is divided into intervals of addresses, each with the elements that are on the
stack there.  An interval has a composite type with those members, and a record in `frame_vaddrs`.
-/
import Mathlib.Algebra.Group.Nat.Defs
import Mathlib.Algebra.Ring.Int.Defs
import Mathlib.Data.List.Sort

namespace Liballocs

/-- Conversion to a 32-bit `unsigned`. -/
def toUnsigned (x : Int) : Nat := (x % 2 ^ 32).toNat

/-- Conversion to a 32-bit `signed`. -/
def toSigned (x : Int) : Int := x.bmod (2 ^ 32)

/-- A local or parameter on the stack: its frame offset, and the size of its type if it has one. -/
structure FrameElement where
  off : Int
  size : Option Nat
deriving DecidableEq

/-- An interval of addresses, with its elements in the order of their offsets. -/
structure FrameInterval where
  lower : Nat
  upper : Nat
  elements : List FrameElement
  lower_lt : lower < upper
  sorted : elements.Pairwise (·.off ≤ ·.off)

namespace FrameInterval

/-- The end of the element that starts last. -/
def maxoff (i : FrameInterval) : Nat :=
  match i.elements.getLast? with
  | none => 0
  | some el =>
    let calculatedMaxelSize := toUnsigned (el.size.getD 0)
    let intervalMaxOffset := toSigned (el.off + calculatedMaxelSize)
    if intervalMaxOffset < 0 then 0 else intervalMaxOffset.toNat

/-- The start of the element that starts first. -/
def minoff (i : FrameInterval) : Int :=
  match i.elements.head? with
  | none => 0
  | some el => if toSigned el.off > 0 then 0 else toSigned el.off

end FrameInterval

/-- A subprogram, with its name in its compilation unit. -/
structure Subprogram where
  name : Nat
  intervals : List FrameInterval

/-- A composite type: its size, and its members with their offsets. -/
structure FrameComposite where
  posMaxoff : Nat
  members : List (Nat × FrameElement)
deriving DecidableEq

namespace Subprogram

/-- `overall_frame_minoff`: the least offset of any interval, or zero. -/
def overallFrameMinoff (s : Subprogram) : Int :=
  s.intervals.foldl (fun overall i => if i.minoff < overall then i.minoff else overall) 0

/-- `offset_to_all`, which makes the least offset zero and is rounded up to words. -/
def offsetToAll (s : Subprogram) : Nat :=
  if s.overallFrameMinoff < 0 then
    let remainder := (-s.overallFrameMinoff).toNat % 8
    let quotient := (-s.overallFrameMinoff).toNat / 8
    if remainder = 0 then quotient * 8 else (quotient + 1) * 8
  else 0

/-- The type that is emitted for an interval, or of which an alias is emitted. -/
def composite (s : Subprogram) (i : FrameInterval) : FrameComposite where
  posMaxoff := toUnsigned (i.maxoff + s.offsetToAll)
  members := i.elements.map fun el => (toUnsigned (el.off + s.offsetToAll), el)

end Subprogram

/-- What the name of a frame's type is made from. -/
structure FrameTypeName where
  subprogram : Nat
  lower : Nat
  upper : Nat
deriving DecidableEq

/-- `struct frame_allocsite_entry`. -/
structure FrameAllocsiteEntry where
  offsetFromFrameBase : Nat
  allocsiteVaddr : Nat
  uniqtype : FrameTypeName
deriving DecidableEq

/-- The record of an interval. -/
def frameRecord (p : FrameInterval × Subprogram) : FrameAllocsiteEntry where
  offsetFromFrameBase := p.2.offsetToAll
  allocsiteVaddr := p.1.lower
  uniqtype := ⟨p.2.name, p.1.lower, p.1.upper⟩

/-- The intervals of all subprograms, each with its own. -/
def allIntervals (subps : List Subprogram) : List (FrameInterval × Subprogram) :=
  subps.flatMap fun s => s.intervals.map fun i => (i, s)

/-- The table `frame_vaddrs`. -/
def frameVaddrs (subps : List Subprogram) : List FrameAllocsiteEntry :=
  ((allIntervals subps).insertionSort fun p q => p.1.lower ≤ q.1.lower).map frameRecord

end Liballocs
