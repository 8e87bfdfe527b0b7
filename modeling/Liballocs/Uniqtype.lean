/-
The records that describe types.

A type is known by the address of its `struct uniqtype`, and null is zero.  `related` leads to the types
it is made of: the element, the pointee, the members with their offsets, the return type and the
arguments.  The header that declares it belongs to another project.
-/
import Mathlib.Data.Nat.Notation

namespace Liballocs

/-- `struct uniqtype_rel_info`: a type, and the offset if it is that of a member. -/
structure UniqtypeRelInfo where
  ptr : Nat := 0
  off : Nat := 0
deriving DecidableEq, Repr

/-- The union `un` of `struct uniqtype`, by its kind. -/
inductive UniqtypeKind where
  | base
  | address (indirLevel : Nat)
  | array (nelems : Nat)
  | composite (nmemb : Nat)
  | subprogram (narg : Nat)
deriving DecidableEq, Repr

/-- `struct uniqtype`. -/
structure Uniqtype where
  posMaxoff : Nat := 0
  un : UniqtypeKind := .base
  /-- The array is made precise from the bounds of its memory. -/
  makePrecise : Bool := false
  related : List UniqtypeRelInfo := []
deriving DecidableEq, Repr

namespace Uniqtype

/-- An element of `related`. -/
def rel (u : Uniqtype) (i : Nat) : UniqtypeRelInfo := u.related[i]?.getD {}

/-- `UNIQTYPE_IS_ARRAY_TYPE`. -/
def isArrayType (u : Uniqtype) : Bool :=
  match u.un with
  | .array _ => true
  | _ => false

/-- `UNIQTYPE_IS_POINTER_TYPE`. -/
def isPointerType (u : Uniqtype) : Bool :=
  match u.un with
  | .address _ => true
  | _ => false

/-- `UNIQTYPE_IS_COMPOSITE_TYPE`. -/
def isCompositeType (u : Uniqtype) : Bool :=
  match u.un with
  | .composite _ => true
  | _ => false

/-- `UNIQTYPE_ARRAY_LENGTH`. -/
def arrayLength (u : Uniqtype) : Nat :=
  match u.un with
  | .array nelems => nelems
  | _ => 0

/-- `UNIQTYPE_ARRAY_ELEMENT_TYPE`. -/
def arrayElementType (u : Uniqtype) : Nat := (u.rel 0).ptr

/-- `UNIQTYPE_POINTEE_TYPE`. -/
def pointeeType (u : Uniqtype) : Nat := (u.rel 0).ptr

/-- `UNIQTYPE_COMPOSITE_MEMBER_COUNT`, which is zero for anything else. -/
def compositeMemberCount (u : Uniqtype) : Nat :=
  match u.un with
  | .composite nmemb => nmemb
  | _ => 0

end Uniqtype

end Liballocs
