/-
Types made while the program runs (`uniqtype-util.c`).

An array, pointer, function or union type is made on request and bound by `dlbind` to a symbol whose
name is put together from those of its components, without the `__uniqtype_` and the summary code.  The
next request that arrives at that name gets the same object.
-/
import Liballocs.Uniqtype
import Mathlib.Algebra.Group.Nat.Defs
import Mathlib.Logic.Function.Basic

namespace Liballocs

/-- The values with which `struct uniqtype` says that something is unbounded. -/
structure UniqtypeLimits where
  /-- `UNIQTYPE_ARRAY_LENGTH_UNBOUNDED`. -/
  arrayLengthUnbounded : Nat
  /-- `UNIQTYPE_POS_MAXOFF_UNBOUNDED`. -/
  posMaxoffUnbounded : Nat

/-- The type records, and what the dynamic linker knows of them. -/
structure TypeStore where
  types : Nat → Uniqtype
  /-- The objects bound to symbols, the latest first. -/
  symbols : List (String × Nat)
  /-- `__liballocs_uniqtype_symbol_name`: what `dladdr` says of an address. -/
  symbolName : Nat → Option String
  /-- Where `dlalloc` puts the next object. -/
  next : Nat
  next_pos : 0 < next
  symbols_lt : ∀ p ∈ symbols, 0 < p.2 ∧ p.2 < next

namespace TypeStore

/-- `get_type_from_symname`, and the `dlsym` of the union types: null if nothing is bound. -/
def getTypeFromSymname (s : TypeStore) (name : String) : Nat :=
  ((s.symbols.find? (·.1 = name)).map (·.2)).getD 0

/-- `dlalloc`, the initialisation of the object and `dlbind`. -/
def memoise (s : TypeStore) (name : String) (u : Uniqtype) : Nat × TypeStore :=
  (s.next,
    { types := Function.update s.types s.next u
      symbols := (name, s.next) :: s.symbols
      symbolName := Function.update s.symbolName s.next (some name)
      next := s.next + 1
      next_pos := Nat.succ_pos _
      symbols_lt := by
        intro p hp
        rcases List.mem_cons.mp hp with rfl | hp
        · exact ⟨s.next_pos, Nat.lt_succ_self _⟩
        · exact ⟨(s.symbols_lt p hp).1, Nat.lt_succ_of_lt (s.symbols_lt p hp).2⟩ })

/-- How all the constructors end: the object found under the name, or a new one. -/
def getOrCreate (s : TypeStore) (name : String) (u : Uniqtype) : Nat × TypeStore :=
  let found := s.getTypeFromSymname name
  if found ≠ 0 then (found, s) else s.memoise name u

/-- `strncmp` with the whole of the shorter string. -/
def beginsWith (text start : String) : Bool := start.toList.isPrefixOf text.toList

/-- The string from the `n`-th character on. -/
def textFrom (text : String) (n : Nat) : String := String.ofList (text.toList.drop n)

/-- `__liballocs_uniqtype_name`, which is also `UNIQTYPE_NAME` and `NAME_FOR_UNIQTYPE`. -/
def uniqtypeName (s : TypeStore) (u : Nat) : String :=
  if u = 0 then "(no type)"
  else
    match s.symbolName u with
    | none => "(unnamed type)"
    | some symbolName =>
      if beginsWith symbolName "__uniqtype__" then textFrom symbolName 12
      -- the summary code has eight digits, and an underscore follows it
      else if beginsWith symbolName "__uniqtype_" then textFrom symbolName (11 + 9)
      else symbolName

section Constructors

variable (lim : UniqtypeLimits) (s : TypeStore)

/-! ### Arrays -/

/-- The name under which `get_or_create_array_type` looks. -/
def arrayTypeName (elementT arrayLen : Nat) : String :=
  if arrayLen = lim.arrayLengthUnbounded then "__uniqtype____ARR_" ++ s.uniqtypeName elementT
  else
    -- the length is unsigned, and printed by `%d`
    "__uniqtype____ARR" ++ toString (Int.bmod arrayLen (2 ^ 32)) ++ "_" ++ s.uniqtypeName elementT

/-- The record that it makes. -/
def arrayType (elementT arrayLen : Nat) : Uniqtype where
  posMaxoff :=
    if arrayLen = lim.arrayLengthUnbounded then lim.posMaxoffUnbounded
    else arrayLen * (s.types elementT).posMaxoff % 2 ^ 32
  un := .array arrayLen
  related := [{ ptr := elementT }]

/-- `get_or_create_array_type`. -/
def getOrCreateArrayType (elementT arrayLen : Nat) : Nat × TypeStore :=
  s.getOrCreate (s.arrayTypeName lim elementT arrayLen) (s.arrayType lim elementT arrayLen)

/-- The check on the pointer that all but the flexible array types make. -/
def isNoType (elementT : Nat) : Bool := elementT == 0 || elementT == 2 ^ 64 - 1

/-- The checks on the size of the element. -/
def sizeRefused (elementT : Nat) : Bool :=
  (s.types elementT).posMaxoff == 0 || (s.types elementT).posMaxoff == lim.posMaxoffUnbounded

/-- `__liballocs_get_or_create_array_type`. -/
def liballocsGetOrCreateArrayType (elementT arrayLen : Nat) : Option (Nat × TypeStore) :=
  if isNoType elementT || s.sizeRefused lim elementT then some (0, s)
  else some (s.getOrCreateArrayType lim elementT arrayLen)

/-- `__liballocs_get_or_create_unbounded_array_type`. -/
def liballocsGetOrCreateUnboundedArrayType (elementT : Nat) : Option (Nat × TypeStore) :=
  if isNoType elementT || s.sizeRefused lim elementT then some (0, s)
  else some (s.getOrCreateArrayType lim elementT lim.arrayLengthUnbounded)

/-- The name of a flexible array type. -/
def flexibleArrayTypeName (elementT : Nat) : String :=
  "__uniqtype____ARR_" ++ s.uniqtypeName elementT

/-- The record of a flexible array type. -/
def flexibleArrayType (elementT : Nat) : Uniqtype where
  posMaxoff := lim.posMaxoffUnbounded
  un := .array lim.arrayLengthUnbounded
  makePrecise := true
  related := [{ ptr := elementT }]

/-- `__liballocs_get_or_create_flexible_array_type`, which reads through its argument
unchecked. -/
def liballocsGetOrCreateFlexibleArrayType (elementT : Nat) : Option (Nat × TypeStore) :=
  if elementT = 0 then none
  else if s.sizeRefused lim elementT then some (0, s)
  else some (s.getOrCreate (s.flexibleArrayTypeName elementT) (flexibleArrayType lim elementT))

/-! ### Pointers and functions -/

/-- The name of the type of pointers to a type. -/
def addressTypeName (pointeeT : Nat) : String :=
  "__uniqtype____PTR_" ++ s.uniqtypeName pointeeT

/-- The record of the type of pointers to a type. -/
def addressType (pointeeT : Nat) : Uniqtype :=
  let pointee := s.types pointeeT
  let (indirLevel, ultimatePointeeT) :=
    match pointee.un with
    | .address indirLevel => (1 + indirLevel, (pointee.rel 1).ptr)
    | _ => (1, pointeeT)
  { posMaxoff := 8
    un := .address indirLevel
    related := [{ ptr := pointeeT }, { ptr := ultimatePointeeT }] }

/-- `__liballocs_get_or_create_address_type`. -/
def liballocsGetOrCreateAddressType (pointeeT : Nat) : Option (Nat × TypeStore) :=
  if pointeeT = 0 then none
  else some (s.getOrCreate (s.addressTypeName pointeeT) (s.addressType pointeeT))

/-- The names of the arguments in the name of a function type, from the `i`-th on. -/
def argNames (i : Nat) : List Nat → String
  | [] => ""
  | argType :: argTypes =>
    "__ARG" ++ toString i ++ "_" ++ s.uniqtypeName argType ++ argNames (i + 1) argTypes

/-- The name of a function type. -/
def subprogramTypeName (returnType : Nat) (argTypes : List Nat) : String :=
  "__uniqtype____FUN_FROM_" ++ s.argNames 0 argTypes ++ "__FUN_TO_" ++ s.uniqtypeName returnType

/-- The record of a function type. -/
def subprogramType (returnType : Nat) (argTypes : List Nat) : Uniqtype where
  posMaxoff := lim.posMaxoffUnbounded
  un := .subprogram argTypes.length
  related := (returnType :: argTypes).map ({ ptr := · })

/-- `__liballocs_get_or_create_subprogram_type`. -/
def liballocsGetOrCreateSubprogramType (returnType : Nat) (argTypes : List Nat) :
    Option (Nat × TypeStore) :=
  some (s.getOrCreate (s.subprogramTypeName returnType argTypes)
    (subprogramType lim returnType argTypes))

/-! ### Unions -/

/-- `UNION_NAME_MAXLEN`. -/
def unionNameMaxlen : Nat := 4096

/-- The loop over the members of a union: their names one after the other, and the largest size.  It
gives up with null at a name that does not fit by itself; as `cur_len` stays zero, `strcat` can run
over the end of the buffer. -/
def unionRawName (rawName : String) (maxLen : Nat) : List Nat → Option (Option (String × Nat))
  | [] => some (some (rawName, maxLen))
  | membT :: membs =>
    let membName := s.uniqtypeName membT
    if unionNameMaxlen ≤ membName.utf8ByteSize then some none
    else if unionNameMaxlen ≤ (rawName ++ membName).utf8ByteSize then none
    else unionRawName (rawName ++ membName) (max maxLen (s.types membT).posMaxoff) membs

/-- The name of a union type. -/
def unionTypeName (rawName : String) : String := "__uniqtype____SYNTHUNION_" ++ rawName

/-- The record of a union type. -/
def unionType (maxLen : Nat) (membs : List Nat) : Uniqtype where
  posMaxoff := maxLen
  un := .composite membs.length
  related := membs.map ({ ptr := · })

/-- `__liballocs_get_or_create_union_type`. -/
def liballocsGetOrCreateUnionType (membs : List Nat) : Option (Nat × TypeStore) :=
  if membs = [] then some (0, s)
  else
    match s.unionRawName "" 0 membs with
    | none => none
    | some none => some (0, s)
    | some (some (rawName, maxLen)) =>
      some (s.getOrCreate (unionTypeName rawName) (unionType maxLen membs))

end Constructors

end TypeStore

/-- A call of one of the constructors. -/
inductive TypeCall where
  | array (elementT arrayLen : Nat)
  | unboundedArray (elementT : Nat)
  | flexibleArray (elementT : Nat)
  | address (pointeeT : Nat)
  | subprogram (returnType : Nat) (argTypes : List Nat)
  | union (membs : List Nat)
deriving DecidableEq, Repr

namespace TypeStore

/-- One call: null or a type, and the store after it; nothing if it does not return. -/
def call (lim : UniqtypeLimits) (s : TypeStore) : TypeCall → Option (Nat × TypeStore)
  | .array elementT arrayLen => s.liballocsGetOrCreateArrayType lim elementT arrayLen
  | .unboundedArray elementT => s.liballocsGetOrCreateUnboundedArrayType lim elementT
  | .flexibleArray elementT => s.liballocsGetOrCreateFlexibleArrayType lim elementT
  | .address pointeeT => s.liballocsGetOrCreateAddressType pointeeT
  | .subprogram returnType argTypes => s.liballocsGetOrCreateSubprogramType lim returnType argTypes
  | .union membs => s.liballocsGetOrCreateUnionType membs

/-- A sequence of calls: what each one returned, and the store at the end. -/
def calls (lim : UniqtypeLimits) (s : TypeStore) : List TypeCall → Option (List Nat × TypeStore)
  | [] => some ([], s)
  | c :: cs =>
    match s.call lim c with
    | none => none
    | some (r, s₁) =>
      match s₁.calls lim cs with
      | none => none
      | some (rs, s₂) => some (r :: rs, s₂)

end TypeStore

end Liballocs
