/-
The template machine of `tools/dwarf-machine.hpp` for DWARF expressions.

`state<WholeProgram, ProgramTail>::eval` is one function of the two programs, and its stack a chain of
sections.  `none` is a template that cannot be instantiated, an index or a drop past the last section,
or a trap of the division.
-/
import Mathlib.Data.List.Basic

namespace Liballocs.DwarfMachine

/-- The opcodes that `state` is specialised for. -/
inductive Opcode
  | bra | dup | nop | mod | plus | mul | lit2
deriving DecidableEq

/-- The parameters of `program` but `Next`, and but the second argument, which none reads. -/
structure Instruction where
  op : Opcode
  arg1 : Int := 0
  encodedLength : Nat := 1
deriving DecidableEq

/-- `program`, with `void` as the empty list. -/
abbrev Program := List Instruction

/-- `byte_length`. -/
def byteLength : Program → Nat
  | [] => 0
  | i :: seq => i.encodedLength + byteLength seq

/-- `gobble_nbytes<n, Seq>::tail`. -/
def gobbleNbytesTail : Nat → Program → Option Program
  | 0, seq => some seq.tail
  | _ + 1, [] => none
  | n + 1, i :: seq =>
    if i.encodedLength ≤ n + 1 then gobbleNbytesTail (n + 1 - i.encodedLength) seq else none

/-- `stack_section` without `prev`; `nwords` is the number of the words. -/
structure StackSection where
  nspare : Nat
  words : List Int64

/-- A section and those that its `prev` leads to. -/
abbrev Stack := List StackSection

namespace Stack

/-- `operator[]`, read. -/
def get : Stack → Nat → Option Int64
  | [], _ => none
  | s :: prev, offset =>
    if offset < s.words.length - s.nspare then s.words[s.nspare + offset]?
    else get prev (offset - (s.words.length - s.nspare))

/-- `operator[]`, assigned to. -/
def set : Stack → Nat → Int64 → Option Stack
  | [], _, _ => none
  | s :: prev, offset, v =>
    if offset < s.words.length - s.nspare then
      some ({ s with words := s.words.set (s.nspare + offset) v } :: prev)
    else do return s :: (← set prev (offset - (s.words.length - s.nspare)) v)

/-- `drop_n`. -/
def dropN : Stack → Nat → Option Stack
  | [], _ => none
  | s :: prev, nwordsToDrop =>
    let ours := min (s.words.length - s.nspare) nwordsToDrop
    let s := { s with nspare := s.nspare + ours }
    if 0 < nwordsToDrop - ours then do return s :: (← dropN prev (nwordsToDrop - ours))
    else some (s :: prev)

/-- `morestack(sizeof (long))`; the word is written right after. -/
def moreStack (prevEnd : Stack) : Stack :=
  ⟨0, [0]⟩ :: prevEnd

/-- `end[1] = end[1] op end[0]`, and `lessstack(sizeof (long))`. -/
def combine (op : Int64 → Int64 → Option Int64) (end_ : Stack) : Option Stack := do
  let end_ ← end_.set 1 (← op (← end_.get 1) (← end_.get 0))
  end_.dropN 1

end Stack

/-- `%` on `long`, which traps where there is no quotient. -/
def longMod (a b : Int64) : Option Int64 :=
  if b = 0 ∨ a = Int64.minValue ∧ b = -1 then none else some (a % b)

/-- `state<WholeProgram, ProgramTail>::eval`, with a bound on the instructions. -/
def eval (whole : Program) : Nat → Program → Stack → Option Int64
  | 0, _, _ => none
  | _ + 1, [], end_ => end_.get 0
  | fuel + 1, i :: tail, end_ =>
    match i.op with
    | .bra => do
      let testval ← end_.get 0
      let end_ ← end_.dropN 1
      if testval ≠ 0 then
        let target : Int :=
          (byteLength whole - byteLength (i :: tail) : Nat) + i.encodedLength + i.arg1
        eval whole fuel (← gobbleNbytesTail (← target.toNat?) whole) end_
      else eval whole fuel tail end_
    | .dup => do
      let end_ := end_.moreStack
      eval whole fuel tail (← end_.set 0 (← end_.get 1))
    | .nop => eval whole fuel tail end_
    | .mod => do eval whole fuel tail (← end_.combine longMod)
    | .plus => do eval whole fuel tail (← end_.combine fun a b => some (a + b))
    | .mul => do eval whole fuel tail (← end_.combine fun a b => some (a * b))
    | .lit2 => do eval whole fuel tail (← end_.moreStack.set 0 2)

end Liballocs.DwarfMachine
