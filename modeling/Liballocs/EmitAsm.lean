/-
Character arrays as assembly: `emit_memory_asm_cb` of `emit-asm.c`, and the assembler.

The array is split at its NULs.  What is before one is printed with escapes, what is left without.
The assembler is modelled as far as the lines need it: a string up to its closing quote, with octal
escapes of at most three digits and the escapes of single letters.
-/
import Mathlib.Data.List.Basic

namespace Liballocs.EmitAsm

/-- What `printf("\\%03o", *c)` prints: a `char` is signed, and `%o` prints an `unsigned`. -/
def octalEscape (c : Nat) : List Nat :=
  let val := if c < 128 then c else 4294967296 - 256 + c
  92 :: ((Nat.toDigits 8 val).map Char.toNat).leftpad 3 48

/-- A character of an `.asciz` string, with the `isprint` of the C locale. -/
def emitChar (c : Nat) : List Nat :=
  if (32 ≤ c ∧ c < 127) ∧ c ≠ 34 then [c] else octalEscape c

/-- A directive, and what is printed behind its opening quote. -/
structure Line where
  asciz : Bool
  text : List Nat

/-- The lines for the bytes from `off` on; `memchr` is past those of `piece`. -/
def emitLines (piece : List Nat) : List Nat → List Line
  | [] => if piece = [] then [] else [⟨false, piece ++ [34]⟩]
  | c :: rest =>
    if c = 0 then ⟨true, piece.flatMap emitChar ++ [34]⟩ :: emitLines [] rest
    else emitLines (piece ++ [c]) rest

/-- `emit_memory_asm_cb` on a top-level character array, with the new `emitted_up_to_offset`. -/
def emitMemoryAsmCb (emittedUpToOffset : Nat) (obj : List Nat) : List Line × Nat :=
  (emitLines [] obj, emittedUpToOffset + obj.length)

/-! ### The assembler -/

/-- An escape, from behind its backslash on: the byte, and the number of characters read. -/
def escape (text : List Nat) : Option (Nat × Nat) :=
  let digits := (text.take 3).takeWhile fun d => 48 ≤ d && d < 56
  if digits ≠ [] then some (digits.foldl (fun val d => 8 * val + (d - 48)) 0 % 256, digits.length)
  else do
    let byte ← [(98, 8), (102, 12), (110, 10), (114, 13), (116, 9), (34, 34), (92, 92)].lookup
      (← text.head?)
    return (byte, 1)

/-- A string, which has to end with the line. -/
def readString : List Nat → Option (List Nat)
  | [] => none
  | c :: text =>
    if c = 34 then if text = [] then some [] else none
    else if c = 92 then (escape text).bind fun r => (readString (text.drop r.2)).map (r.1 :: ·)
    else (readString text).map (c :: ·)
termination_by text => text.length

/-- The bytes that the lines give, with a NUL behind each `.asciz` string. -/
def assemble : List Line → Option (List Nat)
  | [] => some []
  | line :: lines => do
    return (← readString line.text) ++ (if line.asciz then [0] else []) ++ (← assemble lines)

end Liballocs.EmitAsm
