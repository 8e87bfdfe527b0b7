/-
The items of `tools/compilerwrapper.py`: how input files and `-x` become the items of the phases, and
the temporary objects between compiling and linking.  `none` is an exception.

Of the command line only input files and `-x` are kept, as the other options have no part in either.
Temporary files are numbered as they are created; the compilations between are taken to succeed.
-/
import Mathlib.Data.List.Basic

namespace Liballocs.CompilerWrapper

/-- What a command line asks the compiler to do: one of its phases, or to drive them all. -/
inductive Phase
  | driver | preprocess | compile | assemble | link
deriving DecidableEq

/-- The languages that the wrapper knows, and any other argument of `-x`. -/
inductive Language
  | c | cHeader | cppOutput | cxx | cxxHeader | cxxCppOutput | assembler | assemblerWithCpp
  | other (name : String)
deriving DecidableEq

/-- `os.path.basename`. -/
def basename (path : List Char) : List Char := (path.reverse.takeWhile (· ≠ '/')).reverse

/-- `os.path.splitext` on a name without directories. -/
def splitext (name : List Char) : List Char × List Char :=
  let stem := (name.reverse.dropWhile (· ≠ '.')).tail.reverse
  if stem.all (· = '.') then (name, []) else (stem, name.drop stem.length)

/-- An item with its `argPhases`: a `SourceFile` if it has a language, else a plain word. -/
structure Item where
  name : List Char
  lang : Option Language
  phases : List Phase
deriving DecidableEq

/-- `itemsForPhases` before there are temporary files, and after `DRIVER`. -/
def itemsForPhases (phases : List Phase) (items : List Item) : List Item :=
  items.filter fun s => s.phases.any (· ∈ phases)

/-- `nameAfterPhase(Phase.ASSEMBLE)`. -/
def objectName (s : Item) : List Char := (splitext (basename s.name)).1 ++ ".o".toList

/-- `tempfile_map`, with the temporary files numbered as they are created. -/
abbrev TempfileMap := List Char → Option Nat

/-- The map after `createTempFile` for each source file, from the `n`-th temporary file on. -/
def createTempFiles (m : TempfileMap) (n : Nat) : List Item → TempfileMap
  | [] => m
  | s :: sources =>
    createTempFiles (fun k => if k = objectName s then some n else m k) (n + 1) sources

/-- `allSourceFiles`. -/
def sourceFiles (items : List Item) : List Item := items.filter (·.lang.isSome)

/-- A word for the linker. -/
inductive LinkItem
  | word (w : List Char)
  | tempFile (n : Nat)
deriving DecidableEq

/-- An item of `itemsForPhases({Phase.LINK})`. -/
def linkItem (m : TempfileMap) (s : Item) : LinkItem :=
  if s.lang = none then .word s.name
  else
    match m (objectName s) with
    | some n => .tempFile n
    | none => .word (objectName s)

/-- What is linked after `runPhasesBeforeLink` has compiled each source individually. -/
def linkItems (items : List Item) : List LinkItem :=
  (itemsForPhases [.link] items).map
    (linkItem (createTempFiles (fun _ => none) 0 (sourceFiles items)))

end Liballocs.CompilerWrapper
