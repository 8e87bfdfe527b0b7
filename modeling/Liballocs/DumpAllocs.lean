/-
Marking allocation sites (`tools/lang/c/dumpallocs/dumpallocs.ml`,
`tools/lang/c/cilallocs/cilallocs.ml`).

The visitor records the calls that allocate in a statement, and then divides its instructions into
groups, one for each recorded call.  `ι` are the instructions, compared by identity.
-/
import Mathlib.Tactic.Common

namespace Liballocs

/-- An attribute, with its argument. -/
abbrev Attr := String × String

/-- Statements in sequence.  Statements of control flow are blocks without attributes. -/
inductive Stmts (ι : Type)
  | nil
  | instr (is : List ι) (rest : Stmts ι)
  | block (attrs : List Attr) (body rest : Stmts ι)
deriving DecidableEq

namespace DumpAllocs

variable {ι : Type} [DecidableEq ι]

/-- Some instructions, with the attributes they are given. -/
abbrev Group (ι : Type) := List ι × List Attr

/-- `vinst`: an allocation is recorded with the type that is found for it. -/
def vinst (allocString : ι → Option String) (instrsToLabel : List (ι × List Attr)) (i : ι) :
    List (ι × List Attr) :=
  match allocString i with
  | none => instrsToLabel
  | some s => (i, [("allocstmt", s)]) :: instrsToLabel

/-- `groupInstrs`: an instruction that is to be labelled makes a group of its own, with its
attributes, and ends the group before it. -/
def groupInstrs (instrsToLabel : List (ι × List Attr)) (revGroupsAcc : List (Group ι))
    (curGroup : Group ι) : List ι → List (Group ι)
  | [] => (curGroup :: revGroupsAcc).reverse
  | x :: more =>
    match instrsToLabel.find? (·.1 = x) with
    | some (_, attrs) =>
      groupInstrs instrsToLabel (([x], attrs) :: curGroup :: revGroupsAcc) ([], []) more
    | none => groupInstrs instrsToLabel revGroupsAcc (curGroup.1 ++ [x], curGroup.2) more

/-- What becomes of the statement, in front of the rest. -/
def restructureInstrsStatement (groups : List (Group ι)) (rest : Stmts ι) : Stmts ι :=
  match groups with
  | [(theGroup, [])] => .instr theGroup rest
  | _ =>
    let stmt := fun (group : Group ι) (stmts : Stmts ι) =>
      if group.2 = [] then .instr group.1 stmts else .block group.2 (.instr group.1 .nil) stmts
    .block [] (groups.foldr stmt .nil) rest

/-- The action after the instructions of a statement, which empties their list first. -/
def postVisit (_instrsToLabel : List (ι × List Attr)) (is : List ι) (rest : Stmts ι) : Stmts ι :=
  let instrsToLabel := []
  restructureInstrsStatement (groupInstrs instrsToLabel [] ([], []) is) rest

/-- `vstmt`, over all statements. -/
def visit (allocString : ι → Option String) : Stmts ι → Stmts ι
  | .nil => .nil
  | .instr is rest => postVisit (is.foldl (vinst allocString) []) is (visit allocString rest)
  | .block attrs body rest => .block attrs (visit allocString body) (visit allocString rest)

end DumpAllocs

end Liballocs
