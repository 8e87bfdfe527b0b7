/-
Which allocation sites are marked.

The list of recorded calls is emptied before the instructions are divided into groups, so there is one
group only, no statement changes, and no call is marked.  That the instructions stay the same holds for
every body, and that all allocations are marked only for one that has none.
-/
import Liballocs.DumpAllocs

namespace Liballocs.DumpAllocs

variable {ι : Type} [DecidableEq ι]

/-- The instructions of a body in order. -/
def instrs : Stmts ι → List ι
  | .nil => []
  | .instr is rest => is ++ instrs rest
  | .block _ body rest => instrs body ++ instrs rest

/-- The instruction is alone in a block that has the attribute with the type. -/
def Marked (i : ι) (type : String) : Stmts ι → Prop
  | .nil => False
  | .instr _ rest => Marked i type rest
  | .block attrs body rest =>
    attrs = [("allocstmt", type)] ∧ body = .instr [i] .nil
      ∨ Marked i type body ∨ Marked i type rest

theorem groupInstrs_nil (cur is : List ι) : groupInstrs [] [] (cur, []) is = [(cur ++ is, [])] := by
  induction is generalizing cur with
  | nil => simp [groupInstrs]
  | cons x more ih => simp [groupInstrs, ih]

theorem visit_eq (allocString : ι → Option String) (s : Stmts ι) : visit allocString s = s := by
  induction s with
  | nil => rfl
  | instr is rest ih => simp [visit, postVisit, groupInstrs_nil, restructureInstrsStatement, ih]
  | block attrs body rest ihb ihr => rw [visit, ihb, ihr]

/-- **The instructions stay the same, and every allocation is marked with its type**, if and only if
there are none, when no instruction was marked before. -/
theorem visit_marks_iff (allocString : ι → Option String) (s : Stmts ι)
    (h : ∀ i ∈ instrs s, ∀ type, ¬ Marked i type s) :
    instrs (visit allocString s) = instrs s
        ∧ (∀ i ∈ instrs s, ∀ type ∈ allocString i, Marked i type (visit allocString s))
      ↔ ∀ i ∈ instrs s, allocString i = none := by
  rw [visit_eq]
  constructor
  · rintro ⟨-, hmarked⟩ i hi
    rw [Option.eq_none_iff_forall_ne_some]
    exact fun type htype => h i hi type (hmarked i hi type htype)
  · intro hnone
    refine ⟨rfl, fun i hi type htype => ?_⟩
    rw [hnone i hi] at htype
    cases htype

/-- Two instructions in a block. -/
def sampleBody : Stmts Nat := .block [] (.instr [1, 2] .nil) .nil

theorem visit_marks_sample :
    instrs (visit (fun _ => none) sampleBody) = [1, 2]
    ∧ ∀ i ∈ [1, 2], ∀ type ∈ (none : Option String),
      Marked i type (visit (fun _ => none) sampleBody) :=
  (visit_marks_iff (fun _ => none) sampleBody (by simp [Marked, sampleBody])).mpr (by simp)

/-- **No allocation is marked**: both instructions are recognised, and no block is made for them. -/
theorem visit_not_marked :
    visit (fun _ => some "__uniqtype__int") sampleBody = sampleBody
    ∧ ¬ Marked 2 "__uniqtype__int" (visit (fun _ => some "__uniqtype__int") sampleBody) := by
  rw [visit_eq]
  exact ⟨rfl, by simp [Marked, sampleBody]⟩

end Liballocs.DumpAllocs
