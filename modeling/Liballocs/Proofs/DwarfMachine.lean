/-
The template machine against the machine of the DWARF standard.

The chain of sections is a stack, and each operation but the branch and the remainder does what the
standard says.  A branch that is taken goes on behind the instruction at its target, since
`gobble_nbytes` has only what follows it in `tail`; and the remainder is that of `long`, where the
standard has an unsigned one.
-/
import Liballocs.DwarfMachine
import Mathlib.Data.List.Infix

namespace Liballocs.DwarfMachine

/-! ### The machine of the standard -/

/-- The two words on top are replaced by their combination. -/
def binary (op : Int64 → Int64 → Option Int64) : List Int64 → Option (List Int64)
  | x :: y :: s => (op y x).map (· :: s)
  | _ => none

/-- The remainder of two words without signs. -/
def unsignedMod (a b : Int64) : Option Int64 :=
  if b = 0 then none else some (a.toUInt64 % b.toUInt64).toInt64

/-- An operation other than a branch, on the stack's words from the top. -/
def Opcode.apply : Opcode → List Int64 → Option (List Int64)
  | .bra, _ => none
  | .dup, s => s.head?.map (· :: s)
  | .nop, s => some s
  | .mod, s => binary unsignedMod s
  | .plus, s => binary (fun a b => some (a + b)) s
  | .mul, s => binary (fun a b => some (a * b)) s
  | .lit2, s => some (2 :: s)

/-- The program from byte `n` on, if an instruction or the end is there. -/
def seek : Nat → Program → Option Program
  | 0, p => some p
  | _ + 1, [] => none
  | n + 1, i :: p => if i.encodedLength ≤ n + 1 then seek (n + 1 - i.encodedLength) p else none

/-- Every branch goes forward, to an instruction or to the end. -/
def WellFormed (p : Program) : Prop :=
  ∀ i tail, i :: tail <:+ p → i.op = .bra →
    0 < i.encodedLength ∧ 0 ≤ i.arg1 ∧ (seek i.arg1.toNat tail).isSome

/-- A program ends with `v` on top; `Lands` holds where it branches to, and `Steps` of each other
instruction that it executes and the stack there. -/
inductive Runs (Lands : Program → Prop) (Steps : Opcode → List Int64 → Prop) :
    Program → List Int64 → Int64 → Prop
  | done {s v} : Runs Lands Steps [] (v :: s) v
  | step {i tail s s' v} : i.op.apply s = some s' → Steps i.op s → Runs Lands Steps tail s' v →
      Runs Lands Steps (i :: tail) s v
  | fall {i tail s v} : i.op = .bra → Runs Lands Steps tail s v →
      Runs Lands Steps (i :: tail) (0 :: s) v
  | jump {i tail s x v target} (n : Nat) : i.op = .bra → x ≠ 0 → i.arg1 = (n : Int) →
      seek n tail = some target → Lands target → Runs Lands Steps target s v →
      Runs Lands Steps (i :: tail) (x :: s) v

/-- The end, or an instruction that does nothing. -/
def AtNop (target : Program) : Prop :=
  ∀ i ∈ target.head?, i.op = .nop

/-- A remainder is taken of words for which the sign makes no difference. -/
def SameMod (op : Opcode) (s : List Int64) : Prop :=
  op = .mod → binary longMod s = binary unsignedMod s

/-! ### The sections as one stack -/

variable {i : Instruction} {st : Stack} {n : Nat} {s s' : List Int64} {v : Int64}

namespace Stack

/-- The words of all sections, from the top. -/
def contents (st : Stack) : List Int64 :=
  st.flatMap fun s => s.words.drop s.nspare

@[simp] theorem contents_cons (s : StackSection) (prev : Stack) :
    contents (s :: prev) = s.words.drop s.nspare ++ contents prev :=
  List.flatMap_cons

theorem get_eq (st : Stack) (k : Nat) : st.get k = st.contents[k]? := by
  induction st generalizing k with
  | nil => rfl
  | cons s prev ih =>
    rw [get, contents_cons, List.getElem?_append, List.length_drop, List.getElem?_drop, ih]

theorem set_contents (v : Int64) {k : Nat} (hk : k < st.contents.length) :
    ∃ st', st.set k v = some st' ∧ st'.contents = st.contents.set k v := by
  induction st generalizing k with
  | nil => exact absurd hk (Nat.not_lt_zero k)
  | cons s prev ih =>
    rw [contents_cons, List.length_append, List.length_drop] at hk
    rw [set]
    by_cases hs : k < s.words.length - s.nspare
    · refine ⟨_, if_pos hs, ?_⟩
      rw [contents_cons, contents_cons, List.set_append_left _ _ (by simpa using hs),
        List.drop_set, if_neg (Nat.not_lt.mpr (Nat.le_add_right _ _)), Nat.add_sub_cancel_left]
    · obtain ⟨st', hset, hc⟩ := ih (k := k - (s.words.length - s.nspare)) (by omega)
      refine ⟨s :: st', by rw [if_neg hs, hset]; rfl, ?_⟩
      rw [contents_cons, contents_cons, hc, List.set_append_right _ _ (by simpa using hs),
        List.length_drop]

theorem dropN_contents (hn : 0 < n) (h : n ≤ st.contents.length) :
    ∃ st', st.dropN n = some st' ∧ st'.contents = st.contents.drop n := by
  induction st generalizing n with
  | nil => exact absurd h (Nat.not_le.mpr hn)
  | cons s prev ih =>
    rw [contents_cons, List.length_append, List.length_drop] at h
    rw [dropN, contents_cons, List.drop_append, List.drop_drop, List.length_drop]
    by_cases hs : n ≤ s.words.length - s.nspare
    · refine ⟨_, if_neg (by omega), ?_⟩
      rw [contents_cons, Nat.min_eq_right hs, Nat.sub_eq_zero_of_le hs, List.drop_zero]
    · rw [Nat.min_eq_left (by omega)]
      obtain ⟨st', hdrop, hc⟩ := ih (n := n - (s.words.length - s.nspare)) (by omega) (by omega)
      refine ⟨_, by rw [if_pos (by omega), hdrop]; rfl, ?_⟩
      have hall : s.words.drop (s.nspare + n) = [] := List.drop_eq_nil_of_le (by omega)
      simp only [contents_cons, hc, hall]
      rw [List.drop_eq_nil_of_le (by omega)]

theorem pop {x : Int64} (h : st.contents = x :: s) :
    ∃ st', st.dropN 1 = some st' ∧ st'.contents = s := by
  obtain ⟨st', hdrop, hc⟩ := dropN_contents Nat.one_pos (show 1 ≤ st.contents.length by simp [h])
  exact ⟨st', hdrop, by rw [hc, h]; rfl⟩

theorem combine_contents {op : Int64 → Int64 → Option Int64} (h : binary op st.contents = some s') :
    ∃ st', st.combine op = some st' ∧ st'.contents = s' := by
  rcases hs : st.contents with _ | ⟨x, _ | ⟨y, s⟩⟩
  · simp [hs, binary] at h
  · simp [hs, binary] at h
  · rw [hs] at h
    obtain ⟨v, hv, hs'⟩ := Option.map_eq_some_iff.mp h
    obtain ⟨st₁, hset, hc⟩ := set_contents v (show 1 < st.contents.length by simp [hs])
    obtain ⟨st₂, hdrop, hc'⟩ := pop (hc.trans (by rw [hs]; rfl) : st₁.contents = x :: v :: s)
    exact ⟨st₂, by simp [combine, get_eq, hs, hv, hset, hdrop], hc'.trans hs'⟩

end Stack

/-! ### One operation -/

theorem eval_step (h : i.op.apply st.contents = some s') (hmod : SameMod i.op st.contents) :
    ∃ st', st'.contents = s' ∧
      ∀ whole fuel tail, eval whole (fuel + 1) (i :: tail) st = eval whole fuel tail st' := by
  cases hop : i.op <;> rw [hop] at h hmod
  case bra => cases h
  case nop => exact ⟨st, Option.some.inj h, fun whole fuel tail => by rw [eval, hop]⟩
  case lit2 =>
    refine ⟨⟨0, [2]⟩ :: st, Option.some.inj h, fun whole fuel tail => ?_⟩
    rw [eval, hop]
    rfl
  case dup =>
    obtain ⟨x, hx, hs'⟩ := Option.map_eq_some_iff.mp h
    have hget : st.moreStack.get 1 = some x := by
      rw [Stack.get_eq, ← hx, List.head?_eq_getElem?]
      rfl
    refine ⟨⟨0, [x]⟩ :: st, hs', fun whole fuel tail => ?_⟩
    rw [eval, hop]
    simp only [hget]
    rfl
  case mod =>
    obtain ⟨st', hrun, hc⟩ := Stack.combine_contents ((hmod rfl).trans h)
    refine ⟨st', hc, fun whole fuel tail => ?_⟩
    rw [eval, hop]
    simp only [hrun]
    rfl
  all_goals
    obtain ⟨st', hrun, hc⟩ := Stack.combine_contents h
    refine ⟨st', hc, fun whole fuel tail => ?_⟩
    rw [eval, hop]
    simp only [hrun]
    rfl

/-! ### Branches -/

theorem byteLength_append (p q : Program) : byteLength (p ++ q) = byteLength p + byteLength q := by
  induction p with
  | nil => rw [byteLength, Nat.zero_add, List.nil_append]
  | cons i p ih => rw [List.cons_append, byteLength, ih, byteLength, Nat.add_assoc]

theorem gobbleNbytesTail_eq (n : Nat) (p : Program) :
    gobbleNbytesTail n p = (seek n p).map List.tail := by
  induction p generalizing n with
  | nil => cases n <;> rfl
  | cons i p ih =>
    cases n with
    | zero => rfl
    | succ n =>
      rw [gobbleNbytesTail, seek, apply_ite (Option.map List.tail), ← ih]
      rfl

theorem seek_cons (hpos : 0 < i.encodedLength + n) (p : Program) :
    seek (i.encodedLength + n) (i :: p) = seek n p := by
  obtain ⟨m, hm⟩ := Nat.exists_eq_add_one_of_ne_zero hpos.ne'
  rw [hm, seek, ← hm, if_pos (Nat.le_add_right _ _), Nat.add_sub_cancel_left]

/-- The byte index that a branch computes is counted from the instruction behind it. -/
theorem seek_append (hi : 0 < i.encodedLength) (n : Nat) (pre tail : Program) :
    seek (byteLength pre + (i.encodedLength + n)) (pre ++ i :: tail) = seek n tail := by
  induction pre with
  | nil => rw [byteLength, Nat.zero_add, List.nil_append, seek_cons (by omega)]
  | cons j pre ih =>
    rw [byteLength, Nat.add_assoc, List.cons_append, seek_cons (by omega), ih]

theorem seek_suffix {p target : Program} (h : seek n p = some target) : target <:+ p := by
  induction p generalizing n with
  | nil =>
    cases n with
    | zero => exact Option.some.inj h ▸ List.suffix_rfl
    | succ n => cases h
  | cons i p ih =>
    cases n with
    | zero => exact Option.some.inj h ▸ List.suffix_rfl
    | succ n =>
      rw [seek] at h
      split at h
      · exact (ih h).trans (List.suffix_cons i p)
      · cases h

/-! ### The run -/

theorem eval_of_runs {prog p : Program} (hwf : WellFormed prog) (h : Runs AtNop SameMod p s v) :
    ∀ {st : Stack} {fuel}, p <:+ prog → st.contents = s → p.length < fuel →
      eval prog fuel p st = some v := by
  induction h with
  | done =>
    intro st fuel _ hst hfuel
    obtain ⟨fuel, rfl⟩ := Nat.exists_eq_add_one_of_ne_zero (Nat.ne_zero_of_lt hfuel)
    rw [eval, Stack.get_eq, hst]
    rfl
  | step happly hmod _ ih =>
    intro st fuel hp hst hfuel
    obtain ⟨fuel, rfl⟩ := Nat.exists_eq_add_one_of_ne_zero (Nat.ne_zero_of_lt hfuel)
    obtain ⟨st', hc, heq⟩ := eval_step (hst ▸ happly) (hst ▸ hmod)
    rw [heq]
    exact ih ((List.suffix_cons _ _).trans hp) hc (Nat.lt_of_succ_lt_succ hfuel)
  | fall hop _ ih =>
    intro st fuel hp hst hfuel
    obtain ⟨fuel, rfl⟩ := Nat.exists_eq_add_one_of_ne_zero (Nat.ne_zero_of_lt hfuel)
    obtain ⟨st', hdrop, hc⟩ := Stack.pop hst
    rw [eval, hop]
    simp only [Stack.get_eq, hst, hdrop]
    exact ih ((List.suffix_cons _ _).trans hp) hc (Nat.lt_of_succ_lt_succ hfuel)
  | @jump i tail s x v target n hop hx harg hseek hlands _ ih =>
    intro st fuel hp hst hfuel
    obtain ⟨fuel, rfl⟩ := Nat.exists_eq_add_one_of_ne_zero (Nat.ne_zero_of_lt hfuel)
    obtain ⟨st', hdrop, hc⟩ := Stack.pop hst
    have htarget := seek_suffix hseek
    have hlt : target.length < fuel := Nat.lt_of_le_of_lt htarget.length_le
      (Nat.lt_of_succ_lt_succ hfuel)
    have hsuffix := htarget.trans ((List.suffix_cons i tail).trans hp)
    have hpos := (hwf i tail hp hop).1
    obtain ⟨pre, rfl⟩ := hp
    have hgobble : gobbleNbytesTail (byteLength pre + (i.encodedLength + n)) (pre ++ i :: tail)
        = some target.tail := by
      rw [gobbleNbytesTail_eq, seek_append hpos, hseek]
      rfl
    have hindex : ((byteLength (pre ++ i :: tail) - byteLength (i :: tail) : Nat)
        + (i.encodedLength : Int) + i.arg1).toNat? = some (byteLength pre + (i.encodedLength + n)) := by
      rw [byteLength_append, Nat.add_sub_cancel, harg, Int.add_assoc]
      rfl
    have hrun : eval (pre ++ i :: tail) (fuel + 1) (i :: tail) st
        = eval (pre ++ i :: tail) fuel target.tail st' := by
      rw [eval, hop]
      simp only [Stack.get_eq, hst, hdrop]
      show (if x ≠ 0 then _ else _) = _
      rw [if_pos hx, hindex]
      simp [hgobble]
    rw [hrun]
    -- the instruction at the target is left out
    rcases target with _ | ⟨j, rest⟩
    · exact ih hsuffix hc hlt
    · have hskip := ih hsuffix hc (hlt.trans fuel.lt_succ_self)
      rw [eval, hlands j rfl] at hskip
      exact hskip

/-- Where every branch taken finds the end or a `nop`, and each remainder is the same with a sign, the
value is the standard's. -/
theorem eval_correct {prog : Program} {st : Stack} {v : Int64} (hwf : WellFormed prog)
    (h : Runs AtNop SameMod prog st.contents v) {fuel : Nat} (hfuel : prog.length < fuel) :
    eval prog fuel prog st = some v :=
  eval_of_runs hwf h List.suffix_rfl rfl hfuel

/-- `lit2; bra 0`, which goes on with what follows. -/
abbrev branching (next : Program) : Program :=
  { op := .lit2 } :: { op := .bra, encodedLength := 3 } :: next

theorem eval_correct_sample :
    eval (branching [⟨.nop, 0, 1⟩, ⟨.lit2, 0, 1⟩, ⟨.mod, 0, 1⟩]) 6
      (branching [⟨.nop, 0, 1⟩, ⟨.lit2, 0, 1⟩, ⟨.mod, 0, 1⟩]) [⟨0, [5]⟩] = some 1 :=
  eval_correct (by simp [WellFormed, List.suffix_cons_iff, or_imp, forall_and, seek])
    (.step rfl (by simp [SameMod]) (.jump 0 rfl (by decide) rfl rfl (by simp [AtNop])
      (.step rfl (by simp [SameMod]) (.step rfl (by simp [SameMod])
        (.step rfl (fun _ => by decide) .done))))) (by decide)

/-- The `lit2` at the target is not executed, and the stack is left with its 5.  And the remainder of
-1 by 2 is -1, not 1. -/
theorem eval_skips_target :
    (WellFormed (branching [⟨.lit2, 0, 1⟩])
      ∧ Runs (fun _ => True) (fun _ _ => True) (branching [⟨.lit2, 0, 1⟩]) [5] 2
      ∧ eval (branching [⟨.lit2, 0, 1⟩]) 4 (branching [⟨.lit2, 0, 1⟩]) [⟨0, [5]⟩] = some 5)
    ∧ Runs (fun _ => True) (fun _ _ => True) [⟨.mod, 0, 1⟩] [2, -1] 1
      ∧ eval [⟨.mod, 0, 1⟩] 2 [⟨.mod, 0, 1⟩] [⟨0, [2, -1]⟩] = some (-1) :=
  ⟨⟨by simp [WellFormed, List.suffix_cons_iff, or_imp, forall_and, seek],
    .step rfl trivial (.jump 0 rfl (by decide) rfl rfl trivial (.step rfl trivial .done)), by decide⟩,
    .step (show _ = some [1] by decide) trivial .done, by decide⟩

end Liballocs.DwarfMachine
