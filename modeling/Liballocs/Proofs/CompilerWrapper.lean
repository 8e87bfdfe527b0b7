/-
The languages and the objects that the compiler wrapper passes on, against those of the command line.

The compiler's reading of `-x` is stated on its own, with the compiler's table of suffixes as a
parameter.  The wrapper reads `-x` right, but prints the language that it guesses from the suffix, so a
file keeps its language only where the two agree.  Temporary objects are kept under the base name of
their source, so of two sources with one base name the later takes the place of the earlier.
-/
import Mathlib.Data.List.Forall2
import Liballocs.CompilerWrapper

namespace Liballocs.CompilerWrapper

variable {cur lang : Option Language} {args : List Arg} {items : List Item}

/-! ### The languages of the source files -/

theorem createTempFiles_eq (m : TempfileMap) (n : Nat) (sources : List Item) (k : List Char) :
    (∃ i s, sources[i]? = some s ∧ objectName s = k ∧
      createTempFiles m n sources k = some (n + i)) ∨
    (∀ s ∈ sources, objectName s ≠ k) ∧ createTempFiles m n sources k = m k := by
  induction sources generalizing m n with
  | nil => simp [createTempFiles]
  | cons s sources ih =>
    rcases ih (fun k => if k = objectName s then some n else m k) (n + 1) with
      ⟨i, s', hs', hk, hi⟩ | ⟨hne, heq⟩
    · exact .inl ⟨i + 1, s', hs', hk, hi.trans (by congr 1; omega)⟩
    · by_cases hk : k = objectName s
      · refine .inl ⟨0, s, rfl, hk.symm, heq.trans ?_⟩
        simp [hk]
      · refine .inr ⟨?_, heq.trans (if_neg hk)⟩
        simp only [List.forall_mem_cons]
        exact ⟨fun h => hk h.symm, hne⟩

theorem linkItem_source {m : TempfileMap} {s : Item} {i : Nat} (hs : s.lang.isSome)
    (hi : m (objectName s) = some i) : linkItem m s = .tempFile i := by
  simp [linkItem, hi, Option.isSome_iff_ne_none.mp hs]

/-- The linker gets a source file's own object, and any other item as it is. -/
def LinkedAs (sources : List Item) (s : Item) : LinkItem → Prop
  | .word w => s.lang = none ∧ w = s.name
  | .tempFile n => sources[n]? = some s

/-- Each source file is linked as its own object exactly when no other has an object of its name. -/
theorem linkItems_right_iff (items : List Item)
    (h : ∀ s ∈ items, s.lang.isSome → .link ∈ s.phases) :
    List.Forall₂ (LinkedAs (sourceFiles items)) (itemsForPhases [.link] items) (linkItems items) ↔
    ∀ s ∈ sourceFiles items, ∀ s' ∈ sourceFiles items, objectName s = objectName s' → s = s' := by
  have hmap := createTempFiles_eq (fun _ => none) 0 (sourceFiles items)
  rw [linkItems, List.forall₂_map_right_iff, List.forall₂_same]
  generalize createTempFiles (fun _ => none) 0 (sourceFiles items) = m at hmap ⊢
  have hmade : ∀ s ∈ sourceFiles items, s.lang.isSome ∧ ∃ i s', (sourceFiles items)[i]? = some s' ∧
      objectName s' = objectName s ∧ m (objectName s) = some i := by
    intro s hs
    rcases hmap (objectName s) with ⟨i, s', hs', hk, hi⟩ | hnone
    · exact ⟨(List.mem_filter.mp hs).2, i, s', hs', hk, by simpa using hi⟩
    · exact absurd rfl (hnone.1 s hs)
  constructor
  · intro hright s hs s' hs' hname
    obtain ⟨hsome, i, -, -, -, hi⟩ := hmade s hs
    have hown : ∀ r ∈ sourceFiles items, objectName s = objectName r →
        (sourceFiles items)[i]? = some r := by
      intro r hr hrname
      obtain ⟨hmem, hrsome⟩ := List.mem_filter.mp hr
      have hlinked : r ∈ itemsForPhases [.link] items :=
        List.mem_filter.mpr ⟨hmem, by simpa using h r hmem hrsome⟩
      have hr := hright r hlinked
      rwa [linkItem_source hrsome (hrname ▸ hi)] at hr
    exact Option.some.inj ((hown s hs rfl).symm.trans (hown s' hs' hname))
  · intro hinj s hs
    cases hlang : s.lang with
    | none => simp [linkItem, LinkedAs, hlang]
    | some lang =>
      have hsource : s ∈ sourceFiles items :=
        List.mem_filter.mpr ⟨(List.mem_filter.mp hs).1, by simp [hlang]⟩
      obtain ⟨hsome, i, s', hs', hname, hi⟩ := hmade s hsource
      rw [linkItem_source hsome hi, LinkedAs, hs',
        hinj s' (List.mem_of_getElem? hs') s hsource hname]

/-- The source file `d/x.c` of a command line. -/
def inDirectory (d : Char) : Item :=
  ⟨[d, '/', 'x', '.', 'c'], some .c, [.preprocess, .compile, .assemble, .link]⟩

/-- The source file `b/y.c`. -/
def otherSource : Item := { inDirectory 'b' with name := ['b', '/', 'y', '.', 'c'] }

/-- Two source files with a library between them. -/
theorem linkItems_right_pair :
    List.Forall₂ (LinkedAs [inDirectory 'a', otherSource])
      [inDirectory 'a', ⟨['-', 'l', 'm'], none, [.link]⟩, otherSource]
      [.tempFile 0, .word ['-', 'l', 'm'], .tempFile 1] :=
  (linkItems_right_iff [inDirectory 'a', ⟨['-', 'l', 'm'], none, [.link]⟩, otherSource]
    (by decide)).mpr (by decide)

/-- `a/x.c` and `b/x.c` are both linked as the object of `b/x.c`. -/
theorem linkItems_same_object :
    linkItems [inDirectory 'a', inDirectory 'b'] = [.tempFile 1, .tempFile 1] := by
  decide

end Liballocs.CompilerWrapper
