/-
What is mapped already.

`addMissingMappingsFromProc_eq` takes the loop apart: lines are gathered into sequences (`Gathered`),
which are then registered one after the other.  On free addresses each one gets a bigalloc
(`Creatable`); at a second pass each one is found to be there (`Holds`).
-/
import Liballocs.Maps
import Liballocs.Proofs.MmapFree

namespace Liballocs

open Forest Segments

/-! ### Lines -/

namespace MapsEntry

variable {env : Env} {ent : MapsEntry} {name : String}

/-- A line of the file, not of page zero, whose path field says neither heap nor stack. -/
structure Valid (ent : MapsEntry) : Prop where
  first_pos : 0 < ent.first
  lt : ent.first < ent.second
  aligned : PageAligned ent.first ∧ PageAligned ent.second
  path : ent.rest = "" ∨ startsWith ent.rest "/" = true ∨ startsWith ent.rest "[" = true
  not_heap : startsWith ent.rest "[heap" = false
  not_stack : startsWith ent.rest "[stack" = false

instance : Decidable ent.Valid :=
  decidable_of_iff (0 < ent.first ∧ ent.first < ent.second
      ∧ (PageAligned ent.first ∧ PageAligned ent.second)
      ∧ (ent.rest = "" ∨ startsWith ent.rest "/" = true ∨ startsWith ent.rest "[" = true)
      ∧ startsWith ent.rest "[heap" = false ∧ startsWith ent.rest "[stack" = false)
    ⟨fun ⟨h1, h2, h3, h4, h5, h6⟩ => ⟨h1, h2, h3, h4, h5, h6⟩,
      fun ⟨h1, h2, h3, h4, h5, h6⟩ => ⟨h1, h2, h3, h4, h5, h6⟩⟩

/-- Is the line added at all?  Memtables and kernel pages are not. -/
def Taken (env : Env) (ent : MapsEntry) : Prop :=
  ent.second - ent.first ≤ env.biggestSaneUserAlloc ∧ ent.first < 2 ^ 63

instance : Decidable (ent.Taken env) := inferInstanceAs (Decidable (_ ∧ _))

/-- The addresses of a line. -/
def range (ent : MapsEntry) : Set Nat := { x | ent.first ≤ x ∧ x < ent.second }

/-- The mapping that a line stands for. -/
def request (ent : MapsEntry) : Mapping := ent.mapping ent.filename.join

theorem Valid.filename_eq (h : ent.Valid) : ent.filename = some ent.filename.join := by
  unfold filename
  rcases h.path with hrest | hrest | hrest
  · rw [hrest]
    rfl
  all_goals
    obtain ⟨l, hl⟩ := List.isPrefixOf_iff_prefix.mp hrest
    rw [← hl]
    rfl

theorem eq_of_filename_join (h : ent.filename.join = some name) : name = ent.rest := by
  revert h
  unfold filename
  split
  · intro h
    cases h
  · intro h
    cases h
    rfl
  · split
    · intro h
      cases h
      rfl
    · intro h
      cases h
  · intro h
    cases h

theorem Valid.extendCurrent_eq (h : ent.Valid) (objectBelow : Nat → Nat) (cur : MappingSequence) :
    cur.extendCurrent objectBelow ent = cur.augmentSequence objectBelow ent.request := by
  unfold MappingSequence.extendCurrent
  rw [h.filename_eq]
  rfl

theorem Valid.request_notStack (h : ent.Valid)
    (hname : ent.request.filename = some name) : startsWith name "[stack" = false := by
  rw [eq_of_filename_join hname]
  exact h.not_stack

end MapsEntry

/-- Lines of the file, in the order of their addresses. -/
structure MapsLines (ents : List MapsEntry) : Prop where
  valid : ∀ ent ∈ ents, ent.Valid
  sorted : ents.Pairwise fun ent ent' => ent.second ≤ ent'.first

instance {ents : List MapsEntry} : Decidable (MapsLines ents) :=
  decidable_of_iff ((∀ ent ∈ ents, ent.Valid)
      ∧ ents.Pairwise fun ent ent' => ent.second ≤ ent'.first)
    ⟨fun ⟨h1, h2⟩ => ⟨h1, h2⟩, fun ⟨h1, h2⟩ => ⟨h1, h2⟩⟩

theorem MapsLines.eq_of_mem_range {ents : List MapsEntry} (h : MapsLines ents) {ent ent' : MapsEntry}
    (hent : ent ∈ ents) (hent' : ent' ∈ ents) {x : Nat} (hx : x ∈ ent.range)
    (hx' : x ∈ ent'.range) : ent = ent' := by
  by_contra hne
  have : Std.Symm fun ent ent' : MapsEntry =>
      ent.second ≤ ent'.first ∨ ent'.second ≤ ent.first := ⟨fun _ _ => Or.symm⟩
  have hsorted : ents.Pairwise fun ent ent' =>
      ent.second ≤ ent'.first ∨ ent'.second ≤ ent.first := h.sorted.imp Or.inl
  have hap := hsorted.forall hent hent' hne
  obtain ⟨h1, h2⟩ := hx
  obtain ⟨h1', h2'⟩ := hx'
  omega

theorem MapsLines.tail {ent : MapsEntry} {ents : List MapsEntry} (h : MapsLines (ent :: ents)) :
    MapsLines ents :=
  ⟨fun ent' hent => h.valid ent' (.tail _ hent), (List.pairwise_cons.mp h.sorted).2⟩

/-! ### Gathering -/

namespace MappingSequence

variable {env : Env} {s : MappingSequence} {r : Mapping} {ent : MapsEntry} {ents : List MapsEntry}
  {x : Nat}

/-- The sequence is not the one of the stack. -/
def NotStack (s : MappingSequence) : Prop :=
  ∀ name, s.filename = some name → startsWith name "[stack" = false

theorem NotStack.extend (h : s.NotStack)
    (hr : ∀ name, r.filename = some name → startsWith name "[stack" = false) :
    (s.extend r).NotStack := by
  intro name hname
  by_cases hs : s.filename.isNone
  · exact hr name ((if_pos hs).symm.trans hname)
  · exact h name ((if_neg hs).symm.trans hname)

/-- The current sequence is empty, or sane with the lines to come behind it. -/
def Current (s : MappingSequence) (ents : List MapsEntry) : Prop :=
  s = {} ∨ (s.Sane ∧ s.NotStack ∧ ∀ ent ∈ ents, s.end_ ≤ ent.first)

theorem Current.tail (h : Current s (ent :: ents)) : Current s ents :=
  h.imp id fun h => ⟨h.1, h.2.1, fun ent' hent => h.2.2 ent' (.tail _ hent)⟩

theorem current_extend (hl : MapsLines (ent :: ents)) (hs : (s.extend ent.request).Sane)
    (hstack : s.NotStack) : Current (s.extend ent.request) ents :=
  .inr ⟨hs, hstack.extend fun _ => (hl.valid ent (.head _)).request_notStack,
    (List.pairwise_cons.mp hl.sorted).1⟩

theorem current_first (hl : MapsLines (ent :: ents)) : Current (extend {} ent.request) ents := by
  have hvalid := hl.valid ent (.head _)
  exact current_extend hl (extend_empty hvalid.first_pos hvalid.lt).1 fun _ h => by cases h

/-- A line is taken as one more entry, or refused. -/
theorem Current.augmentSequence_cases (h : Current s (ent :: ents)) (hl : MapsLines (ent :: ents))
    (objectBelow : Nat → Nat) :
    (s.augmentSequence objectBelow ent.request = some (true, s.extend ent.request)
        ∧ Current (s.extend ent.request) ents)
      ∨ (s.augmentSequence objectBelow ent.request = some (false, s) ∧ s.Sane ∧ s.NotStack) := by
  rcases h with rfl | ⟨hs, hstack, hafter⟩
  · exact .inl ⟨augmentSequence_empty objectBelow _, current_first hl⟩
  · have hle : s.end_ ≤ ent.request.begin := hafter ent (.head _)
    have hne : ent.request.begin < ent.request.end_ := (hl.valid ent (.head _)).lt
    rcases hs.augmentSequence_cases objectBelow ((Nat.le_of_lt hs.begin_lt_end).trans hle) hne
      with hno | ⟨hend, hroom, hyes⟩ | ⟨hlt, -⟩
    · exact .inr ⟨hno, hs, hstack⟩
    · exact .inl ⟨hyes, current_extend hl (hs.extend hroom hend hne).1 hstack⟩
    · exact absurd hle (Nat.not_le_of_gt hlt)

/-- The sequences into which the lines are gathered, `s` being the current one. -/
def gathered (env : Env) : MappingSequence → List MapsEntry → List MappingSequence
  | s, [] => if s.nused > 0 then [s] else []
  | s, ent :: ents =>
    if ent.Taken env then
      match s.augmentSequence env.objectBelow ent.request with
      | some (true, s') => gathered env s' ents
      | _ => s :: gathered env (extend {} ent.request) ents
    else gathered env s ents

/-- Sane sequences with these entries, in this order. -/
structure Gathered (entries : List MappingEntry) (ss : List MappingSequence) : Prop where
  sane : ∀ s ∈ ss, s.Sane
  notStack : ∀ s ∈ ss, s.NotStack
  entries_eq : ss.flatMap MappingSequence.entries = entries

theorem Gathered.nil : Gathered [] [] := ⟨by simp, by simp, rfl⟩

theorem Gathered.cons {l : List MappingEntry} {ss : List MappingSequence} (h : Gathered l ss)
    (hs : s.Sane) (hstack : s.NotStack) : Gathered (s.entries ++ l) (s :: ss) where
  sane := List.forall_mem_cons.mpr ⟨hs, h.sane⟩
  notStack := List.forall_mem_cons.mpr ⟨hstack, h.notStack⟩
  entries_eq := by rw [List.flatMap_cons, h.entries_eq]

/-- The entries of the lines that are taken. -/
def takenEntries (env : Env) (ents : List MapsEntry) : List MappingEntry :=
  (ents.filter fun ent => ent.Taken env).map fun ent => ent.request.entry

theorem gathered_spec (env : Env) (h : Current s ents) (hl : MapsLines ents) :
    Gathered (s.entries ++ takenEntries env ents) (gathered env s ents) := by
  induction ents generalizing s with
  | nil =>
    unfold gathered
    rw [show takenEntries env [] = [] from rfl]
    rcases h with rfl | ⟨hs, hstack, -⟩
    · exact Gathered.nil
    · rw [if_pos hs.pos]
      exact Gathered.nil.cons hs hstack
  | cons ent ents ih =>
    unfold gathered
    by_cases ht : ent.Taken env
    · have htaken : takenEntries env (ent :: ents)
          = ent.request.entry :: takenEntries env ents := by
        simp [takenEntries, ht]
      rw [if_pos ht, htaken]
      rcases h.augmentSequence_cases hl env.objectBelow with ⟨heq, hcur⟩ | ⟨heq, hs, hstack⟩
      · rw [heq]
        have hrest := ih hcur hl.tail
        rw [entries_extend, List.append_assoc] at hrest
        exact hrest
      · rw [heq]
        have hrest := ih (current_first hl) hl.tail
        exact hrest.cons hs hstack
    · have htaken : takenEntries env (ent :: ents) = takenEntries env ents := by
        simp [takenEntries, ht]
      rw [if_neg ht, htaken]
      exact ih h.tail hl.tail

theorem Sane.exists_entry (h : s.Sane) (h1 : s.begin ≤ x) (h2 : x < s.end_) :
    ∃ e ∈ s.entries, e.begin ≤ x ∧ x < e.end_ ∧ s.findEntry x = some e := by
  obtain ⟨e, he⟩ := Option.isSome_iff_exists.mp ((h.contig.at?_isSome x).mpr ⟨h1, h2⟩)
  obtain ⟨hmem, hlo, hhi⟩ := mem_of_at? he
  exact ⟨e, hmem, hlo, hhi, he⟩

namespace Gathered

variable {ss : List MappingSequence}

section

variable (h : Gathered (takenEntries env ents) ss)
include h

theorem exists_line {e : MappingEntry} (hs : s ∈ ss)
    (he : e ∈ s.entries) : ∃ ent ∈ ents, ent.Taken env ∧ ent.request.entry = e := by
  have hmem : e ∈ takenEntries env ents := by
    rw [← h.entries_eq]
    exact List.mem_flatMap.mpr ⟨s, hs, he⟩
  obtain ⟨ent, hent, heq⟩ := List.mem_map.mp hmem
  obtain ⟨hent, htaken⟩ := List.mem_filter.mp hent
  exact ⟨ent, hent, of_decide_eq_true htaken, heq⟩

theorem exists_sequence (hent : ent ∈ ents)
    (ht : ent.Taken env) : ∃ s ∈ ss, ent.request.entry ∈ s.entries := by
  refine List.mem_flatMap.mp ?_
  rw [h.entries_eq]
  exact List.mem_map.mpr ⟨ent, List.mem_filter.mpr ⟨hent, decide_eq_true ht⟩, rfl⟩

theorem exists_ends (hs : s ∈ ss) :
    (∃ ent ∈ ents, ent.first = s.begin) ∧ ∃ ent ∈ ents, ent.second = s.end_ := by
  have hsane := h.sane s hs
  have hlt := hsane.begin_lt_end
  constructor
  · obtain ⟨e, he, h1, -, -⟩ := hsane.exists_entry le_rfl hlt
    obtain ⟨ent, hent, -, rfl⟩ := h.exists_line hs he
    exact ⟨ent, hent, Nat.le_antisymm h1 (hsane.contig.mem_bounds he).1⟩
  · obtain ⟨e, he, -, h2, -⟩ := hsane.exists_entry (Nat.le_sub_one_of_lt hlt)
      (Nat.sub_one_lt_of_lt hlt)
    obtain ⟨ent, hent, -, rfl⟩ := h.exists_line hs he
    exact ⟨ent, hent, Nat.le_antisymm (hsane.contig.mem_bounds he).2.2 (Nat.le_of_pred_lt h2)⟩

theorem aligned (hl : MapsLines ents) (hs : s ∈ ss) : PageAligned s.begin ∧ PageAligned s.end_ := by
  obtain ⟨⟨ent, hent, hb⟩, ent', hent', he⟩ := h.exists_ends hs
  exact ⟨hb ▸ (hl.valid ent hent).aligned.1, he ▸ (hl.valid ent' hent').aligned.2⟩

theorem sorted (hl : MapsLines ents) : ss.Pairwise fun s s' => s.end_ ≤ s'.begin := by
  have hentries : (takenEntries env ents).Pairwise fun e e' => e.end_ ≤ e'.begin :=
    List.pairwise_map.mpr (hl.sorted.sublist List.filter_sublist)
  rw [← h.entries_eq, List.pairwise_flatMap] at hentries
  refine hentries.2.imp_of_mem fun {s s'} hs hs' hall => ?_
  have hlt := (h.sane s hs).begin_lt_end
  have hlt' := (h.sane s' hs').begin_lt_end
  obtain ⟨e, he, -, h2, -⟩ := (h.sane s hs).exists_entry (Nat.le_sub_one_of_lt hlt)
    (Nat.sub_one_lt_of_lt hlt)
  obtain ⟨e', he', h1, -, -⟩ := (h.sane s' hs').exists_entry le_rfl hlt'
  have hle := hall e he e' he'
  omega

theorem exists_mem_iff :
    (∃ s ∈ ss, s.begin ≤ x ∧ x < s.end_) ↔ ∃ ent ∈ ents, ent.Taken env ∧ x ∈ ent.range := by
  constructor
  · rintro ⟨s, hs, h1, h2⟩
    obtain ⟨e, he, hlo, hhi, -⟩ := (h.sane s hs).exists_entry h1 h2
    obtain ⟨ent, hent, htaken, rfl⟩ := h.exists_line hs he
    exact ⟨ent, hent, htaken, hlo, hhi⟩
  · rintro ⟨ent, hent, htaken, hlo, hhi⟩
    obtain ⟨s, hs, he⟩ := h.exists_sequence hent htaken
    obtain ⟨h1, -, h2⟩ := (h.sane s hs).contig.mem_bounds he
    exact ⟨s, hs, h1.trans hlo, hhi.trans_le h2⟩

theorem findEntry_eq (hl : MapsLines ents) (hs : s ∈ ss) (h1 : s.begin ≤ x) (h2 : x < s.end_)
    (hent : ent ∈ ents) (hx : x ∈ ent.range) : s.findEntry x = some ent.request.entry := by
  obtain ⟨e, he, hlo, hhi, hfind⟩ := (h.sane s hs).exists_entry h1 h2
  obtain ⟨ent', hent', -, rfl⟩ := h.exists_line hs he
  rw [hfind, hl.eq_of_mem_range hent hent' hx ⟨hlo, hhi⟩]

end

end Gathered

end MappingSequence

namespace Table

open MappingSequence

variable {env : Env} {t t₁ t' : Table} {s : MappingSequence} {ss : List MappingSequence}
  {ent : MapsEntry} {ents : List MapsEntry} {b n x : Nat}

/-! ### The loop taken apart -/

/-- The sequences are registered one after the other. -/
def registerAll (env : Env) (t : Table) (ss : List MappingSequence) : Option Table :=
  ss.foldlM (fun t s => t.addMappingSequenceBigallocIfAbsent env s) t

theorem registerAll_cons (env : Env) (t : Table) (s : MappingSequence) (ss : List MappingSequence) :
    t.registerAll env (s :: ss)
      = (t.addMappingSequenceBigallocIfAbsent env s).bind fun t => t.registerAll env ss :=
  List.foldlM_cons

/-- The last sequence is registered, if it has an entry. -/
def finishLast (env : Env) (st : Table × MappingSequence) : Option Table :=
  if st.2.nused > 0 then st.1.addMappingSequenceBigallocIfAbsent env st.2 else some st.1

theorem addMissingCb_skip (endAddr : Nat) (st : Table × MappingSequence) (h : ¬ ent.Taken env) :
    addMissingCb env endAddr st ent = some st := by
  unfold addMissingCb
  by_cases hsize : ent.second - ent.first > env.biggestSaneUserAlloc
  · exact if_pos hsize
  · have hfirst : ent.first ≥ 2 ^ 63 := by
      by_contra hlt
      exact h ⟨Nat.le_of_not_gt hsize, Nat.lt_of_not_ge hlt⟩
    rw [if_neg hsize, if_pos (.inr hfirst)]

theorem addMissingCb_take (endAddr : Nat) (st : Table × MappingSequence) (hv : ent.Valid)
    (h : ent.Taken env) : addMissingCb env endAddr st ent = st.1.gather env st.2 ent := by
  have hsize : ¬ (ent.second - ent.first = 0 ∨ ent.first ≥ 2 ^ 63) := by
    have hlt := hv.lt
    rintro (h0 | h0)
    · omega
    · exact absurd h.2 (Nat.not_lt_of_ge h0)
  unfold addMissingCb
  simp only [if_neg h.1.not_gt, if_neg hsize, hv.not_heap, Bool.false_eq_true, if_false]

theorem flushCurrent_eq (t : Table) (s : MappingSequence) (hv : ent.Valid) :
    t.flushCurrent env s ent
      = (t.addMappingSequenceBigallocIfAbsent env s).map fun t => (t, extend {} ent.request) := by
  unfold flushCurrent
  rw [hv.extendCurrent_eq, augmentSequence_empty]
  cases t.addMappingSequenceBigallocIfAbsent env s <;> rfl

theorem foldlM_addMissingCb (endAddr : Nat) (t : Table) (h : Current s ents) (hl : MapsLines ents) :
    (ents.foldlM (addMissingCb env endAddr) (t, s)).bind (finishLast env)
      = t.registerAll env (gathered env s ents) := by
  induction ents generalizing s t with
  | nil =>
    unfold gathered
    change finishLast env (t, s) = _
    unfold finishLast
    split
    · rw [registerAll_cons]
      exact (Option.bind_fun_some _).symm
    · rfl
  | cons ent ents ih =>
    have hv := hl.valid ent (.head _)
    rw [List.foldlM_cons]
    unfold gathered
    by_cases ht : ent.Taken env
    · rw [if_pos ht, addMissingCb_take endAddr _ hv ht]
      unfold gather
      rw [hv.extendCurrent_eq]
      rcases h.augmentSequence_cases hl env.objectBelow with ⟨heq, hcur⟩ | ⟨heq, -, -⟩
      · rw [heq]
        exact ih t hcur hl.tail
      · rw [heq, registerAll_cons]
        change ((t.flushCurrent env s ent).bind _).bind _ = _
        rw [flushCurrent_eq t s hv]
        cases t.addMappingSequenceBigallocIfAbsent env s with
        | none => rfl
        | some t₁ => exact ih t₁ (current_first hl) hl.tail
    · rw [if_neg ht, addMissingCb_skip endAddr _ ht]
      exact ih t h.tail hl.tail

/-- Lines are gathered first, and the sequences registered then. -/
theorem addMissingMappingsFromProc_eq (endAddr : Nat) (t : Table) (hl : MapsLines ents) :
    t.addMissingMappingsFromProc env endAddr ents = t.registerAll env (gathered env {} ents) :=
  foldlM_addMissingCb endAddr t (.inl rfl) hl

/-! ### Registering -/

theorem freeRange_gathered (h : Gathered (takenEntries env ents) ss)
    (hfree : ∀ ent ∈ ents, t.FreeRange ent.first ent.second) (hwf : t.WellFormed) (hs : s ∈ ss) :
    t.FreeRange s.begin s.end_ := by
  intro r hr
  by_contra hc
  have hbounds := hwf.bounds r hr.1
  have hlt := (h.sane s hs).begin_lt_end
  obtain ⟨e, he, h1, h2, -⟩ := (h.sane s hs).exists_entry
    (x := max s.begin (t r).begin) (by omega) (by omega)
  obtain ⟨ent, hent, -, rfl⟩ := h.exists_line hs he
  have hap := hfree ent hent r hr
  have hfirst : ent.request.entry.begin = ent.first := rfl
  have hsecond : ent.request.entry.end_ = ent.second := rfl
  omega

theorem goAhead_eq (env : Env) (t : Table) (hstack : s.NotStack) :
    t.goAhead env s = (t.addMappingSequenceBigallocCopyingSeq env s).map Prod.snd := by
  unfold goAhead
  cases hname : s.filename with
  | none => cases t.addMappingSequenceBigallocCopyingSeq env s <;> rfl
  | some name =>
    have hno := hstack name hname
    cases t.addMappingSequenceBigallocCopyingSeq env s with
    | none => rfl
    | some bt =>
      simp only [hno, Bool.false_eq_true, if_false, some_bind, Option.map_some]

theorem Creatable.rootOf_eq (hc : t.Creatable env s) (h : t.WellFormed) (h1 : s.begin ≤ x)
    (h2 : x < s.end_) : t.rootOf nbigallocs (t.pageindex (pagenum x)) = some 0 := by
  obtain ⟨i, hi⟩ := hc.aligned.1
  have hzero : t.pageindex (pagenum x) = 0 := by
    refine hc.free.pageindex_eq_zero h ?_ ?_
    · simp only [pagenum, pageSize] at hi ⊢
      omega
    · simp only [pagenum, pageSize]
      omega
  rw [hzero]
  exact rootOf_null h.links

theorem Creatable.register {k : Nat} (hc : t.Creatable env s) (h : t.WellFormed)
    (hstack : s.NotStack) (hroom : t.HasFree (k + 1)) :
    ∃ b t', t.addMappingSequenceBigallocIfAbsent env s = some t' ∧ t.Created s b t' := by
  obtain ⟨b, t₁, first, last, hunused, hadd, hnew, hwf⟩ := hc.newBigalloc_eq h hroom
  have hrest := hadd.rest
  have hheap : t₁.nextPrivate = t.nextPrivate := by rw [hrest]
  have hcopy : t.addMappingSequenceBigallocCopyingSeq env s
      = some (b, ((t₁.setPages first last b).privateMalloc s).2.setAllocatorPrivate b
          t.nextPrivate (some .privateNommapFree)) := by
    change (t.newBigalloc env s.request).bind _ = _
    rw [hnew, ← hheap]
    rfl
  have hmade : t.Created s b (((t₁.setPages first last b).privateMalloc s).2.setAllocatorPrivate b
      t.nextPrivate (some .privateNommapFree)) := by
    refine hadd.created hc.lt hunused rfl (hwf.of_shape (fun _ => rfl) rfl rfl rfl) rfl ?_ ?_ ?_
    · change Function.update t₁.sequences t₁.nextPrivate _ = _
      rw [hheap, hrest]
    · exact congrArg (· + 1) hheap
    · unfold SameStaticsButHeap
      rw [hrest]
      rfl
  refine ⟨b, _, ?_, hmade⟩
  have hlt := hc.lt
  unfold addMappingSequenceBigallocIfAbsent
  rw [hc.rootOf_eq h le_rfl hlt,
    hc.rootOf_eq h (Nat.le_sub_one_of_lt hlt) (Nat.sub_one_lt_of_lt hlt)]
  rw [goAhead_eq env t hstack, hcopy]
  rfl

/-- `b` is the bigalloc of the sequence, of which it has a copy. -/
structure Holds (t : Table) (s : MappingSequence) (b : Nat) : Prop where
  inUse : t.InUse b
  record : (t.bigAllocations b).core = s.record (t.seqOf b)
  allocated : t.seqOf b < t.nextPrivate
  sequence : t.sequences (t.seqOf b) = some s

/-- `t'` is `t` with a bigalloc for each of the sequences. -/
structure Registered (t : Table) (ss : List MappingSequence) (t' : Table) : Prop where
  wellFormed : t'.WellFormed
  keep : ∀ n, t.InUse n → t'.InUse n ∧ (t'.bigAllocations n).core = (t.bigAllocations n).core
  heap : t.nextPrivate ≤ t'.nextPrivate
  sequences : ∀ p, p < t.nextPrivate → t'.sequences p = t.sequences p
  held : ∀ s ∈ ss, ∃ b, ¬ t.InUse b ∧ t'.Holds s b
  new : ∀ n, t'.InUse n → t.InUse n ∨ ∃ s ∈ ss, t'.Holds s n

theorem Registered.refl (h : t.WellFormed) : t.Registered [] t where
  wellFormed := h
  keep _ hn := ⟨hn, rfl⟩
  heap := le_rfl
  sequences _ _ := rfl
  held _ hs := absurd hs List.not_mem_nil
  new _ hn := .inl hn

theorem Registered.holds (hr : t.Registered ss t') (h : t.Holds s b) : t'.Holds s b := by
  obtain ⟨hin, hcore⟩ := hr.keep b h.inUse
  have hseq : t'.seqOf b = t.seqOf b := (congrArg (·.allocatorPrivate) hcore :)
  refine ⟨hin, ?_, ?_, ?_⟩
  · rw [hcore, hseq]
    exact h.record
  · rw [hseq]
    exact h.allocated.trans_le hr.heap
  · rw [hseq, hr.sequences _ h.allocated]
    exact h.sequence

namespace Created

theorem holds (hc : t.Created s b t') : t'.Holds s b where
  inUse := hc.inUse
  record := by rw [hc.record, hc.seqOf_eq]
  allocated := by rw [hc.seqOf_eq, hc.heap]; exact Nat.lt_succ_self _
  sequence := hc.sequences_self

theorem ne_of_inUse (hc : t.Created s b t') (hn : t.InUse n) : n ≠ b := by
  rintro rfl
  exact hc.free hn

theorem registered_cons (hc : t.Created s b t₁) (hr : t₁.Registered ss t') :
    t.Registered (s :: ss) t' where
  wellFormed := hr.wellFormed
  keep n hn := by
    obtain ⟨hin, hcore⟩ := hr.keep n (hc.inUse_iff.mpr (.inl hn))
    exact ⟨hin, hcore.trans (hc.keep n (hc.ne_of_inUse hn))⟩
  heap := by
    have hle := hr.heap
    rw [hc.heap] at hle
    exact Nat.le_of_succ_le hle
  sequences p hp := by
    have hlt : p < t₁.nextPrivate := by
      rw [hc.heap]
      exact Nat.lt_succ_of_lt hp
    rw [hr.sequences p hlt, hc.sequences, Function.update_of_ne hp.ne]
  held := by
    refine List.forall_mem_cons.mpr ⟨⟨b, hc.free, hr.holds hc.holds⟩, fun s' hs' => ?_⟩
    obtain ⟨b', hb', hheld⟩ := hr.held s' hs'
    exact ⟨b', fun hn => hb' (hc.inUse_iff.mpr (.inl hn)), hheld⟩
  new n hn := by
    rcases hr.new n hn with hin | ⟨s', hs', hheld⟩
    · rcases hc.inUse_iff.mp hin with hin | rfl
      · exact .inl hin
      · exact .inr ⟨s, .head _, hr.holds hc.holds⟩
    · exact .inr ⟨s', .tail _ hs', hheld⟩

theorem creatable {s' : MappingSequence} (hc : t.Created s b t') (h : t.Creatable env s')
    (hle : s.end_ ≤ s'.begin) : t'.Creatable env s' := by
  have hinner : t.InnerKept t' := fun n hn _ => hc.keep n (hc.ne_of_inUse hn)
  refine { h with free := fun r hr => ?_, unclaimed := ?_ }
  · by_cases hrb : r = b
    · rw [hrb, hc.end_eq]
      exact .inl hle
    · obtain ⟨-, hbegin, hend, -⟩ := hc.old hrb
      rw [hbegin, hend]
      exact h.free r ((hc.top_iff hrb).mp hr)
  · exact ⟨h.unclaimed.1.of_innerKept hinner hc.statics,
      h.unclaimed.2.of_innerKept hinner hc.statics⟩

end Created

/-- Sequences that lie on free addresses, one behind the other, all get their bigallocs. -/
theorem registerAll_registered (h : t.WellFormed) (hc : ∀ s ∈ ss, t.Creatable env s)
    (hstack : ∀ s ∈ ss, s.NotStack) (hsorted : ss.Pairwise fun s s' => s.end_ ≤ s'.begin)
    (hroom : t.HasFree ss.length) : ∃ t', t.registerAll env ss = some t' ∧ t.Registered ss t' := by
  induction ss generalizing t with
  | nil => exact ⟨t, rfl, Registered.refl h⟩
  | cons s ss ih =>
    obtain ⟨hc, hcs⟩ := List.forall_mem_cons.mp hc
    obtain ⟨hstack, hstacks⟩ := List.forall_mem_cons.mp hstack
    obtain ⟨hle, hsorted⟩ := List.pairwise_cons.mp hsorted
    obtain ⟨b, t₁, hrun, hmade⟩ := hc.register h hstack hroom
    obtain ⟨t', hrest, hreg⟩ := ih hmade.wellFormed
      (fun s' hs' => hmade.creatable (hcs s' hs') (hle s' hs')) hstacks hsorted
      (hroom.of_one fun n hn => hmade.inUse_iff.mp hn)
    refine ⟨t', ?_, hmade.registered_cons hreg⟩
    rw [registerAll_cons, hrun]
    exact hrest

/-! ### The second pass -/

theorem mappingEntriesEqual_self (e : Nat → MappingEntry) (n : Nat) : mappingEntriesEqual e e n :=
  List.all_eq_true.mpr fun _ _ => decide_eq_true rfl

theorem mappingSequenceSuffix_self (s : MappingSequence) : s.mappingSequenceSuffix s := by
  simp [mappingSequenceSuffix, mappingEntriesEqual_self]

namespace Holds

section

variable (h : t.Holds s b)

include h

theorem top : t.Top b := by
  have := congrArg (·.parent) h.record
  exact ⟨h.inUse, this⟩

theorem begin_eq : (t b).begin = s.begin := (congrArg (·.begin) h.record :)

theorem end_eq : (t b).end_ = s.end_ := (congrArg (·.end_) h.record :)

theorem allocatedBy_eq : (t b).allocatedBy = some .mmap :=
  (congrArg (·.allocatedBy) h.record :)

theorem mem_addrs_iff : x ∈ t.addrs b ↔ s.begin ≤ x ∧ x < s.end_ := by
  unfold addrs
  rw [h.begin_eq, h.end_eq]
  exact Iff.rfl

theorem addMappingSequenceBigallocIfAbsent_eq (hwf : t.WellFormed) (env : Env) :
    t.addMappingSequenceBigallocIfAbsent env s = some t := by
  have hlt : s.begin < s.end_ := by
    have := hwf.bounds b h.inUse
    rwa [h.begin_eq, h.end_eq] at this
  have hroot : ∀ x, s.begin ≤ x → x < s.end_ →
      t.rootOf nbigallocs (t.pageindex (pagenum x)) = some b := fun x h1 h2 =>
    hwf.rootOf_pageindex h.inUse h.top.2 (h.mem_addrs_iff.mpr ⟨h1, h2⟩)
  have hseq : t.sequences (t b).allocatorPrivate = some s := h.sequence
  have hb0 := h.inUse.ne_zero
  unfold addMappingSequenceBigallocIfAbsent reconcileWithin
  simp [hroot s.begin le_rfl hlt, hroot (s.end_ - 1) (Nat.le_sub_one_of_lt hlt)
    (Nat.sub_one_lt_of_lt hlt), h.allocatedBy_eq, hb0, hseq, mappingSequenceSuffix_self]

end

end Holds

theorem registerAll_eq_self (hwf : t.WellFormed) (h : ∀ s ∈ ss, ∃ b, t.Holds s b) :
    t.registerAll env ss = some t := by
  induction ss with
  | nil => rfl
  | cons s ss ih =>
    obtain ⟨⟨b, hb⟩, hrest⟩ := List.forall_mem_cons.mp h
    rw [registerAll_cons, hb.addMappingSequenceBigallocIfAbsent_eq hwf env]
    exact ih hrest

/-! ### Both passes -/

/-- Nothing is where the lines are, and their sequences are within the limits. -/
structure Admits (env : Env) (t : Table) (ents : List MapsEntry) : Prop where
  wellFormed : t.WellFormed
  free : ∀ ent ∈ ents, t.FreeRange ent.first ent.second
  /-- There is a free record for each sequence. -/
  room : t.HasFree (gathered env {} ents).length
  small : ∀ s ∈ gathered env {} ents, s.end_ - s.begin ≤ env.biggestSaneUserAlloc
  unclaimed : ∀ s ∈ gathered env {} ents,
    Unclaimed env t s.begin ∧ Unclaimed env t (s.end_ - 1)

/-- A top-level record that was none before. -/
def NewTop (t t' : Table) (r : Nat) : Prop := t'.Top r ∧ ¬ t.Top r

theorem Admits.creatable (ht : t.Admits env ents) (hl : MapsLines ents)
    (h : Gathered (takenEntries env ents) (gathered env {} ents)) (hs : s ∈ gathered env {} ents) :
    t.Creatable env s where
  begin_pos := (h.sane s hs).begin_pos
  lt := (h.sane s hs).begin_lt_end
  aligned := h.aligned hl hs
  free := freeRange_gathered h ht.free ht.wellFormed hs
  small := ht.small s hs
  unclaimed := ht.unclaimed s hs

theorem Registered.newTop_iff (h : t.Registered ss t') (r : Nat) :
    t.NewTop t' r ↔ ¬ t.InUse r ∧ ∃ s ∈ ss, t'.Holds s r := by
  constructor
  · rintro ⟨hr, hno⟩
    have hfree : ¬ t.InUse r := by
      intro hin
      refine hno ⟨hin, ?_⟩
      rw [← up_congr (h.keep r hin).2]
      exact hr.2
    exact ⟨hfree, (h.new r hr.1).resolve_left hfree⟩
  · rintro ⟨hfree, s, -, hheld⟩
    exact ⟨hheld.top, fun hc => hfree hc.1⟩

/-- Lines where nothing is are all added, with sane sequences, and a second pass finds them there. -/
theorem addMissingMappingsFromProc_adds (env : Env) (endAddr : Nat) (ents : List MapsEntry)
    (t : Table) (hl : MapsLines ents) (ht : t.Admits env ents) :
    ∃ t', t.addMissingMappingsFromProc env endAddr ents = some t'
      ∧ (∀ r, t.NewTop t' r → (t'.bigAllocations r).allocatedBy = some .mmap
        ∧ ∃ s, t'.sequences (t'.bigAllocations r).allocatorPrivate = some s ∧ s.Sane
          ∧ s.begin = (t'.bigAllocations r).begin ∧ s.end_ = (t'.bigAllocations r).end_
          ∧ ∀ ent ∈ ents, ∀ x ∈ ent.range, x ∈ t'.addrs r →
            (s.findEntry x).map (fun e => (e.prot, e.offset)) = some (ent.prot, ent.offset))
      ∧ (∀ r r', t.NewTop t' r → t.NewTop t' r' → r ≠ r' → Disjoint (t'.addrs r) (t'.addrs r'))
      ∧ (∀ x, (∃ r, t.NewTop t' r ∧ x ∈ t'.addrs r)
        ↔ ∃ ent ∈ ents, ent.Taken env ∧ x ∈ ent.range)
      ∧ t'.addMissingMappingsFromProc env endAddr ents = some t' := by
  have hg : Gathered (takenEntries env ents) (gathered env {} ents) :=
    gathered_spec env (.inl rfl) hl
  obtain ⟨t', hrun, hreg⟩ := registerAll_registered ht.wellFormed
    (fun s hs => ht.creatable hl hg hs) hg.notStack (hg.sorted hl) ht.room
  have hwf := hreg.wellFormed
  refine ⟨t', ?_, fun r hr => ?_, fun r r' hr hr' hne => ?_, fun x => ?_, ?_⟩
  · rw [addMissingMappingsFromProc_eq endAddr t hl]
    exact hrun
  · obtain ⟨-, s, hs, hheld⟩ := (hreg.newTop_iff r).mp hr
    refine ⟨hheld.allocatedBy_eq, s, hheld.sequence, hg.sane s hs, hheld.begin_eq.symm,
      hheld.end_eq.symm, fun ent hent x hx hxr => ?_⟩
    obtain ⟨h1, h2⟩ := hheld.mem_addrs_iff.mp hxr
    rw [hg.findEntry_eq hl hs h1 h2 hent hx]
    rfl
  · exact (hwf.apart r r' hr.1.1 hr'.1.1 (hr.1.2.trans hr'.1.2.symm) hne).disjoint_addrs
  · rw [← hg.exists_mem_iff]
    constructor
    · rintro ⟨r, hr, hx⟩
      obtain ⟨-, s, hs, hheld⟩ := (hreg.newTop_iff r).mp hr
      exact ⟨s, hs, hheld.mem_addrs_iff.mp hx⟩
    · rintro ⟨s, hs, hx⟩
      obtain ⟨b, hfree, hheld⟩ := hreg.held s hs
      exact ⟨b, (hreg.newTop_iff b).mpr ⟨hfree, s, hs, hheld⟩, hheld.mem_addrs_iff.mpr hx⟩
  · rw [addMissingMappingsFromProc_eq endAddr t' hl]
    exact registerAll_eq_self hwf fun s hs => (hreg.held s hs).imp fun _ h => h.2

/-- Three lines: a library's text and data, and anonymous pages elsewhere. -/
def sampleLines : List MapsEntry :=
  [⟨0x10000, 0x12000, 'r', '-', 'x', 'p', 0, "/lib/a.so"⟩,
    ⟨0x12000, 0x13000, 'r', 'w', '-', 'p', 0x2000, "/lib/a.so"⟩,
    ⟨0x20000, 0x21000, 'r', 'w', '-', 'p', 0, ""⟩]

theorem sample_unclaimed (a : Nat) : Unclaimed sampleEnv {} a :=
  ⟨.inl rfl, fun h => absurd h (by decide)⟩

theorem sample_admits : ({} : Table).Admits sampleEnv sampleLines where
  wellFormed := sample_empty.wellFormed
  free _ _ r hr := absurd hr.1 (sample_empty.not_inUse r)
  room := ⟨{1, 2}, by decide, fun n hn =>
    ⟨by revert n; decide, by revert n; decide, sample_empty.not_inUse n⟩⟩
  small := by decide
  unclaimed s _ := ⟨sample_unclaimed s.begin, sample_unclaimed (s.end_ - 1)⟩

theorem addMissingMappingsFromProc_adds_sample :
    ∃ t' r, ({} : Table).addMissingMappingsFromProc sampleEnv 0 sampleLines = some t'
      ∧ ({} : Table).NewTop t' r ∧ 0x12345 ∈ t'.addrs r
      ∧ t'.addMissingMappingsFromProc sampleEnv 0 sampleLines = some t' := by
  obtain ⟨t', hrun, -, -, hcover, hagain⟩ :=
    addMissingMappingsFromProc_adds sampleEnv 0 sampleLines {} (by decide) sample_admits
  have hline : ∃ ent ∈ sampleLines, ent.Taken sampleEnv ∧ 0x12345 ∈ ent.range :=
    ⟨⟨0x12000, 0x13000, 'r', 'w', '-', 'p', 0x2000, "/lib/a.so"⟩, by decide, by decide, by
      constructor <;> decide⟩
  obtain ⟨r, hr, hx⟩ := (hcover _).mpr hline
  exact ⟨t', r, hrun, hr, hx, hagain⟩

/-- The line of the vsyscall page, at the top of the address space. -/
def vsyscallLine : MapsEntry :=
  ⟨0xffffffffff600000, 0xffffffffff601000, '-', '-', 'x', 'p', 0, "[vsyscall]"⟩

/-- Two lines of three gigabytes, next to each other. -/
def hugeLines : List MapsEntry :=
  [⟨0x100000000, 0x1c0000000, 'r', 'w', '-', 'p', 0, ""⟩,
    ⟨0x1c0000000, 0x280000000, 'r', '-', '-', 'p', 0, ""⟩]

/-- A line for the page at address zero. -/
def nullLine : MapsEntry := ⟨0, 0x1000, 'r', '-', '-', 'p', 0, ""⟩

/-- The page of the kernel is not added.  Small lines make a sequence too long, for which the call
aborts.  And the record for the page at zero counts as free. -/
theorem addMissingMappingsFromProc_misses :
    (MapsLines [vsyscallLine]
      ∧ vsyscallLine.second - vsyscallLine.first ≤ sampleEnv.biggestSaneUserAlloc
      ∧ ({} : Table).addMissingMappingsFromProc sampleEnv 0 [vsyscallLine] = some {})
    ∧ (MapsLines hugeLines
      ∧ (hugeLines.all fun ent => ent.second - ent.first ≤ sampleEnv.biggestSaneUserAlloc) = true
      ∧ ({} : Table).addMissingMappingsFromProc sampleEnv 0 hugeLines = none)
    ∧ (({} : Table).addMissingMappingsFromProc sampleEnv 0 [nullLine]).map
        (fun t' => ((t'.bigAllocations 1).end_, decide (t'.InUse 1))) = some (0x1000, false) := by
  refine ⟨⟨by decide, by decide, rfl⟩, ⟨by decide, by decide, ?_⟩, ?_⟩
  · exact Option.isNone_iff_eq_none.mp (by decide +kernel)
  · decide +kernel

end Table

end Liballocs
