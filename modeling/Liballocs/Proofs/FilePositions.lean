/-
File positions of mapped addresses.

An entry backed by a file says where in the file its first address is.  An entry that is cut at its
front begins at a later address, yet keeps its offset, so its addresses move in the file.  Both
functions that edit a sequence cut at the end of their range (`TrimsAt`).
-/
import Liballocs.Proofs.Affected
import Liballocs.Proofs.SpanDeletion

namespace Liballocs

open Segments

/-- The position in the file that the entry gives to the address. -/
def MappingEntry.filePos (e : MappingEntry) (a : Nat) : Nat := e.offset + (a - e.begin)

namespace MappingSequence

variable {s s' : MappingSequence} {r : Mapping} {objectBelow : Nat → Nat} {addr length a i : Nat}
  {pre mid post : List MappingEntry} {x y e : MappingEntry}

/-! ### Cutting at an address -/

/-- What a call leaves outside its range `[lo, hi)`: addresses still described are so by the entry
they had, which may begin at `hi` now; and the entry that `hi` cuts does. -/
structure TrimsAt (lo hi : Nat) (outside : Nat → Prop) (s s' : MappingSequence) : Prop where
  kept : ∀ a e e', outside a → s.findEntry a = some e → s'.findEntry a = some e' →
    e'.offset = e.offset
      ∧ (e'.begin = e.begin ∨ e'.begin = hi ∧ e.begin ≤ hi ∧ hi < e.end_ ∧ lo < e.end_)
  moved : ∀ e ∈ s.entries, e.begin < hi → hi < e.end_ → lo < e.end_ →
    ∃ a e', outside a ∧ hi ≤ a ∧ s.findEntry a = some e ∧ s'.findEntry a = some e'
      ∧ e'.offset = e.offset ∧ e'.begin = hi

theorem Sane.findEntry_eq (hs : s.Sane) (he : e ∈ s.entries) (h1 : e.begin ≤ a)
    (h2 : a < e.end_) : s.findEntry a = some e := by
  rw [findEntry_eq_at?]
  exact hs.contig.at?_eq_some he h1 h2

theorem Sane.entry_unique (hs : s.Sane) (hfind : s.findEntry a = some x) (he : e ∈ s.entries)
    (h1 : e.begin ≤ a) (h2 : a < e.end_) : e = x := by
  rw [hs.findEntry_eq he h1 h2] at hfind
  exact Option.some.inj hfind

/-! ### An extension -/

theorem Sane.trimsAt_extend (hs : s.Sane) (hend : s.end_ = r.begin) :
    TrimsAt r.begin r.end_ (fun a => a < r.begin ∨ r.end_ ≤ a) s (s.extend r) := by
  constructor
  · intro a e e' hout he he'
    rw [findEntry_extend hs hend, if_neg (by omega), he] at he'
    obtain rfl := Option.some.inj he'
    exact ⟨rfl, .inl rfl⟩
  · intro e he hb hlt hlo
    have hle : e.end_ ≤ s.end_ := (hs.contig.mem_bounds he).2.2
    omega

/-! ### An overlap -/

/-- In a sane sequence the entry with the end of the request is the last affected one, and the entries
before the stretch end before it. -/
theorem Affected.eq_getLast (h : Affected s r pre mid post x y) (hs : s.Sane)
    (he : e ∈ s.entries) (hb : e.begin < r.end_) (hlt : r.end_ < e.end_) (hlo : r.begin ≤ e.end_) :
    y = e ∧ ∀ p ∈ pre, p.end_ ≤ e.begin := by
  obtain ⟨init, rfl, hE⟩ := exists_init h.entries h.getLast
  have hc := hs.contig
  rw [hE] at hc
  obtain ⟨m, hbefore, hym, -, -⟩ := contig_append.mp hc
  have hym : y.begin = m := hym
  have hyb := h.getLast_meets.1
  rw [hE] at he
  rcases List.mem_append.mp he with hmem | hmem
  · have hend : e.end_ ≤ m := (hbefore.mem_bounds hmem).2.2
    omega
  · rcases List.mem_cons.mp hmem with rfl | hpost
    · refine ⟨rfl, ?_⟩
      intro p hp
      have hend : p.end_ ≤ m := (hbefore.mem_bounds (List.mem_append_left _ hp)).2.2
      omega
    · exact absurd ⟨hb, hlo⟩ (h.post_apart e hpost)

/-- The pieces before the request do not go on behind it. -/
theorem at?_before_eq_none (hpre : ∀ p ∈ pre, p.end_ ≤ r.end_) :
    at? (max r.begin r.end_)
      (pre ++ if x.begin != r.begin then [{ x with end_ := r.begin }] else []) = none := by
  rw [Option.eq_none_iff_forall_ne_some]
  intro z hz
  obtain ⟨hmem, h1, h2⟩ := mem_of_at? hz
  rcases List.mem_append.mp hmem with hp | hcut
  · have h2 : max r.begin r.end_ < z.end_ := h2
    have := hpre z hp
    omega
  · split at hcut
    · obtain rfl := List.mem_singleton.mp hcut
      have h2 : max r.begin r.end_ < r.begin := h2
      omega
    · cases hcut

section

variable (h : Overlapped objectBelow s r s' pre mid post x y) (hs : s.Sane)

include h hs

/-- An address behind the request that the pieces before it do not have is in the last affected entry
if that ends behind it; and then the request begins in the entry too. -/
theorem Overlapped.eq_last (he : s.findEntry a = some e)
    (hfirst : at? a (pre ++ if x.begin != r.begin then [{ x with end_ := r.begin }] else []) = none)
    (h1 : r.end_ ≤ a) (h2 : a < y.end_) : y = e ∧ y.begin ≤ r.end_ ∧ r.begin < y.end_ := by
  have ha := h.affected
  obtain ⟨hyb, hye⟩ := ha.getLast_meets
  obtain rfl := hs.entry_unique he ha.mem_getLast (by omega) h2
  refine ⟨rfl, by omega, ?_⟩
  -- a request that ends before it begins: the first piece holds the address
  by_contra hlo
  obtain ⟨hxb, hxe⟩ := ha.head_meets
  obtain rfl := hs.entry_unique he ha.mem_head (by omega) (by omega)
  have hcut : at? a [({ x with end_ := r.begin } : MappingEntry)] ≠ none := by
    rw [at?_cons, if_pos]
    · exact Option.some_ne_none _
    · show x.begin ≤ a ∧ a < r.begin
      omega
  rw [at?_append, if_pos (by rw [bne_iff_ne]; omega)] at hfirst
  exact hcut (Option.or_eq_none_iff.mp hfirst).2

/-- Outside the request an address keeps its entry, which may begin behind the request now. -/
theorem Overlapped.kept (hout : a < r.begin ∨ r.end_ ≤ a) (he : s.findEntry a = some e)
    (he' : s'.findEntry a = some e') : e'.offset = e.offset
      ∧ (e'.begin = e.begin
        ∨ e'.begin = r.end_ ∧ e.begin ≤ r.end_ ∧ r.end_ < e.end_ ∧ r.begin < e.end_) := by
  have ha := h.affected
  rw [findEntry_eq_at?, h.left, at?_append] at he'
  cases hfirst : at? a (pre ++ if x.begin != r.begin then [{ x with end_ := r.begin }] else []) with
  | some e'' =>
    rw [hfirst, Option.some_or] at he'
    obtain rfl := Option.some.inj he'
    obtain ⟨hmem, h1, h2⟩ := mem_of_at? hfirst
    rcases List.mem_append.mp hmem with hpre | hcut
    · obtain rfl := hs.entry_unique he (ha.mem_pre hpre) h1 h2
      exact ⟨rfl, .inl rfl⟩
    · split at hcut
      · obtain rfl := List.mem_singleton.mp hcut
        have h2 : a < r.begin := h2
        have hxe := ha.head_meets.2
        obtain rfl := hs.entry_unique he ha.mem_head h1 (by omega)
        exact ⟨rfl, .inl rfl⟩
      · cases hcut
  | none =>
    rw [hfirst, Option.none_or] at he'
    obtain ⟨hmem, h1, h2⟩ := mem_of_at? he'
    rcases List.mem_cons.mp hmem with rfl | hmem
    · have h1 : r.begin ≤ a := h1
      have h2 : a < r.end_ := h2
      omega
    rcases List.mem_append.mp hmem with hcut | hpost
    · split at hcut
      · obtain rfl := List.mem_singleton.mp hcut
        have h1 : r.end_ ≤ a := h1
        have h2 : a < y.end_ := h2
        obtain ⟨rfl, hyb, hye⟩ := h.eq_last hs he hfirst h1 h2
        exact ⟨rfl, .inr ⟨rfl, hyb, by omega, hye⟩⟩
      · cases hcut
    · obtain rfl := hs.entry_unique he (ha.mem_post hpost) h1 h2
      exact ⟨rfl, .inl rfl⟩

theorem Overlapped.trimsAt :
    TrimsAt r.begin r.end_ (fun a => a < r.begin ∨ r.end_ ≤ a) s s' := by
  refine ⟨fun a e e' hout he he' => h.kept hs hout he he', fun e he hb hlt hlo => ?_⟩
  obtain ⟨rfl, hpre⟩ := h.affected.eq_getLast hs he hb hlt hlo.le
  refine ⟨max r.begin r.end_, { y with begin := r.end_ }, .inr (Nat.le_max_right ..),
    Nat.le_max_right .., hs.findEntry_eq he (by omega) (by omega), ?_, rfl, rfl⟩
  rw [findEntry_eq_at?, h.left, at?_append, at?_before_eq_none fun p hp => (hpre p hp).trans hb.le,
    Option.none_or, at?_cons, if_neg, if_pos, List.singleton_append, at?_cons, if_pos]
  · show r.end_ ≤ max r.begin r.end_ ∧ max r.begin r.end_ < y.end_
    omega
  · rw [bne_iff_ne]
    omega
  · show ¬ (r.begin ≤ max r.begin r.end_ ∧ max r.begin r.end_ < r.end_)
    omega

end

/-! ### A deletion -/

theorem deleteSpanAt_frame (h : deleteSpanAt addr length s i = some s') :
    s'.nused = s.nused ∧ ∀ j ≠ i, s'.mappings j = s.mappings j := by
  have hset : ∀ m, ∀ j ≠ i, (s.setMapping i m).mappings j = s.mappings j := by
    intro m j hj
    exact Function.update_of_ne hj _ _
  unfold deleteSpanAt at h
  dsimp only at h
  generalize (if addr > (s.mappings i).begin then addr - (s.mappings i).begin else 0) = lb at h
  generalize (if addr + length > (s.mappings i).end_ then 0
    else (s.mappings i).end_ - (addr + length)) = le at h
  split at h
  · split at h
    · cases h
    split at h
    · obtain rfl := Option.some.inj h
      exact ⟨rfl, hset _⟩
    split at h
    all_goals
      obtain rfl := Option.some.inj h
      split
      all_goals exact ⟨rfl, hset _⟩
  · obtain rfl := Option.some.inj h
    exact ⟨rfl, fun _ _ => rfl⟩

theorem deleteSpanAt_no_hole (h : deleteSpanAt addr length s i = some s') :
    ¬ (addr > (s.mappings i).begin ∧ addr + length < (s.mappings i).end_) := by
  intro hole
  unfold deleteSpanAt at h
  rw [if_pos (by omega), if_pos hole] at h
  cases h

/-- The loop, when it returns: each slot with an ordinary entry has been cut. -/
theorem foldlM_deleteSpanAt_eq_some {k : Nat}
    (h : (List.range k).foldlM (deleteSpanAt addr length) s = some s') :
    s'.nused = s.nused ∧ (∀ i, k ≤ i → s'.mappings i = s.mappings i)
      ∧ ∀ i < k, (s.mappings i).begin ≤ (s.mappings i).end_ →
        s'.mappings i = cutEntry addr length (s.mappings i)
          ∧ ¬ (addr > (s.mappings i).begin ∧ addr + length < (s.mappings i).end_) := by
  induction k generalizing s' with
  | zero =>
    obtain rfl : s = s' := Option.some.inj h
    exact ⟨rfl, fun _ _ => rfl, fun i hi => by omega⟩
  | succ k ih =>
    rw [List.range_succ, List.foldlM_append] at h
    obtain ⟨s1, h1, h2⟩ := Option.bind_eq_some_iff.mp h
    have h2 : deleteSpanAt addr length s1 k = some s' := by
      simpa only [List.foldlM_cons, List.foldlM_nil, bind_pure] using h2
    obtain ⟨hnused, hrest, hcut⟩ := ih h1
    obtain ⟨hnused', hframe⟩ := deleteSpanAt_frame h2
    refine ⟨hnused'.trans hnused, ?_, ?_⟩
    · intro i hi
      rw [hframe i (by omega), hrest i (by omega)]
    · intro i hi hle
      rcases Nat.lt_or_eq_of_le (Nat.le_of_lt_succ hi) with hlt | rfl
      · rw [hframe i (by omega)]
        exact hcut i hlt hle
      · have hk := hrest i le_rfl
        have hno := deleteSpanAt_no_hole h2
        obtain ⟨b, e, heq, -, -⟩ := deleteSpanAt_eq addr length (hk ▸ hle) hno
        rw [heq] at h2
        obtain rfl := Option.some.inj h2
        rw [hk] at hno
        refine ⟨?_, hno⟩
        show Function.update s1.mappings i (cutEntry addr length (s1.mappings i)) i = _
        rw [Function.update_self, hk]

theorem Sane.entries_deleteMappingSequenceSpan (hs : s.Sane)
    (h : s.deleteMappingSequenceSpan addr length = some s') :
    s'.entries = (s.entries.map (cutEntry addr length)).filter (fun m => m.begin ≠ 0)
      ∧ ∀ e ∈ s.entries, ¬ (addr > e.begin ∧ addr + length < e.end_) := by
  obtain ⟨s1, h1, h2⟩ := Option.bind_eq_some_iff.mp h
  obtain rfl := Option.some.inj h2
  obtain ⟨hnused, -, hcut⟩ := foldlM_deleteSpanAt_eq_some h1
  have hlive : ∀ i < s.nused, s.mappings i ∈ s.entries := fun i hi =>
    List.mem_map.mpr ⟨i, List.mem_range.mpr hi, rfl⟩
  have hle : ∀ i < s.nused, (s.mappings i).begin ≤ (s.mappings i).end_ := fun i hi =>
    (hs.contig.mem_bounds (hlive i hi)).2.1.le
  have hmax := hs.le
  have hentries : s1.entries = s.entries.map (cutEntry addr length) := by
    rw [MappingSequence.entries, hnused, MappingSequence.entries, List.map_map]
    refine List.map_congr_left ?_
    intro i hi
    have hi : i < s.nused := List.mem_range.mp hi
    exact (hcut i (by omega) (hle i hi)).1
  refine ⟨?_, ?_⟩
  · show (compact s1.nused 0 s1).entries = _
    rw [entries_compact _ 0 s1 (Nat.zero_le _) (by omega), hentries]
    simp
  · intro e he
    obtain ⟨i, hi, rfl⟩ := List.mem_map.mp he
    have hi : i < s.nused := List.mem_range.mp hi
    exact (hcut i (by omega) (hle i hi)).2

theorem cutEntry_cases (addr length : Nat) {m : MappingEntry} (hlt : m.begin < m.end_) :
    cutEntry addr length m = m ∨ cutEntry addr length m = {}
      ∨ (m.begin ≤ addr + length ∧ addr + length < m.end_ ∧ addr < m.end_
        ∧ cutEntry addr length m = { m with begin := addr + length })
      ∨ (addr < m.end_ ∧ cutEntry addr length m = { m with end_ := addr }) := by
  by_cases hapart : m.end_ ≤ addr ∨ addr + length < m.begin
  · exact .inl (cutEntry_apart hapart)
  by_cases hfront : addr ≤ m.begin
  · by_cases hback : m.end_ ≤ addr + length
    · exact .inr (.inl (cutEntry_inside hfront hback hlt))
    · exact .inr (.inr (.inl ⟨by omega, by omega, by omega,
        cutEntry_front hfront (by omega) (by omega)⟩))
  · exact .inr (.inr (.inr ⟨by omega, cutEntry_back (by omega) (by omega)⟩))

theorem Sane.trimsAt_delete (hs : s.Sane) (h : s.deleteMappingSequenceSpan addr length = some s') :
    TrimsAt addr (addr + length) (fun _ => True) s s' := by
  obtain ⟨hentries, hno⟩ := hs.entries_deleteMappingSequenceSpan h
  have hcut : ∀ a e', s'.findEntry a = some e' → ∃ e ∈ s.entries,
      s.findEntry a = some e ∧ e' = cutEntry addr length e ∧ e'.offset = e.offset
        ∧ (e'.begin = e.begin ∨ e'.begin = addr + length
          ∧ e.begin ≤ addr + length ∧ addr + length < e.end_ ∧ addr < e.end_) := by
    intro a e' he'
    rw [findEntry_eq_at?, hentries] at he'
    obtain ⟨hmem, h1, h2⟩ := mem_of_at? he'
    obtain ⟨hmem, hbegin⟩ := List.mem_filter.mp hmem
    obtain ⟨e, he, rfl⟩ := List.mem_map.mp hmem
    have h1 : (cutEntry addr length e).begin ≤ a := h1
    have h2 : a < (cutEntry addr length e).end_ := h2
    have hlt : e.begin < e.end_ := (hs.contig.mem_bounds he).2.1
    rcases cutEntry_cases addr length hlt with heq | heq | ⟨hb, hgt, hlo, heq⟩ | ⟨hgt, heq⟩
    · rw [heq] at h1 h2
      exact ⟨e, he, hs.findEntry_eq he h1 h2, rfl, by rw [heq], .inl (by rw [heq])⟩
    · rw [heq] at hbegin
      cases hbegin
    · rw [heq] at h1 h2
      exact ⟨e, he, hs.findEntry_eq he (hb.trans h1) h2, rfl, by rw [heq],
        .inr ⟨by rw [heq], hb, hgt, hlo⟩⟩
    · rw [heq] at h1 h2
      exact ⟨e, he, hs.findEntry_eq he h1 (h2.trans hgt), rfl, by rw [heq],
        .inl (by rw [heq])⟩
  refine ⟨?_, ?_⟩
  · intro a e e' _ he he'
    obtain ⟨m, -, hm, -, hoffset, hbegin⟩ := hcut a e' he'
    obtain rfl := Option.mem_unique hm he
    exact ⟨hoffset, hbegin⟩
  · intro e he hb hlt _
    have hfront : cutEntry addr length e = { e with begin := addr + length } :=
      cutEntry_front (by have := hno e he; omega) hb.le hlt
    have hmem : { e with begin := addr + length } ∈ s'.entries := by
      rw [hentries, List.mem_filter, ← hfront]
      refine ⟨List.mem_map_of_mem he, ?_⟩
      rw [hfront, decide_eq_true_iff]
      show addr + length ≠ 0
      omega
    have hfind := hs.findEntry_eq he hb.le hlt
    obtain ⟨e', he'⟩ : ∃ e', s'.findEntry (addr + length) = some e' := by
      rw [← Option.isSome_iff_exists, findEntry_eq_at?, at?, List.find?_isSome]
      refine ⟨_, hmem, ?_⟩
      rw [Bool.and_eq_true, decide_eq_true_iff, decide_eq_true_iff]
      exact ⟨le_rfl, hlt⟩
    obtain ⟨m, -, hm, rfl, hoffset, -⟩ := hcut _ e' he'
    obtain rfl := Option.mem_unique hm hfind
    exact ⟨addr + length, _, trivial, le_rfl, hfind, he', hoffset, by rw [hfront]⟩

/-! ### Edits -/

/-- A call of one of the two functions that edit a sequence. -/
inductive Edit
  | augment (r : Mapping)
  | delete (addr length : Nat)

namespace Edit

/-- An edit that is carried out. -/
def apply (objectBelow : Nat → Nat) : Edit → MappingSequence → Option MappingSequence
  | augment r, s =>
    (s.augmentSequence objectBelow r).bind fun (ok, s') => if ok then some s' else none
  | delete addr length, s => s.deleteMappingSequenceSpan addr length

/-- The first address that an edit concerns. -/
def begin : Edit → Nat
  | augment r => r.begin
  | delete addr _ => addr

/-- The end of the addresses that an edit concerns. -/
def end_ : Edit → Nat
  | augment r => r.end_
  | delete addr length => addr + length

/-- The address is not described by a new entry. -/
def Outside : Edit → Nat → Prop
  | augment r, a => a < r.begin ∨ r.end_ ≤ a
  | delete _ _, _ => True

/-- The call cuts the entry at its front: its range ends inside, and has only addresses below the
entry's end. -/
def CutsFront (ed : Edit) (e : MappingEntry) : Prop :=
  e.begin < ed.end_ ∧ ed.end_ < e.end_ ∧ ed.begin < e.end_

instance (ed : Edit) (e : MappingEntry) : Decidable (ed.CutsFront e) :=
  inferInstanceAs (Decidable (_ ∧ _))

theorem trimsAt {ed : Edit} (hs : s.Sane) (h : ed.apply objectBelow s = some s') :
    TrimsAt ed.begin ed.end_ ed.Outside s s' := by
  cases ed with
  | delete addr length => exact hs.trimsAt_delete h
  | augment r =>
    have haug : s.augmentSequence objectBelow r = some (true, s') := by
      obtain ⟨⟨ok, s1⟩, hcall, hok⟩ := Option.bind_eq_some_iff.mp h
      cases ok with
      | false => cases hok
      | true =>
        obtain rfl : s1 = s' := Option.some.inj hok
        exact hcall
    cases augmentSequence_augmented hs.le haug with
    | extended hclean hbegin hroom hname =>
      have hpos := hs.begin_lt_end
      exact hs.trimsAt_extend (hclean.resolve_left (by omega))
    | overlapped hclean hbegin ho => exact ho.trimsAt hs

end Edit

/-- Every address that was backed by a file and is described as before keeps its position. -/
def KeepsFilePositions (ed : Edit) (s s' : MappingSequence) : Prop :=
  ∀ a e e', ed.Outside a → s.findEntry a = some e → s'.findEntry a = some e' → e.isAnon = false →
    e'.filePos a = e.filePos a

/-- **File positions are kept exactly if no file-backed entry is cut at its front.** -/
theorem keepsFilePositions_iff (objectBelow : Nat → Nat) (ed : Edit) (s s' : MappingSequence)
    (hs : s.Sane) (h : ed.apply objectBelow s = some s') :
    KeepsFilePositions ed s s' ↔ ∀ e ∈ s.entries, e.isAnon = false → ¬ ed.CutsFront e := by
  have ht := ed.trimsAt hs h
  constructor
  · intro hkeep e he hfile hcut
    obtain ⟨hb, hlt, hlo⟩ := hcut
    obtain ⟨a, e', hout, hle, hfind, hfind', hoffset, hbegin⟩ := ht.moved e he hb hlt hlo
    have hpos := hkeep a e e' hout hfind hfind' hfile
    unfold MappingEntry.filePos at hpos
    omega
  · intro hno a e e' hout hfind hfind' hfile
    obtain ⟨hoffset, hbegin⟩ := ht.kept a e e' hout hfind hfind'
    unfold MappingEntry.filePos
    rcases hbegin with hbegin | ⟨hbegin, hle, hlt, hlo⟩
    · rw [hoffset, hbegin]
    · have hmem : e ∈ s.entries := (mem_of_at? hfind).1
      have heq : e.begin = ed.end_ := by
        by_contra hne
        exact hno e hmem hfile ⟨by omega, hlt, hlo⟩
      rw [hoffset, hbegin, heq]

/-- Of a mapped file of three pages, the first is replaced, or unmapped: the second was at position
4096 of the file and is at 0 afterwards. -/
theorem filePositions_moved :
    let s : MappingSequence := extend {} ⟨4096, 16384, 3, 2, 0, some "a", 0⟩
    s.Sane ∧ (s.findEntry 8192).map (·.filePos 8192) = some 4096
      ∧ (((Edit.augment ⟨4096, 8192, 1, 2, 0, some "a", 0⟩).apply id s).bind fun s' =>
        (s'.findEntry 8192).map (·.filePos 8192)) = some 0
      ∧ (((Edit.delete 4096 4096).apply id s).bind fun s' =>
        (s'.findEntry 8192).map (·.filePos 8192)) = some 0 := by
  intro s
  exact ⟨⟨by decide, by decide, by decide, by decide⟩, by decide, by decide, by decide⟩

/-- The same mapping, whose last page is unmapped. -/
theorem keepsFilePositions_last_page :
    let s : MappingSequence := extend {} ⟨4096, 16384, 3, 2, 0, some "a", 0⟩
    ∃ s', (Edit.delete 12288 4096).apply id s = some s'
      ∧ KeepsFilePositions (.delete 12288 4096) s s' := by
  intro s
  obtain ⟨s', hcall⟩ : ∃ s', (Edit.delete 12288 4096).apply id s = some s' :=
    Option.isSome_iff_exists.mp (by decide)
  refine ⟨s', hcall, ?_⟩
  refine (keepsFilePositions_iff id (.delete 12288 4096) s s'
    ⟨by decide, by decide, by decide, by decide⟩ hcall).mpr ?_
  decide

end MappingSequence

end Liballocs
