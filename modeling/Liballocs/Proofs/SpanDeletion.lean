/-
Deleting a span from a mapping sequence.

The spans reach from somewhere in the sequence to one of its ends.  The loop cuts each of the eight
slots, in use or not, and aborts if the span falls in the middle of one.  A sequence is *tidy* when its
leftovers lie within its bounds, and then they never do that.
-/
import Liballocs.Proofs.MappingSequence

namespace Liballocs.MappingSequence

open Segments Function

variable {s : MappingSequence} {addr length i lo hi : Nat} {m : MappingEntry}
  {l : List MappingEntry}

/-! ### One slot -/

/-- What deleting the span makes of an entry, unless it is a hole in the middle. -/
def cutEntry (addr length : Nat) (m : MappingEntry) : MappingEntry :=
  if m.begin ≤ addr + length ∧ m.end_ > addr then
    if addr ≤ m.begin ∧ m.end_ ≤ addr + length then {}
    else if addr ≤ m.begin then { m with begin := addr + length }
    else { m with end_ := addr }
  else m

theorem cutEntry_apart (h : m.end_ ≤ addr ∨ addr + length < m.begin) :
    cutEntry addr length m = m := if_neg (by omega)

theorem cutEntry_inside (h1 : addr ≤ m.begin) (h2 : m.end_ ≤ addr + length)
    (h3 : m.begin < m.end_) : cutEntry addr length m = {} := by
  rw [cutEntry, if_pos (by omega), if_pos ⟨h1, h2⟩]

theorem cutEntry_front (h1 : addr ≤ m.begin) (h2 : m.begin ≤ addr + length)
    (h3 : addr + length < m.end_) : cutEntry addr length m = { m with begin := addr + length } := by
  rw [cutEntry, if_pos (by omega), if_neg (by omega), if_pos h1]

theorem cutEntry_back (h1 : m.begin < addr) (h2 : addr < m.end_) :
    cutEntry addr length m = { m with end_ := addr } := by
  rw [cutEntry, if_pos (by omega), if_neg (by omega), if_neg (by omega)]

/-- One turn of the loop.  The bounds of the sequence may follow those of its outer entries. -/
theorem deleteSpanAt_eq (addr length : Nat) (hm : (s.mappings i).begin ≤ (s.mappings i).end_)
    (hno : ¬ (addr > (s.mappings i).begin ∧ addr + length < (s.mappings i).end_)) :
    ∃ b e, deleteSpanAt addr length s i = some { s with
            begin := b
            end_ := e
            mappings := update s.mappings i (cutEntry addr length (s.mappings i)) }
      ∧ (b = s.begin ∨ b = addr + length ∧ i = 0 ∧ addr ≤ (s.mappings i).begin)
      ∧ (e = s.end_ ∨ e = addr ∧ i + 1 = s.nused ∧ (s.mappings i).begin < addr) := by
  unfold deleteSpanAt cutEntry
  dsimp only
  by_cases hov : (s.mappings i).begin ≤ addr + length ∧ (s.mappings i).end_ > addr
  · rw [if_pos hov, if_neg hno, if_pos hov]
    by_cases hfront : addr ≤ (s.mappings i).begin
    · have hlb : (if addr > (s.mappings i).begin then addr - (s.mappings i).begin else 0) = 0 :=
        if_neg hfront.not_gt
      by_cases hback : (s.mappings i).end_ ≤ addr + length
      · have hle : (if addr + length > (s.mappings i).end_ then 0
            else (s.mappings i).end_ - (addr + length)) = 0 := by split <;> omega
        rw [hlb, hle, if_pos ⟨rfl, rfl⟩, if_pos ⟨hfront, hback⟩]
        exact ⟨_, _, rfl, .inl rfl, .inl rfl⟩
      · have hle : (if addr + length > (s.mappings i).end_ then 0
            else (s.mappings i).end_ - (addr + length)) = (s.mappings i).end_ - (addr + length) :=
          if_neg (by omega)
        have hb : (s.mappings i).begin + ((s.mappings i).end_ - (s.mappings i).begin
            - ((s.mappings i).end_ - (addr + length))) = addr + length := by omega
        have htotal : ¬ ((0 : Nat) = 0 ∧ (s.mappings i).end_ - (addr + length) = 0) := by omega
        have hcut : ¬ (addr ≤ (s.mappings i).begin ∧ (s.mappings i).end_ ≤ addr + length) :=
          fun hc => hback hc.2
        rw [hlb, hle, if_neg htotal, if_pos (rfl : (0 : Nat) = 0), hb, if_neg hcut, if_pos hfront]
        by_cases hi : i = 0
        · rw [if_pos hi]
          exact ⟨_, _, rfl, .inr ⟨rfl, hi, hfront⟩, .inl rfl⟩
        · rw [if_neg hi]
          exact ⟨_, _, rfl, .inl rfl, .inl rfl⟩
    · have hlb : (if addr > (s.mappings i).begin then addr - (s.mappings i).begin else 0)
          = addr - (s.mappings i).begin := if_pos (by omega)
      have he : (s.mappings i).end_ - ((s.mappings i).end_ - (s.mappings i).begin
          - (addr - (s.mappings i).begin)) = addr := by omega
      have hpos : ¬ addr - (s.mappings i).begin = 0 := by omega
      have htotal : ¬ (addr - (s.mappings i).begin = 0 ∧ (if addr + length > (s.mappings i).end_
          then 0 else (s.mappings i).end_ - (addr + length)) = 0) := fun hc => hpos hc.1
      have hcut : ¬ (addr ≤ (s.mappings i).begin ∧ (s.mappings i).end_ ≤ addr + length) :=
        fun hc => hfront hc.1
      rw [hlb, if_neg htotal, if_neg hpos, he, if_neg hcut, if_neg hfront]
      by_cases hi : i + 1 = s.nused
      · have hi' : i + 1 = (s.setMappingEnd i addr).nused := hi
        rw [if_pos hi']
        exact ⟨_, _, rfl, .inl rfl, .inr ⟨rfl, hi, by omega⟩⟩
      · have hi' : ¬ i + 1 = (s.setMappingEnd i addr).nused := hi
        rw [if_neg hi']
        exact ⟨_, _, rfl, .inl rfl, .inl rfl⟩
  · rw [if_neg hov, if_neg hov, Function.update_eq_self]
    exact ⟨_, _, rfl, .inl rfl, .inl rfl⟩

/-! ### All slots -/

theorem foldlM_deleteSpanAt (addr length k : Nat)
    (hm : ∀ i < k, (s.mappings i).begin ≤ (s.mappings i).end_)
    (hno : ∀ i < k, ¬ (addr > (s.mappings i).begin ∧ addr + length < (s.mappings i).end_)) :
    ∃ b e, (List.range k).foldlM (deleteSpanAt addr length) s = some { s with
            begin := b
            end_ := e
            mappings := fun i =>
              if i < k then cutEntry addr length (s.mappings i) else s.mappings i }
      ∧ (b = s.begin ∨ b = addr + length ∧ addr ≤ (s.mappings 0).begin)
      ∧ (e = s.end_ ∨ e = addr ∧ (s.mappings (s.nused - 1)).begin < addr) := by
  induction k with
  | zero => exact ⟨s.begin, s.end_, rfl, Or.inl rfl, Or.inl rfl⟩
  | succ k ih =>
    obtain ⟨b, e, heq, hb, he⟩ := ih (fun i hi => hm i (by omega)) fun i hi => hno i (by omega)
    set s1 : MappingSequence := { s with
      begin := b
      end_ := e
      mappings := fun i => if i < k then cutEntry addr length (s.mappings i) else s.mappings i }
    have hk : s1.mappings k = s.mappings k := if_neg (Nat.lt_irrefl k)
    obtain ⟨b', e', heq', hb', he'⟩ := deleteSpanAt_eq (s := s1) (i := k) addr length
      (by rw [hk]; exact hm k (by omega)) (by rw [hk]; exact hno k (by omega))
    refine ⟨b', e', ?_, ?_, ?_⟩
    · rw [List.range_succ, List.foldlM_append, heq]
      simp only [List.foldlM_cons, List.foldlM_nil, Option.bind_eq_bind, Option.bind_some, heq', hk]
      refine congrArg (fun f => some { s with begin := b', end_ := e', mappings := f }) ?_
      funext j
      rcases Nat.lt_trichotomy j k with hj | rfl | hj
      · rw [update_of_ne (by omega), if_pos (by omega)]
        exact if_pos hj
      · simp
      · rw [update_of_ne (by omega), if_neg (by omega)]
        exact if_neg (by omega)
    · rcases hb' with rfl | ⟨rfl, rfl, hc⟩
      · exact hb
      · exact Or.inr ⟨rfl, hk ▸ hc⟩
    · rcases he' with rfl | ⟨rfl, hu, hc⟩
      · exact he
      · have hu : k + 1 = s.nused := hu
        refine Or.inr ⟨rfl, ?_⟩
        rw [← hu, Nat.add_sub_cancel]
        exact hk ▸ hc

/-! ### Compaction -/

theorem entries_setMapping_of_le (h : s.nused ≤ i) (m : MappingEntry) :
    (s.setMapping i m).entries = s.entries := by
  refine List.map_congr_left fun j hj => ?_
  have hj : j < s.nused := List.mem_range.mp hj
  exact update_of_ne (by omega) _ _

/-- Compaction closes over the entries that have been cleared. -/
theorem entries_compact (fuel i : Nat) (s : MappingSequence) (hi : i ≤ s.nused)
    (hfuel : s.nused ≤ i + fuel) :
    (compact fuel i s).entries
      = s.entries.take i ++ (s.entries.drop i).filter fun m => m.begin ≠ 0 := by
  induction fuel generalizing i s with
  | zero =>
    have hlen : s.entries.length ≤ i := by rw [length_entries]; omega
    simp [compact, List.take_of_length_le hlen, List.drop_of_length_le hlen]
  | succ fuel ih =>
    unfold compact
    by_cases hlt : i < s.nused
    · have hlen : i < s.entries.length := by rwa [length_entries]
      have hsplit : s.entries = s.entries.take i ++ s.entries[i] :: s.entries.drop (i + 1) := by
        rw [List.getElem_cons_drop, List.take_append_drop]
      have hlen' : i = (s.entries.take i).length := by
        rw [List.length_take]
        omega
      have hmi : s.mappings i = s.entries[i] := mappings_eq hsplit hlen'
      rw [if_pos hlt]
      by_cases h0 : (s.mappings i).begin = 0
      · rw [if_pos h0]
        have hshift := entries_copyAllLeft (s := s) (p := s.entries.take i) (m := [s.entries[i]])
          (q := s.entries.drop (i + 1)) hsplit (n := i + 1) (by simpa using hlen')
        have hclear := entries_setMapping_of_le (s := s.copyAllLeftFromBy (i + 1) 1)
          (i := s.nused - 1) le_rfl {}
        rw [show (s.copyAllLeftFromBy (i + 1) 1).entries = _ from hshift] at hclear
        have hih := ih i ((s.copyAllLeftFromBy (i + 1) 1).setMapping (s.nused - 1) {})
          (show i ≤ s.nused - 1 by omega) (show s.nused - 1 ≤ i + fuel by omega)
        rw [hclear, List.take_append_of_le_length hlen'.le, List.take_take,
          Nat.min_self, List.drop_append_of_le_length hlen'.le,
          List.drop_take_self, List.nil_append] at hih
        refine hih.trans ?_
        congr 1
        rw [← List.getElem_cons_drop hlen, List.filter_cons_of_neg]
        simpa [← hmi] using h0
      · rw [if_neg h0, ih (i + 1) s hlt (by omega), List.take_succ_eq_append_getElem hlen,
          ← List.getElem_cons_drop hlen, List.filter_cons_of_pos]
        · rw [List.append_assoc]
          rfl
        · simpa [← hmi] using h0
    · have hlen : s.entries.length ≤ i := by rw [length_entries]; omega
      rw [if_neg hlt]
      simp [List.take_of_length_le hlen, List.drop_of_length_le hlen]

/-- Compaction only moves entries and clears slots. -/
theorem compact_frame {P : MappingEntry → Prop} (h0 : P {}) (fuel i : Nat) (s : MappingSequence)
    (hle : s.nused ≤ mappingSequenceMaxLen) (hP : ∀ j < mappingSequenceMaxLen, P (s.mappings j)) :
    (compact fuel i s).begin = s.begin ∧ (compact fuel i s).end_ = s.end_
      ∧ (compact fuel i s).filename = s.filename ∧ (compact fuel i s).nused ≤ s.nused
      ∧ ∀ j < mappingSequenceMaxLen, P ((compact fuel i s).mappings j) := by
  induction fuel generalizing i s with
  | zero => exact ⟨rfl, rfl, rfl, le_rfl, hP⟩
  | succ fuel ih =>
    unfold compact
    by_cases hlt : i < s.nused
    · rw [if_pos hlt]
      by_cases hb : (s.mappings i).begin = 0
      · rw [if_pos hb]
        obtain ⟨h1, h2, h3, h4, h5⟩ := ih i { s with
          mappings := update (memmove s.mappings i (i + 1) (s.nused - (i + 1))) (s.nused - 1) {}
          nused := s.nused - 1 } ((Nat.sub_le _ _).trans hle) fun j hj => by
            by_cases hj' : j = s.nused - 1
            · simpa [hj'] using h0
            · simp only [update_of_ne hj', memmove]
              split
              · exact hP _ (by omega)
              · exact hP j hj
        exact ⟨h1, h2, h3, h4.trans (Nat.sub_le _ _), h5⟩
      · rw [if_neg hb]
        exact ih (i + 1) s hle hP
    · rw [if_neg hlt]
      exact ⟨rfl, rfl, rfl, le_rfl, hP⟩

/-! ### Spans that reach an end -/

/-- The slot is clear, or lies between the bounds. -/
def Within (lo hi : Nat) (m : MappingEntry) : Prop :=
  (m.begin = 0 ∧ m.end_ = 0) ∨ (lo ≤ m.begin ∧ m.begin < m.end_ ∧ m.end_ ≤ hi)

/-- The slots that are not in use hold nothing beyond the bounds of the sequence. -/
def Tidy (s : MappingSequence) : Prop :=
  ∀ i, s.nused ≤ i → i < mappingSequenceMaxLen → Within s.begin s.end_ (s.mappings i)

/-- What is left of a sequence between two addresses: a sane one with these bounds and the same
attributes. -/
structure Restricted (s : MappingSequence) (lo hi : Nat) (s' : MappingSequence) : Prop where
  sane : s'.Sane
  tidy : s'.Tidy
  begin_eq : s'.begin = lo
  end_eq : s'.end_ = hi
  attributes : ∀ a, lo ≤ a → a < hi →
    (s'.findEntry a).map MappingEntry.attributes = (s.findEntry a).map MappingEntry.attributes

theorem Sane.within (h : s.Sane) (ht : s.Tidy) (hi : i < mappingSequenceMaxLen) :
    Within s.begin s.end_ (s.mappings i) := by
  by_cases hlt : i < s.nused
  · exact .inr (h.contig.mem_bounds (List.mem_map_of_mem (List.mem_range.mpr hlt)))
  · exact ht i (Nat.le_of_not_lt hlt) hi

theorem Within.mono {hi' : Nat} (h : Within lo hi m) (hle : hi ≤ hi') : Within lo hi' m := by
  unfold Within at *
  omega

theorem Sane.extend_tidy {r : Mapping} (h : s.Sane) (ht : s.Tidy) (hb : s.end_ = r.begin)
    (hne : r.begin < r.end_) : (s.extend r).Tidy := by
  have hbegin : (s.extend r).begin = s.begin := if_neg (Nat.ne_of_gt h.begin_pos)
  intro i h1 h2
  rw [hbegin]
  change Within s.begin r.end_ (update s.mappings s.nused _ i)
  rw [update_of_ne (Nat.ne_of_gt h1)]
  exact (ht i (Nat.le_of_succ_le h1) h2).mono (by omega)

theorem Within.cut_tail (h : Within lo hi m) (hhi : hi = addr + length) :
    Within lo addr (cutEntry addr length m) := by
  unfold cutEntry
  split
  · split
    · exact .inl ⟨rfl, rfl⟩
    · split
      · rcases h with h | h <;> omega
      · refine .inr ⟨?_, ?_, le_rfl⟩
        · show lo ≤ m.begin
          rcases h with h | h <;> omega
        · show m.begin < addr
          omega
  · rcases h with h | h
    · exact .inl h
    · exact .inr ⟨h.1, h.2.1, by omega⟩

theorem Within.cut_head (h : Within lo hi m) (hlo : lo = addr) (length : Nat) :
    Within (addr + length) hi (cutEntry addr length m) := by
  unfold cutEntry
  split
  · split
    · exact .inl ⟨rfl, rfl⟩
    · split
      · refine .inr ⟨le_rfl, ?_, ?_⟩
        · show addr + length < m.end_
          omega
        · rcases h with h | h
          · omega
          · exact h.2.2
      · rcases h with h | h <;> omega
  · rcases h with h | h
    · exact .inl h
    · exact .inr ⟨by omega, h.2.1, h.2.2⟩

theorem filter_map_cut_tail (hhi : hi = addr + length)
    (hl : ∀ m ∈ l, 0 < m.begin ∧ m.begin < m.end_ ∧ m.end_ ≤ hi) :
    (l.map (cutEntry addr length)).filter (fun m => m.begin ≠ 0) = below addr l := by
  induction l with
  | nil => rfl
  | cons m l ih =>
    obtain ⟨h1, h2, h3⟩ := hl m (.head _)
    rw [List.map_cons, List.filter_cons, ih fun x hx => hl x (List.mem_cons_of_mem m hx),
      below_cons]
    show _ = if m.begin < addr then (if m.end_ ≤ addr then m else { m with end_ := addr }) :: _
      else _
    have h0 : m.begin ≠ 0 := h1.ne'
    by_cases hb : m.begin < addr
    · rw [if_pos hb]
      by_cases he : m.end_ ≤ addr
      · rw [if_pos he, cutEntry_apart (.inl he), if_pos (by simpa using h0)]
      · rw [if_neg he, cutEntry_back hb (by omega), if_pos (by simpa using h0)]
    · rw [if_neg hb, cutEntry_inside (by omega) (by omega) h2, if_neg (by simp)]

theorem filter_map_cut_head (hpos : 0 < length)
    (hl : ∀ m ∈ l, 0 < m.begin ∧ addr ≤ m.begin ∧ m.begin < m.end_) :
    (l.map (cutEntry addr length)).filter (fun m => m.begin ≠ 0) = above (addr + length) l := by
  induction l with
  | nil => rfl
  | cons m l ih =>
    obtain ⟨h1, h2, h3⟩ := hl m (.head _)
    rw [List.map_cons, List.filter_cons, ih fun x hx => hl x (List.mem_cons_of_mem m hx),
      above_cons]
    show _ = if addr + length < m.end_ then
      (if addr + length ≤ m.begin then m else { m with begin := addr + length }) :: _ else _
    have h0 : m.begin ≠ 0 := h1.ne'
    by_cases he : addr + length < m.end_
    · rw [if_pos he]
      rcases Nat.lt_trichotomy (addr + length) m.begin with hb | hb | hb
      · rw [if_pos hb.le, cutEntry_apart (.inr hb), if_pos (by simpa using h0)]
      · rw [if_pos hb.le, cutEntry_front h2 (by omega) he, hb,
          if_pos (by simpa using h0)]
      · rw [if_neg hb.not_ge, cutEntry_front h2 (by omega) he,
          if_pos (by simp; omega)]
    · rw [if_neg he, cutEntry_inside h2 (by omega) h3, if_neg (by simp)]

theorem deleteMappingSequenceSpan_eq (addr length lo hi : Nat) (h : s.Sane) (ht : s.Tidy)
    (hno : ∀ m, Within s.begin s.end_ m → ¬ (addr > m.begin ∧ addr + length < m.end_))
    (hcut : ∀ m, Within s.begin s.end_ m → Within lo hi (cutEntry addr length m)) :
    ∃ (s1 : MappingSequence) (b e : Nat), s.deleteMappingSequenceSpan addr length
        = some (adjustBounds addr length { s1 with begin := b, end_ := e })
      ∧ s1.entries = (s.entries.map (cutEntry addr length)).filter (fun m => m.begin ≠ 0)
      ∧ s1.nused ≤ mappingSequenceMaxLen
      ∧ (∀ i < mappingSequenceMaxLen, Within lo hi (s1.mappings i))
      ∧ (b = s.begin ∨ b = addr + length ∧ addr ≤ s.begin)
      ∧ (e = s.end_ ∨ e = addr ∧ (s.mappings (s.nused - 1)).begin < addr) := by
  have hw : ∀ i < mappingSequenceMaxLen, Within s.begin s.end_ (s.mappings i) :=
    fun i hi => h.within ht hi
  obtain ⟨b, e, hfold, hb, he⟩ := foldlM_deleteSpanAt (s := s) addr length
    mappingSequenceMaxLen (fun i hi => by rcases hw i hi with h' | h' <;> omega)
    fun i hi => hno _ (hw i hi)
  set s1 : MappingSequence := { s with
    begin := b
    end_ := e
    mappings := fun i =>
      if i < mappingSequenceMaxLen then cutEntry addr length (s.mappings i) else s.mappings i }
  have hent : s1.entries = s.entries.map (cutEntry addr length) := by
    unfold entries
    rw [List.map_map]
    refine List.map_congr_left fun i hi => ?_
    have hlt : i < s.nused := List.mem_range.mp hi
    exact if_pos (hlt.trans_le h.le)
  have hcompact := entries_compact s1.nused 0 s1 (Nat.zero_le _) (by omega)
  rw [hent, List.take_zero, List.drop_zero, List.nil_append] at hcompact
  obtain ⟨f1, f2, -, f4, f5⟩ := compact_frame (P := Within lo hi) (.inl ⟨rfl, rfl⟩) s1.nused 0 s1
    h.le fun j hj => by
      show Within lo hi (if j < mappingSequenceMaxLen then _ else _)
      rw [if_pos hj]
      exact hcut _ (hw j hj)
  refine ⟨compact s1.nused 0 s1, b, e, ?_, hcompact, f4.trans h.le, f5, ?_, he⟩
  · simp only [deleteMappingSequenceSpan, hfold, Option.bind_eq_bind, Option.bind_some,
      Option.pure_def]
    refine congrArg (fun x => some (adjustBounds addr length x)) ?_
    have hb' : b = (compact s1.nused 0 s1).begin := f1.symm
    have he' : e = (compact s1.nused 0 s1).end_ := f2.symm
    rw [hb', he']
  · have h0 : (s.mappings 0).begin = s.begin := by
      have hc := h.contig
      have hpos := h.pos
      cases hE : s.entries with
      | nil => simp [← length_entries, hE] at hpos
      | cons a l =>
        rw [hE] at hc
        rw [mappings_eq (p := []) (n := 0) hE rfl]
        exact hc.1
    rwa [h0] at hb

theorem Sane.deleteSuffix (h : s.Sane) (ht : s.Tidy) (addr : Nat) (h1 : s.begin < addr)
    (h2 : addr < s.end_) :
    ∃ s', s.deleteMappingSequenceSpan addr (s.end_ - addr) = some s'
      ∧ Restricted s s.begin addr s' := by
  have hend : s.end_ = addr + (s.end_ - addr) := by omega
  obtain ⟨s1, b, e, heq, hent, hlen, hwithin, hb, he⟩ := deleteMappingSequenceSpan_eq
    addr (s.end_ - addr) s.begin addr h ht
    (fun m hm => by rcases hm with hm | hm <;> omega) fun m hm => hm.cut_tail hend
  rw [filter_map_cut_tail hend fun m hm => by
    have := h.contig.mem_bounds hm
    exact ⟨h.begin_pos.trans_le this.1, this.2.1, this.2.2⟩] at hent
  have hcontig : Contig s.begin addr s1.entries := by
    rw [hent]
    exact h.contig.below h1.le h2.le
  obtain rfl : b = s.begin := by
    rcases hb with hb | hb
    · exact hb
    · omega
  have hadj : adjustBounds addr (s.end_ - addr) { s1 with begin := s.begin, end_ := e }
      = { s1 with begin := s.begin, end_ := addr } := by
    simp only [adjustBounds, MappingSequence.mk.injEq, and_true]
    refine ⟨if_neg (by omega), ?_⟩
    rcases he with rfl | ⟨rfl, -⟩
    · exact if_pos (by omega)
    · exact if_neg (by omega)
  refine ⟨_, heq.trans (congrArg some hadj), ⟨?_, hlen, h.begin_pos, hcontig⟩,
    fun i _ hi => hwithin i hi, rfl, rfl, fun a ha1 ha2 => ?_⟩
  · show 0 < s1.nused
    rw [← length_entries]
    refine List.length_pos_of_ne_nil fun hnil => ?_
    rw [hnil] at hcontig
    exact absurd hcontig h1.ne
  · show (at? a s1.entries).map _ = (at? a s.entries).map _
    rw [hent, at?_below, if_pos ha2, Option.map_map]
    congr 1
    funext m
    simp only [comp_apply, clipHi]
    split <;> rfl

theorem Sane.deletePrefix (h : s.Sane) (ht : s.Tidy) (addr : Nat) (h1 : s.begin < addr)
    (h2 : addr < s.end_) :
    ∃ s', s.deleteMappingSequenceSpan s.begin (addr - s.begin) = some s'
      ∧ Restricted s addr s.end_ s' := by
  have haddr : s.begin + (addr - s.begin) = addr := by omega
  obtain ⟨s1, b, e, heq, hent, hlen, hwithin, hb, he⟩ := deleteMappingSequenceSpan_eq
    s.begin (addr - s.begin) addr s.end_ h ht
    (fun m hm => by rcases hm with hm | hm <;> omega) fun m hm => by
      have hcut := hm.cut_head rfl (addr - s.begin)
      rwa [haddr] at hcut
  rw [filter_map_cut_head (by omega) fun m hm => by
    have := h.contig.mem_bounds hm
    exact ⟨h.begin_pos.trans_le this.1, this.1, this.2.1⟩, haddr] at hent
  have hcontig : Contig addr s.end_ s1.entries := by
    rw [hent]
    exact h.contig.above h1.le h2.le
  obtain rfl : e = s.end_ := by
    rcases he with he | ⟨-, he⟩
    · exact he
    · have hmem : s.mappings (s.nused - 1) ∈ s.entries :=
        List.mem_map_of_mem (List.mem_range.mpr (Nat.sub_lt h.pos Nat.one_pos))
      have := (h.contig.mem_bounds hmem).1
      exact absurd he this.not_gt
  have hadj : adjustBounds s.begin (addr - s.begin) { s1 with begin := b, end_ := s.end_ }
      = { s1 with begin := addr, end_ := s.end_ } := by
    simp only [adjustBounds, MappingSequence.mk.injEq, and_true]
    refine ⟨?_, if_neg (by omega)⟩
    rcases hb with rfl | ⟨rfl, -⟩
    · rw [if_pos (by omega), haddr]
    · rw [if_neg (by omega), haddr]
  refine ⟨_, heq.trans (congrArg some hadj), ⟨?_, hlen, h.begin_pos.trans h1, hcontig⟩,
    fun i _ hi => hwithin i hi, rfl, rfl, fun a ha1 ha2 => ?_⟩
  · show 0 < s1.nused
    rw [← length_entries]
    refine List.length_pos_of_ne_nil fun hnil => ?_
    rw [hnil] at hcontig
    exact absurd hcontig h2.ne
  · show (at? a s1.entries).map _ = (at? a s.entries).map _
    rw [hent, at?_above, if_pos ha1, Option.map_map]
    congr 1
    funext m
    simp only [comp_apply, clipLo]
    split <;> rfl

end Liballocs.MappingSequence
