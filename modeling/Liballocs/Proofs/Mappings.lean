/-
The top-level records as a list in address order.

Whatever the order of insertions and removals, the list holds the records in use, sorted (`Listed`,
after any `ToplevelRun`).  The two searches for a mapping begin with the highest record that begins
below the address.  If there is none, the lowest record is the answer above it, but null is returned.
-/
import Liballocs.Proofs.Create

namespace Liballocs.Table

open Dll Forest

variable {t t' : Table} {addr b m n r : Nat} {l l₁ l₂ : List Nat}

/-- The top-level records in address order: disjoint, with START among them. -/
structure Listed (t : Table) (l : List Nat) : Prop extends TopList t 0 l where
  start_mem : t.start ∈ l
  bounds : ∀ n ∈ l, (t.bigAllocations n).begin < (t.bigAllocations n).end_
  apart : l.Pairwise fun m n => (t.bigAllocations m).end_ ≤ (t.bigAllocations n).begin

/-! ### Runs -/

/-- The table holds the START record only. -/
structure StartOnly (t : Table) : Prop where
  null : t.bigAllocations 0 = {}
  inUse_iff : ∀ n, t.InUse n ↔ n = t.start
  up_eq : ∀ n, t.up n = 0
  first_eq : t.first t.start = 0
  next_eq : t.next t.start = 0
  prev_eq : t.prev t.start = 0
  bounds : (t.bigAllocations t.start).begin < (t.bigAllocations t.start).end_

/-- The record `r` may be put into slot `b`: it is disjoint from all others. -/
structure MayAdd (t : Table) (b : Nat) (r : BigAllocation) : Prop where
  free : ¬ t.InUse b
  pos : 0 < b
  lt : b < nbigallocs
  begin_pos : 0 < r.begin
  bounds : r.begin < r.end_
  apart : ∀ n, t.InUse n → t.RangeApart r n

/-- A run of insertions and removals of top-level records, filled in before they are linked, and given
back after they are unlinked. -/
inductive ToplevelRun : Table → Prop
  | start {t : Table} (h : t.StartOnly) : ToplevelRun t
  | add {t t' : Table} {b : Nat} {r : BigAllocation} (h : ToplevelRun t) (hr : t.MayAdd b r)
      (hadd : (t.place b r).addToplevel b = some t') : ToplevelRun t'
  | remove {t : Table} {b : Nat} (h : ToplevelRun t) (hb : t.InUse b) (hs : b ≠ t.start) :
      ToplevelRun ((t.unlinkToplevel b).clearBigallocNomemset b)

/-- What a run keeps: all records are top-level, disjoint, and linked as they should be. -/
structure Flat (t : Table) : Prop where
  links : t.Links 0
  entered : t.InUse t.start
  up_eq : ∀ n, t.up n = 0
  bounds : ∀ n, t.InUse n → (t.bigAllocations n).begin < (t.bigAllocations n).end_
  apart : ∀ m n, t.InUse m → t.InUse n → m ≠ n → t.Apart m n

theorem StartOnly.flat (h : t.StartOnly) : t.Flat := by
  have hs : t.InUse t.start := (h.inUse_iff t.start).mpr rfl
  refine ⟨⟨h.null, fun n _ => h.up_eq n, h.up_eq 0, fun n _ hn => absurd (h.up_eq n) hn,
    fun n _ => ⟨1, h.up_eq n⟩, fun p hp => ⟨[], ?_, List.nodup_nil, fun c => ?_⟩,
    .inr ⟨hs.ne_zero, [t.start], ⟨t.start, ?_⟩, List.nodup_singleton _, fun n => ?_,
      List.pairwise_singleton _ _⟩⟩, hs, h.up_eq, fun n hn => ?_, fun m n hm hn hne => ?_⟩
  · rw [linked_nil, (h.inUse_iff p).mp hp]
    exact h.first_eq
  · refine ⟨fun hc => absurd hc List.not_mem_nil, fun hc => ?_⟩
    exact absurd (hc.2.symm.trans (h.up_eq c)) hp.ne_zero
  · rw [linked_cons, linked_nil]
    exact ⟨rfl, hs.ne_zero, h.prev_eq, h.next_eq⟩
  · rw [List.mem_singleton, ← h.inUse_iff]
    exact ⟨fun hn => ⟨hn, h.up_eq n, hn.ne_zero⟩, fun hn => hn.1⟩
  · rw [(h.inUse_iff n).mp hn]
    exact h.bounds
  · exact absurd (((h.inUse_iff m).mp hm).trans ((h.inUse_iff n).mp hn).symm) hne

theorem Flat.add {r : BigAllocation} (h : t.Flat) (hr : t.MayAdd b r) :
    ∃ t', (t.place b r).addToplevel b = some t' ∧ t'.Flat := by
  have hfits : t.FitsTop r := by
    intro n hn _
    have hb := h.bounds n hn
    have hrb := hr.bounds
    rcases hr.apart n hn with hap | hap
    · exact .inl ⟨by omega, by omega⟩
    · exact .inr ⟨by omega, by omega⟩
  obtain ⟨t', hrun, hadd, -⟩ := h.links.bigallocInitNomemset hr.free hr.pos hr.lt
    hr.begin_pos.ne' (Nat.lt_trans hr.begin_pos hr.bounds).ne'
    (fun hc => absurd rfl hc) fun _ => ⟨fun _ => ⟨h.entered, h.up_eq _, h.entered.ne_zero⟩, hfits⟩
  have hbounds : r.begin < r.end_ := hr.bounds
  refine ⟨t', hrun, hadd.links, ?_, fun n => ?_, fun n hn => ?_, fun m n hm hn hne => ?_⟩
  · have hs : t'.start = t.start := by rw [hadd.rest]
    rw [hs]
    exact hadd.inUse_iff.mpr (.inl h.entered)
  · by_cases hnb : n = b
    · rw [hnb]
      exact hadd.up_eq
    · rw [(hadd.old hnb).2.2]
      exact h.up_eq n
  · by_cases hnb : n = b
    · rw [hnb, hadd.begin_eq, hadd.end_eq]
      exact hbounds
    · rw [(hadd.old hnb).1, (hadd.old hnb).2.1]
      exact h.bounds n ((hadd.inUse_iff.mp hn).resolve_right hnb)
  · have hold : ∀ {k}, t'.InUse k → k ≠ b → t.InUse k := fun hk hkb =>
      (hadd.inUse_iff.mp hk).resolve_right hkb
    unfold Apart
    by_cases hmb : m = b
    · have hnb : n ≠ b := fun hnb => hne (hmb.trans hnb.symm)
      rw [hmb, hadd.begin_eq, hadd.end_eq, (hadd.old hnb).1, (hadd.old hnb).2.1]
      exact (hr.apart n (hold hn hnb)).symm
    · by_cases hnb : n = b
      · rw [hnb, hadd.begin_eq, hadd.end_eq, (hadd.old hmb).1, (hadd.old hmb).2.1]
        exact hr.apart m (hold hm hmb)
      · rw [(hadd.old hmb).1, (hadd.old hmb).2.1, (hadd.old hnb).1, (hadd.old hnb).2.1]
        exact h.apart m n (hold hm hmb) (hold hn hnb) hne

theorem Flat.remove (h : t.Flat) (hb : t.InUse b) (hs : b ≠ t.start) :
    ((t.unlinkToplevel b).clearBigallocNomemset b).Flat := by
  have hunlinked := unlinkToplevel_eq t b
  have hlinks := (h.links.unlinkToplevel hb (h.up_eq b)).1
  have hup : ∀ n, (t.unlinkToplevel b).up n = 0 := fun n => by
    rw [hunlinked]
    exact h.up_eq n
  have hin : ∀ {n}, ((t.unlinkToplevel b).clearBigallocNomemset b).InUse n → t.InUse n ∧ n ≠ b := by
    intro n hn
    rw [clear_inUse, hunlinked] at hn
    exact hn
  have hold : ∀ {n}, n ≠ b →
      (((t.unlinkToplevel b).clearBigallocNomemset b) n).begin = (t n).begin
        ∧ (((t.unlinkToplevel b).clearBigallocNomemset b) n).end_ = (t n).end_ := by
    intro n hn
    rw [hunlinked]
    simp [clearBigallocNomemset, hn]
  have hstart : ((t.unlinkToplevel b).clearBigallocNomemset b).start = t.start := by
    rw [hunlinked]
    rfl
  refine ⟨hlinks.clear hb.ne_zero fun c hc => ?_, ?_, fun n => ?_, fun n hn => ?_,
    fun m n hm hn hne => ?_⟩
  · exact hb.ne_zero (hc.symm.trans (hup c))
  · rw [hstart, clear_inUse, hunlinked]
    exact ⟨h.entered, hs.symm⟩
  · rw [clear_up]
    exact hup n
  · obtain ⟨hn, hnb⟩ := hin hn
    rw [(hold hnb).1, (hold hnb).2]
    exact h.bounds n hn
  · obtain ⟨hm, hmb⟩ := hin hm
    obtain ⟨hn, hnb⟩ := hin hn
    unfold Apart
    rw [(hold hmb).1, (hold hmb).2, (hold hnb).1, (hold hnb).2]
    exact h.apart m n hm hn hne

theorem ToplevelRun.flat (h : ToplevelRun t) : t.Flat := by
  induction h with
  | start h => exact h.flat
  | add _ hr hadd ih =>
    obtain ⟨t', hrun, hflat⟩ := ih.add hr
    rw [Option.mem_unique hadd hrun]
    exact hflat
  | remove _ hb hs ih => exact ih.remove hb hs

theorem Flat.listed (h : t.Flat) : ∃ l, t.Listed l := by
  rcases h.links.tops with ⟨h0, -⟩ | ⟨-, l, hl⟩
  · exact absurd h0 h.entered.ne_zero
  have hin : ∀ {n}, n ∈ l → t.InUse n := fun hn => ((hl.mem_iff _).mp hn).1
  refine ⟨l, hl, (hl.mem_iff _).mpr ⟨h.entered, h.up_eq _, h.entered.ne_zero⟩,
    fun n hn => h.bounds n (hin hn), ?_⟩
  -- sorted and disjoint is one after the other
  refine hl.sorted.imp_of_mem fun {m n} hm hn hlt => ?_
  have hne : m ≠ n := by
    rintro rfl
    exact hlt.1.false
  rcases h.apart m n (hin hm) (hin hn) hne with hap | hap
  · exact hap
  · omega

/-- **The list holds the records in use, in address order, and its links are inverse to each other;
what is disjoint from them can be added.** -/
theorem toplevelRun_listed (t : Table) (h : ToplevelRun t) :
    ∃ l, (∃ head, Linked t.next t.prev 0 0 head l)
      ∧ l.Nodup ∧ (∀ n, n ∈ l ↔ t.InUse n ∧ t.up n = 0)
      ∧ l.Pairwise (fun m n => (t.bigAllocations m).end_ ≤ (t.bigAllocations n).begin)
      ∧ l.Pairwise (fun m n => (t.bigAllocations m).begin < (t.bigAllocations n).begin)
      ∧ (∀ m ∈ l, ∀ n ∈ l, t.next m = n ↔ t.prev n = m)
      ∧ ∀ b r, t.MayAdd b r → ∃ t', (t.place b r).addToplevel b = some t' := by
  obtain ⟨l, hl⟩ := h.flat.listed
  obtain ⟨head, hlinked⟩ := hl.linked
  refine ⟨l, ⟨head, hlinked⟩, hl.nodup, fun n => ?_, hl.apart, hl.sorted.imp fun hlt => hlt.1,
    fun m hm n hn => hlinked.next_eq_iff hm hn, fun b r hr => ?_⟩
  · rw [hl.mem_iff]
    exact ⟨fun hn => ⟨hn.1, hn.2.1⟩, fun hn => ⟨hn.1, hn.2, hn.1.ne_zero⟩⟩
  · obtain ⟨t', hrun, -⟩ := h.flat.add hr
    exact ⟨t', hrun⟩

/-- One bigalloc, which the searches start from. -/
def sampleStart : Table where
  bigAllocations n := if n = 1 then { begin := 8192, end_ := 12288 } else {}
  start := 1

/-- A record below it. -/
def sampleLower : BigAllocation := { begin := 4096, end_ := 8192 }

theorem sampleStart_inUse (n : Nat) : sampleStart.InUse n ↔ n = 1 := by
  unfold InUse sampleStart
  by_cases hn : n = 1
  · subst hn
    decide
  · simp [hn]

theorem sampleStart_startOnly : sampleStart.StartOnly where
  null := rfl
  inUse_iff := sampleStart_inUse
  up_eq n := by
    unfold up sampleStart
    by_cases hn : n = 1 <;> simp [hn]
  first_eq := rfl
  next_eq := rfl
  prev_eq := rfl
  bounds := by decide

theorem sampleStart_listed : sampleStart.Listed [1] := by
  obtain ⟨l, hl⟩ := sampleStart_startOnly.flat.listed
  have hmem : ∀ n, n ∈ l ↔ n = 1 := by
    intro n
    rw [hl.mem_iff, sampleStart_inUse]
    exact ⟨fun hn => hn.1, fun hn => ⟨hn, sampleStart_startOnly.up_eq n, by omega⟩⟩
  have hl1 : l = [1] := by
    refine List.perm_singleton.mp ((List.perm_ext_iff_of_nodup hl.nodup (List.nodup_singleton 1)).mpr
      fun n => ?_)
    rw [hmem, List.mem_singleton]
  rw [← hl1]
  exact hl

theorem sampleStart_mayAdd : sampleStart.MayAdd 2 sampleLower where
  free hc := absurd ((sampleStart_inUse 2).mp hc) (by decide)
  pos := by decide
  lt := by decide
  begin_pos := by decide
  bounds := by decide
  apart n hn := by
    rw [(sampleStart_inUse n).mp hn]
    exact .inr (by decide)

/-- A page is added below START. -/
theorem toplevelRun_listed_sample : ∃ (t' : Table) (l : List Nat),
    (sampleStart.place 2 sampleLower).addToplevel 2 = some t'
      ∧ (∀ n, n ∈ l ↔ t'.InUse n ∧ t'.up n = 0)
      ∧ l.Pairwise fun m n => (t'.bigAllocations m).begin < (t'.bigAllocations n).begin := by
  obtain ⟨t', hadd, -⟩ := sampleStart_startOnly.flat.add sampleStart_mayAdd
  obtain ⟨l, -, -, hmem, -, hsorted, -⟩ := toplevelRun_listed t'
    (.add (.start sampleStart_startOnly) sampleStart_mayAdd hadd)
  exact ⟨t', l, hadd, hmem, hsorted⟩

/-! ### Neighbours of an address -/

/-- `r` is the lowest of the records whose end is above the address, or null. -/
def LowestAbove (t : Table) (l : List Nat) (addr r : Nat) : Prop :=
  (r = 0 ∧ ∀ n ∈ l, (t.bigAllocations n).end_ ≤ addr)
    ∨ (r ∈ l ∧ addr < (t.bigAllocations r).end_
      ∧ ∀ n ∈ l, addr < (t.bigAllocations n).end_ →
        (t.bigAllocations r).begin ≤ (t.bigAllocations n).begin)

/-- `r` is the highest of the records that end at or below the address, or null. -/
def HighestBelow (t : Table) (l : List Nat) (addr r : Nat) : Prop :=
  (r = 0 ∧ ∀ n ∈ l, addr < (t.bigAllocations n).end_)
    ∨ (r ∈ l ∧ (t.bigAllocations r).end_ ≤ addr
      ∧ ∀ n ∈ l, (t.bigAllocations n).end_ ≤ addr →
        (t.bigAllocations n).begin ≤ (t.bigAllocations r).begin)

namespace Listed

theorem split (h : t.Listed l) (addr : Nat) : ∃ l₁ l₂, l = l₁ ++ l₂ ∧ (∀ n ∈ l₁, (t n).begin < addr)
    ∧ ∀ n ∈ l₂, addr ≤ (t n).begin := by
  refine exists_split h.sorted (fun n _ => Nat.lt_or_ge _ addr) fun m n hm hlt hn => ?_
  omega

section

variable (h : t.Listed (l₁ ++ l₂)) (h₁ : ∀ n ∈ l₁, (t n).end_ ≤ addr)
  (h₂ : ∀ n ∈ l₂, addr < (t n).end_)
include h h₁ h₂

/-- The last of the records that end at or below the address, if the others end above it. -/
theorem highestBelow : t.HighestBelow (l₁ ++ l₂) addr (l₁.getLast?.getD 0) := by
  rcases List.eq_nil_or_concat l₁ with rfl | ⟨k, m, rfl⟩
  · exact .inl ⟨rfl, h₂⟩
  rw [List.concat_eq_append] at h h₁ ⊢
  rw [List.getLast?_append]
  refine .inr ⟨by simp, h₁ m (by simp), fun n hn hle => ?_⟩
  rcases List.mem_append.mp hn with hn | hn
  · rcases List.mem_append.mp hn with hn | hn
    · have hsorted := (List.pairwise_append.mp (List.pairwise_append.mp h.sorted).1).2.2
      exact (hsorted n hn m (List.mem_singleton.mpr rfl)).1.le
    · rw [List.mem_singleton.mp hn]
      exact le_rfl
  · have := h₂ n hn
    omega

theorem lowestAbove : t.LowestAbove (l₁ ++ l₂) addr (l₂.head?.getD 0) := by
  cases l₂ with
  | nil =>
    refine .inl ⟨rfl, fun n hn => ?_⟩
    rw [List.append_nil] at hn
    exact h₁ n hn
  | cons m k =>
    refine .inr ⟨by simp, h₂ m (.head _), fun n hn hlt => ?_⟩
    rcases List.mem_append.mp hn with hn | hn
    · have := h₁ n hn
      omega
    · rcases List.mem_cons.mp hn with rfl | hn
      · exact le_rfl
      · have hsorted := List.pairwise_cons.mp (List.pairwise_append.mp h.sorted).2.1
        exact (hsorted.1 n hn).1.le

end

section Before

variable {k l₂ : List Nat}

theorem end_le_begin (h : t.Listed (k ++ m :: l₂)) (hn : n ∈ k) : (t n).end_ ≤ (t m).begin :=
  (List.pairwise_append.mp h.apart).2.2 n hn m (.head _)

section

variable (h : t.Listed (k ++ m :: l₂)) (hm : (t m).begin < addr)
  (h₂ : ∀ n ∈ l₂, addr ≤ (t n).begin)
include h hm h₂

theorem findToplevelHighestLt_before : t.findToplevelHighestLt addr = some m := by
  have hl : k ++ m :: l₂ = (k ++ [m]) ++ l₂ := by simp
  have hbegin : ∀ n ∈ k ++ [m], (t n).begin < addr := by
    intro n hn
    rcases List.mem_append.mp hn with hn | hn
    · have hle := h.end_le_begin hn
      have hlt := h.bounds n (List.mem_append_left _ hn)
      omega
    · rw [List.mem_singleton.mp hn]
      exact hm
  rw [hl] at h
  rw [h.toTopList.findToplevelHighestLt_eq h.start_mem hbegin h₂]
  simp

theorem findMapping_gap (hab : ∀ n ∈ l₂, addr < (t n).end_) (hle : (t m).end_ ≤ addr) :
    ∃ r s, t.findMappingAtOrAbove addr = some r ∧ t.findMappingBelow addr = some s
      ∧ t.HighestBelow (k ++ m :: l₂) addr s ∧ t.LowestAbove (k ++ m :: l₂) addr r := by
  have hfound := h.findToplevelHighestLt_before hm h₂
  have hm0 : m ≠ 0 := ((h.mem_iff m).mp (by simp)).1.ne_zero
  have hends : ∀ n ∈ k ++ [m], (t n).end_ ≤ addr := by
    intro n hn
    rcases List.mem_append.mp hn with hn | hn
    · have hle := h.end_le_begin hn
      omega
    · rw [List.mem_singleton.mp hn]
      exact hle
  have hl : k ++ m :: l₂ = (k ++ [m]) ++ l₂ := by simp
  rw [hl] at h ⊢
  have habove : t.findToplevelLowestGe addr = some (l₂.head?.getD 0) := by
    refine h.toTopList.findToplevelLowestGe_eq h.start_mem (fun n hn => ?_) fun n hn => ?_
    · have hend := hends n hn
      omega
    · exact Nat.le_sub_one_of_lt (hab n hn)
  have hbest := h.highestBelow hends hab
  rw [List.getLast?_concat, Option.getD_some] at hbest
  refine ⟨l₂.head?.getD 0, m, ?_, ?_, hbest, h.lowestAbove hends hab⟩
  · unfold findMappingAtOrAbove
    simp [hfound, hm0, hle, habove]
  · unfold findMappingBelow
    simp [hfound, hm0, hle.not_gt]

theorem findMapping_spanning (hab : ∀ n ∈ l₂, addr < (t n).end_) (hlt : addr < (t m).end_) :
    ∃ r s, t.findMappingAtOrAbove addr = some r ∧ t.findMappingBelow addr = some s
      ∧ t.HighestBelow (k ++ m :: l₂) addr s ∧ t.LowestAbove (k ++ m :: l₂) addr r := by
  have hfound := h.findToplevelHighestLt_before hm h₂
  have hm0 : m ≠ 0 := ((h.mem_iff m).mp (by simp)).1.ne_zero
  have hends : ∀ n ∈ k, (t n).end_ ≤ addr := fun n hn =>
    (h.end_le_begin hn).trans hm.le
  have hab' : ∀ n ∈ m :: l₂, addr < (t n).end_ := List.forall_mem_cons.mpr ⟨hlt, hab⟩
  have hnext : t.findToplevelHighestLt (t m).begin = some (k.getLast?.getD 0) := by
    refine h.toTopList.findToplevelHighestLt_eq h.start_mem (fun n hn => ?_)
      (List.forall_mem_cons.mpr ⟨le_rfl, fun n hn => ?_⟩)
    · exact ((List.pairwise_append.mp h.sorted).2.2 n hn m (.head _)).1
    · exact (Nat.le_of_lt hm).trans (h₂ n hn)
  refine ⟨m, k.getLast?.getD 0, ?_, ?_, h.highestBelow hends hab', h.lowestAbove hends hab'⟩
  · unfold findMappingAtOrAbove
    simp [hfound, hm0, hlt.not_ge]
  · unfold findMappingBelow
    simp [hfound, hm0, hlt, hnext]

end

end Before

/-- Nothing begins below the address, so null is returned, although START ends above it. -/
theorem findMapping_none (h : t.Listed l) (h₂ : ∀ n ∈ l, addr ≤ (t n).begin)
    (hab : ∀ n ∈ l, addr < (t n).end_) :
    t.findMappingAtOrAbove addr = some 0 ∧ t.findMappingBelow addr = some 0
      ∧ t.HighestBelow l addr 0 ∧ ¬ t.LowestAbove l addr 0 := by
  have hl : t.TopList 0 ([] ++ l) := h.toTopList
  have hfound : t.findToplevelHighestLt addr = some 0 :=
    hl.findToplevelHighestLt_eq h.start_mem (by simp) h₂
  refine ⟨?_, ?_, .inl ⟨rfl, hab⟩, ?_⟩
  · unfold findMappingAtOrAbove
    simp [hfound]
  · unfold findMappingBelow
    simp [hfound]
  · rintro (⟨-, hno⟩ | ⟨h0, -⟩)
    · exact absurd (hab _ h.start_mem) (hno _ h.start_mem).not_gt
    · exact absurd rfl ((h.mem_iff 0).mp h0).1.ne_zero

end Listed

/-- **The search below is right; the search at or above is right exactly when some record begins
below the address.** -/
theorem findMapping_iff (t : Table) (l : List Nat) (addr : Nat) (h : t.Listed l) :
    ∃ r s, t.findMappingAtOrAbove addr = some r ∧ t.findMappingBelow addr = some s
      ∧ t.HighestBelow l addr s
      ∧ (t.LowestAbove l addr r ↔ ∃ n ∈ l, (t.bigAllocations n).begin < addr) := by
  obtain ⟨l₁, l₂, rfl, h₁, h₂⟩ := h.split addr
  have hab : ∀ n ∈ l₂, addr < (t n).end_ := fun n hn =>
    (h₂ n hn).trans_lt (h.bounds n (List.mem_append_right l₁ hn))
  rcases List.eq_nil_or_concat l₁ with rfl | ⟨k, m, rfl⟩
  · obtain ⟨hr, hs, hbelow, hnot⟩ := Listed.findMapping_none h h₂ hab
    refine ⟨0, 0, hr, hs, hbelow, fun hc => absurd hc hnot, ?_⟩
    rintro ⟨n, hn, hlt⟩
    exact absurd (h₂ n hn) hlt.not_ge
  · have hl : k.concat m ++ l₂ = k ++ m :: l₂ := by simp
    have hm : (t m).begin < addr := h₁ m (by simp)
    rw [hl] at h ⊢
    have hright : ∃ r s, t.findMappingAtOrAbove addr = some r ∧ t.findMappingBelow addr = some s
        ∧ t.HighestBelow (k ++ m :: l₂) addr s ∧ t.LowestAbove (k ++ m :: l₂) addr r := by
      rcases Nat.lt_or_ge addr (t m).end_ with hlt | hle
      · exact h.findMapping_spanning hm h₂ hab hlt
      · exact h.findMapping_gap hm h₂ hab hle
    obtain ⟨r, s, hr, hs, hbelow, habove⟩ := hright
    exact ⟨r, s, hr, hs, hbelow, fun _ => ⟨m, by simp, hm⟩, fun _ => habove⟩

/-- With a page added below START, an address inside that page. -/
theorem findMapping_sample : ∃ (t : Table) (l : List Nat) (r s : Nat),
    (sampleStart.place 2 sampleLower).addToplevel 2 = some t ∧ 1 ∈ l ∧ 2 ∈ l
      ∧ t.findMappingAtOrAbove 6000 = some r ∧ t.findMappingBelow 6000 = some s
      ∧ t.HighestBelow l 6000 s ∧ t.LowestAbove l 6000 r := by
  obtain ⟨t, hadd, hflat⟩ := sampleStart_startOnly.flat.add sampleStart_mayAdd
  obtain ⟨t', hadd', h1, h2, hbegin⟩ : ∃ t, (sampleStart.place 2 sampleLower).addToplevel 2 = some t
      ∧ t.InUse 1 ∧ t.InUse 2 ∧ (t.bigAllocations 2).begin < 6000 := by
    decide +kernel
  obtain rfl := Option.some.inj (hadd.symm.trans hadd')
  obtain ⟨l, hl⟩ := hflat.listed
  have hmem : ∀ n, t.InUse n → n ∈ l := fun n hn =>
    (hl.mem_iff n).mpr ⟨hn, hflat.up_eq n, hn.ne_zero⟩
  obtain ⟨r, s, hr, hs, hbelow, hiff⟩ := findMapping_iff t l 6000 hl
  exact ⟨t, l, r, s, hadd, hmem 1 h1, hmem 2 h2, hr, hs, hbelow, hiff.mpr ⟨2, hmem 2 h2, hbegin⟩⟩

/-- Below START nothing is found, although START is the lowest record above. -/
theorem findMappingAtOrAbove_null : sampleStart.Listed [1]
    ∧ sampleStart.findMappingAtOrAbove 4096 = some 0 ∧ sampleStart.LowestAbove [1] 4096 1
    ∧ ¬ sampleStart.LowestAbove [1] 4096 0 := by
  refine ⟨sampleStart_listed, by decide +kernel, .inr ⟨by decide, by decide, fun n hn _ => ?_⟩, ?_⟩
  · rw [List.mem_singleton.mp hn]
  · rintro (⟨-, hno⟩ | ⟨h0, -⟩)
    · exact absurd (hno 1 (List.mem_singleton.mpr rfl)) (by decide)
    · exact absurd h0 (by decide)

end Liballocs.Table
