/-
When the assembler reads what was emitted.

Characters that are read back one by one make a string that is read back.  For the converse each
character gets a weight, such that no reading weighs more than what was printed, and one that goes
wrong weighs less: an escape begins with a backslash, which is heavy, and the digits that are left over
from a byte above 127 have enough sevens.  So nothing that is read later makes up for it.
-/
import Liballocs.EmitAsm
import Mathlib.Algebra.BigOperators.Group.List.Basic
import Mathlib.Algebra.Order.Ring.Int
import Mathlib.Tactic.Linarith

namespace Liballocs.EmitAsm

theorem octalEscape_eq {c : Nat} (hc : c < 128) :
    octalEscape c = [92, 48 + c / 64, 48 + c / 8 % 8, 48 + c % 8] := by
  revert c
  decide +kernel

theorem escape_octal {c : Nat} (hc : c < 128) (rest : List Nat) :
    escape ((48 + c / 64) :: (48 + c / 8 % 8) :: (48 + c % 8) :: rest) = some (c, 3) := by
  have h64 : 48 + c / 64 < 56 := by omega
  have h8 : 48 + c / 8 % 8 < 56 := by omega
  have h1 : 48 + c % 8 < 56 := by omega
  simp [escape, h64, h8, h1]
  omega

theorem readString_plain {c : Nat} (h34 : c ≠ 34) (h92 : c ≠ 92) (rest : List Nat) :
    readString (c :: rest) = (readString rest).map (c :: ·) := by
  rw [readString, if_neg h34, if_neg h92]

theorem readString_octalEscape {c : Nat} (hc : c < 128) (rest : List Nat) :
    readString (octalEscape c ++ rest) = (readString rest).map (c :: ·) := by
  rw [octalEscape_eq hc]
  simp only [List.cons_append, List.nil_append]
  rw [readString, if_neg (by decide), if_pos rfl, escape_octal hc]
  rfl

/-! ### What is read back -/

/-- Neither is a byte of the array taken for something else, nor does one end its string. -/
structure Readable (obj : List Nat) : Prop where
  backslash : 92 ∉ obj
  high : ∀ pre c post, obj = pre ++ c :: post → 128 ≤ c → 0 ∉ post
  quote : ∀ pre post, obj = pre ++ 34 :: post → 0 ∈ post

theorem readString_emitChar {c : Nat} (hc : c < 128 ∧ c ≠ 92) (rest : List Nat) :
    readString (emitChar c ++ rest) = (readString rest).map (c :: ·) := by
  unfold emitChar
  split
  · rename_i h
    exact readString_plain h.2 hc.2 rest
  · exact readString_octalEscape hc.1 rest

/-- Characters that are read back one by one make a string that is. -/
theorem readString_flatMap {emit : Nat → List Nat} {piece : List Nat}
    (h : ∀ c ∈ piece, ∀ rest, readString (emit c ++ rest) = (readString rest).map (c :: ·)) :
    readString (piece.flatMap emit ++ [34]) = some piece := by
  induction piece with
  | nil => simp [readString]
  | cons c piece ih =>
    rw [List.flatMap_cons, List.append_assoc, h c (.head _), ih fun d hd => h d (.tail _ hd)]
    rfl

theorem Readable.assemble_emitLines {piece rest : List Nat} (h : Readable (piece ++ rest))
    (h0 : 0 ∉ piece) : assemble (emitLines piece rest) = some (piece ++ rest) := by
  induction rest generalizing piece with
  | nil =>
    rw [List.append_nil] at h ⊢
    have hread : readString (piece.flatMap ([·]) ++ [34]) = some piece := by
      refine readString_flatMap fun c hc => readString_plain ?_ (ne_of_mem_of_not_mem hc h.backslash)
      -- a NUL follows every quote, and the last piece has none
      rintro rfl
      obtain ⟨pre, post, rfl⟩ := List.append_of_mem hc
      exact h0 (List.mem_append_right _ (.tail _ (h.quote pre post rfl)))
    rw [List.flatMap_singleton'] at hread
    unfold emitLines
    split
    · simp_all [assemble]
    · simp [assemble, hread]
  | cons c rest ih =>
    unfold emitLines
    split
    · rename_i hc
      subst hc
      have hread : readString (piece.flatMap emitChar ++ [34]) = some piece := by
        refine readString_flatMap fun c hc => readString_emitChar ⟨?_, ?_⟩
        · by_contra hge
          obtain ⟨pre, post, rfl⟩ := List.append_of_mem hc
          exact h.high pre c (post ++ 0 :: rest) (by simp) (not_lt.mp hge) (by simp)
        · exact ne_of_mem_of_not_mem (List.mem_append_left _ hc) h.backslash
      have htail := @ih [] ⟨fun hm => h.backslash (by simp_all),
        fun pre c post heq => h.high (piece ++ 0 :: pre) c post (by simp_all),
        fun pre post heq => h.quote (piece ++ 0 :: pre) post (by simp_all)⟩ (by simp)
      simp [assemble, hread, htail]
    · rename_i hc
      rw [List.append_cons] at h
      rw [List.append_cons piece c rest]
      exact ih h (by simp [h0, Ne.symm hc])

/-! ### What is lost -/

/-- The weight of a character: a backslash is the heaviest, then what is printed as an escape. -/
def weight (c : Nat) : Int :=
  if c = 92 then 100 else if c < 32 ∨ c = 34 ∨ 127 ≤ c then 10 else if c = 52 then 1
  else if c = 55 then -1 else 0

/-- The weight of a string. -/
def weigh (s : List Nat) : Int := (s.map weight).sum

@[simp] theorem weigh_nil : weigh [] = 0 := rfl

@[simp] theorem weigh_cons (c : Nat) (s : List Nat) : weigh (c :: s) = weight c + weigh s := by
  simp [weigh]

@[simp] theorem weigh_append (s t : List Nat) : weigh (s ++ t) = weigh s + weigh t := by
  simp [weigh]

theorem weight_le {c : Nat} (hc : c ≠ 92) : weight c ≤ 10 := by
  unfold weight
  split_ifs <;> omega

theorem weight_ge (c : Nat) : -1 ≤ weight c := by
  unfold weight
  split_ifs <;> omega

/-- A digit of the octal system. -/
def IsOctal (d : Nat) : Prop := 48 ≤ d ∧ d < 56

theorem readString_octal {ds : List Nat} (h : ∀ d ∈ ds, IsOctal d) (rest : List Nat) :
    readString (ds ++ rest) = (readString rest).map (ds ++ ·) := by
  induction ds with
  | nil => simp
  | cons d ds ih =>
    obtain ⟨h1, h2⟩ := h d (.head _)
    rw [List.cons_append, readString_plain (by omega) (by omega), ih fun e he => h e (.tail _ he),
      Option.map_map]
    rfl

/-- The digits of an escape are octal ones and light; those of a high byte from the fourth on weigh
less than nothing. -/
theorem octalEscape_spec : ∀ c < 256, ∃ ds, octalEscape c = 92 :: ds ∧ (∀ d ∈ ds, IsOctal d)
    ∧ weigh ds ≤ 2 ∧ (128 ≤ c → ds.take 3 = [51, 55, 55] ∧ weigh (ds.drop 3) < 0) := by
  intro c hc
  refine ⟨(octalEscape c).tail, ?_⟩
  revert c
  unfold IsOctal
  decide +kernel

/-- Of the eleven digits for a high byte, the assembler takes three. -/
theorem readString_high {c : Nat} (hc : c < 256) (h128 : 128 ≤ c) :
    ∃ ds, weigh ds < 0 ∧ ∀ rest,
      readString (octalEscape c ++ rest) = (readString rest).map fun q => 255 :: (ds ++ q) := by
  obtain ⟨ds, hds, hoctal, -, hhigh⟩ := octalEscape_spec c hc
  obtain ⟨htake, hlight⟩ := hhigh h128
  obtain ⟨ds, rfl⟩ : ∃ ds', ds = 51 :: 55 :: 55 :: ds' :=
    ⟨ds.drop 3, by rw [← List.take_append_drop 3 ds, htake]; simp⟩
  refine ⟨ds, hlight, fun rest => ?_⟩
  have he : escape (51 :: 55 :: 55 :: (ds ++ rest)) = some (255, 3) := by simp [escape]
  rw [hds]
  simp only [List.cons_append]
  rw [readString, if_neg (by decide), if_pos rfl, he]
  simp only [Option.bind_some, List.drop_succ_cons, List.drop_zero]
  rw [readString_octal fun d hd => hoctal d (.tail _ (.tail _ (.tail _ hd))), Option.map_map]
  rfl

/-- The character is printed as it is, or as an escape if it is a special one. -/
def Emits (emit : Nat → List Nat) (c : Nat) : Prop :=
  emit c = [c] ∨ emit c = octalEscape c ∧ (c < 32 ∨ c = 34 ∨ 127 ≤ c)

/-- What is printed for the character is read as the character. -/
def Faithful (emit : Nat → List Nat) (c : Nat) : Prop :=
  c ≠ 92 ∧ (emit c = [c] ∧ c ≠ 34 ∨ emit c = octalEscape c ∧ c < 128)

variable {emit : Nat → List Nat} {p q text : List Nat}

/-- The digits behind a backslash are characters of the piece. -/
theorem takeWhile_octal (hb : ∀ c ∈ p, c < 256) (hemit : ∀ c ∈ p, Emits emit c) (n : Nat) :
    ∃ k, ((p.flatMap emit ++ [34]).take n).takeWhile (fun d => 48 ≤ d && d < 56) = p.take k
      ∧ k = (p.take k).length
      ∧ (p.flatMap emit ++ [34]).drop k = (p.drop k).flatMap emit ++ [34] := by
  induction n generalizing p with
  | zero => exact ⟨0, by simp⟩
  | succ n ih =>
    cases p with
    | nil => exact ⟨0, by simp⟩
    | cons c p =>
      obtain ⟨k, hk, hlen, hdrop⟩ := ih (fun d hd => hb d (.tail _ hd)) fun d hd => hemit d (.tail _ hd)
      rcases hemit c (.head _) with hc | ⟨hc, -⟩
      · by_cases hd : 48 ≤ c ∧ c < 56
        · exact ⟨k + 1, by simp [hc, hd, hk], by simp [← hlen], by simp [hc, hdrop]⟩
        · exact ⟨0, by simp [hc, hd]⟩
      · obtain ⟨ds, hds, -⟩ := octalEscape_spec c (hb c (.head _))
        exact ⟨0, by simp [hc, hds]⟩

/-- The value of up to three digits weighs less than a backslash with them: 92 is 134 or 534. -/
theorem weight_octal {ds : List Nat} (h : ∀ d ∈ ds, IsOctal d) (hlen : ds.length ≤ 3) (hne : ds ≠ []) :
    weight (ds.foldl (fun val d => 8 * val + (d - 48)) 0 % 256) < 100 + weigh ds := by
  have hdigit : ∀ d, IsOctal d → ∃ x < 8, d = 48 + x := fun d h => ⟨d - 48, by have := h.2; omega,
    by have := h.1; omega⟩
  match ds, hlen, hne with
  | [a], _, _ =>
    obtain ⟨a, ha, rfl⟩ := hdigit a (h a (.head _))
    clear h hdigit
    revert a
    decide +kernel
  | [a, b], _, _ =>
    obtain ⟨a, ha, rfl⟩ := hdigit a (h a (.head _))
    obtain ⟨b, hb, rfl⟩ := hdigit b (h b (.tail _ (.head _)))
    clear h hdigit
    revert a b
    decide +kernel
  | [a, b, c], _, _ =>
    obtain ⟨a, ha, rfl⟩ := hdigit a (h a (.head _))
    obtain ⟨b, hb, rfl⟩ := hdigit b (h b (.tail _ (.head _)))
    obtain ⟨c, hc, rfl⟩ := hdigit c (h c (.tail _ (.tail _ (.head _))))
    clear h hdigit
    revert a b c
    decide +kernel

/-- An escape is one of up to three digits, or of one other character. -/
theorem escape_cases {b n : Nat} (h : escape text = some (b, n)) :
    (∃ ds, (text.take 3).takeWhile (fun d => 48 ≤ d && d < 56) = ds ∧ n = ds.length
        ∧ weight b < 100 + weigh ds)
      ∨ n = 1 ∧ ∃ d rest, text = d :: rest ∧ (d = 92 → b = 92) ∧ weight b < 100 + weight d := by
  unfold escape at h
  dsimp only at h
  split at h
  · rename_i hne
    obtain ⟨rfl, rfl⟩ := Prod.mk.inj (Option.some.inj h)
    refine .inl ⟨_, rfl, rfl, weight_octal (fun d hd => ?_) ?_ hne⟩
    · simpa [IsOctal] using List.all_eq_true.mp List.all_takeWhile d hd
    · exact (List.takeWhile_prefix _).length_le.trans (List.length_take_le _ _)
  · cases text with
    | nil => simp at h
    | cons d rest =>
      have htable : ∀ e ∈ [(98, 8), (102, 12), (110, 10), (114, 13), (116, 9), (34, 34), (92, 92)],
          (e.1 = 92 → e.2 = 92) ∧ weight e.2 < 100 + weight e.1 := by decide +kernel
      simp only [List.head?_cons, Option.bind_eq_bind, Option.bind_some] at h
      obtain ⟨byte, hlookup, hpair⟩ := Option.bind_eq_some_iff.mp h
      obtain ⟨rfl, rfl⟩ := Prod.mk.inj (Option.some.inj hpair)
      obtain ⟨l₁, l₂, hsplit, -⟩ := List.lookup_eq_some_iff.mp hlookup
      obtain ⟨h92, hw⟩ := htable (d, byte) (hsplit ▸ by simp)
      exact .inr ⟨rfl, d, rest, rfl, h92, hw⟩

/-- A backslash is never read back: its escape weighs less than what it is made of. -/
theorem weigh_backslash {b : Nat} {k : Nat}
    (hb : ∀ c ∈ p, c < 256) (hemit : ∀ c ∈ p, Emits emit c)
    (ih : ∀ p' q', p'.length ≤ p.length → (∀ c ∈ p', c ∈ p) →
      readString (p'.flatMap emit ++ [34]) = some q' → weigh q' ≤ weigh p')
    (he : escape (p.flatMap emit ++ [34]) = some (b, k))
    (hq : readString ((p.flatMap emit ++ [34]).drop k) = some q) :
    weight b + weigh q < 100 + weigh p := by
  rcases escape_cases he with ⟨ds, hds, rfl, hw⟩ | ⟨rfl, d, rest, htext, h92, hw⟩
  · obtain ⟨k, hk, hlen, hdrop⟩ := takeWhile_octal hb hemit 3
    rw [hk] at hds
    subst hds
    rw [← hlen, hdrop] at hq
    have hle := ih (p.drop k) q (by simp) (fun c hc => List.mem_of_mem_drop hc) hq
    have hsplit : weigh p = weigh (p.take k) + weigh (p.drop k) := by
      rw [← weigh_append, List.take_append_drop]
    omega
  · cases p with
    | nil => simp [readString] at hq
    | cons c p =>
      rcases hemit c (.head _) with hc | ⟨hc, hspecial⟩
      · simp only [List.flatMap_cons, hc, List.nil_append, List.cons_append, List.cons.injEq]
          at htext
        obtain ⟨rfl, rfl⟩ := htext
        simp only [List.flatMap_cons, hc, List.nil_append, List.cons_append, List.drop_succ_cons,
          List.drop_zero] at hq
        have hle := ih p q (by simp) (fun d hd => .tail _ hd) hq
        rw [weigh_cons]
        omega
      · obtain ⟨ds, hds, hoctal, hw2, -⟩ := octalEscape_spec c (hb c (.head _))
        simp only [List.flatMap_cons, hc, hds, List.cons_append, List.cons.injEq] at htext
        obtain ⟨rfl, -⟩ := htext
        simp only [List.flatMap_cons, hc, hds, List.cons_append, List.drop_succ_cons, List.drop_zero,
          List.append_assoc] at hq
        rw [readString_octal hoctal, Option.map_eq_some_iff] at hq
        obtain ⟨q', hq', rfl⟩ := hq
        have hle := ih p q' (by simp) (fun d hd => .tail _ hd) hq'
        have hcw : weight c = 10 := by
          unfold weight
          rw [if_neg (by omega), if_pos hspecial]
        rw [h92 rfl, weigh_append, weigh_cons, hcw]
        simp only [weight, if_true]
        omega

/-- **Reading loses weight**, unless every character of the piece is printed faithfully. -/
theorem weigh_readString (hb : ∀ c ∈ p, c < 256) (hemit : ∀ c ∈ p, Emits emit c)
    (h : readString (p.flatMap emit ++ [34]) = some q) :
    weigh q ≤ weigh p ∧ (weigh q = weigh p → ∀ c ∈ p, Faithful emit c) := by
  obtain ⟨n, hn⟩ : ∃ n, p.length ≤ n := ⟨_, le_rfl⟩
  induction n generalizing p q with
  | zero =>
    obtain rfl := List.length_eq_zero_iff.mp (Nat.le_zero.mp hn)
    obtain rfl : q = [] := by simpa [readString, eq_comm] using h
    simp
  | succ n ih =>
    cases p with
    | nil =>
      obtain rfl : q = [] := by simpa [readString, eq_comm] using h
      simp
    | cons c p =>
      have hb' : ∀ d ∈ p, d < 256 := fun d hd => hb d (.tail _ hd)
      have hemit' : ∀ d ∈ p, Emits emit d := fun d hd => hemit d (.tail _ hd)
      have hn' : p.length ≤ n := by simpa using hn
      -- a character that is read back leaves the comparison to the rest
      have hkeep : (readString (p.flatMap emit ++ [34])).map (c :: ·) = some q → Faithful emit c →
          weigh q ≤ weigh (c :: p) ∧ (weigh q = weigh (c :: p) → ∀ d ∈ c :: p, Faithful emit d) := by
        intro hq hc
        obtain ⟨q', hq', rfl⟩ := Option.map_eq_some_iff.mp hq
        obtain ⟨hle, heq⟩ := ih hb' hemit' hq' hn'
        rw [weigh_cons, weigh_cons]
        exact ⟨by omega, fun h => List.forall_mem_cons.mpr ⟨hc, heq (by omega)⟩⟩
      have hlose : weigh q < weigh (c :: p) →
          weigh q ≤ weigh (c :: p) ∧ (weigh q = weigh (c :: p) → ∀ d ∈ c :: p, Faithful emit d) :=
        fun hlt => ⟨hlt.le, fun h => absurd h hlt.ne⟩
      rw [List.flatMap_cons, List.append_assoc] at h
      rcases hemit c (.head _) with hc | ⟨hc, hspecial⟩
      · rw [hc, List.singleton_append] at h
        by_cases h34 : c = 34
        · rw [readString, if_pos h34, if_neg (by simp)] at h
          cases h
        · by_cases h92 : c = 92
          · rw [readString, if_neg h34, if_pos h92] at h
            obtain ⟨⟨b, k⟩, he, hread⟩ := Option.bind_eq_some_iff.mp h
            obtain ⟨q', hq', rfl⟩ := Option.map_eq_some_iff.mp hread
            refine hlose ?_
            rw [weigh_cons, weigh_cons, h92, show weight 92 = 100 from rfl]
            refine weigh_backslash hb' hemit' (fun p' q' hlen hsub hread' => ?_) he hq'
            exact (ih (fun d hd => hb' d (hsub d hd)) (fun d hd => hemit' d (hsub d hd)) hread'
              (hlen.trans hn')).1
          · rw [readString_plain h34 h92] at h
            exact hkeep h ⟨h92, .inl ⟨hc, h34⟩⟩
      · rw [hc] at h
        by_cases h128 : c < 128
        · rw [readString_octalEscape h128] at h
          exact hkeep h ⟨by omega, .inr ⟨hc, h128⟩⟩
        · obtain ⟨ds, hlight, hhigh⟩ := readString_high (hb c (.head _)) (not_lt.mp h128)
          rw [hhigh] at h
          obtain ⟨q', hq', rfl⟩ := Option.map_eq_some_iff.mp h
          have hle := (ih hb' hemit' hq' hn').1
          refine hlose ?_
          have hcw : weight c = 10 := by
            unfold weight
            rw [if_neg (by omega), if_pos hspecial]
          rw [weigh_cons, weigh_append, weigh_cons, hcw, show weight 255 = 10 from rfl]
          omega

theorem emits_emitChar (c : Nat) : Emits emitChar c := by
  unfold Emits emitChar
  split
  · exact .inl rfl
  · exact .inr ⟨rfl, by omega⟩

theorem emitChar_self : ∀ c < 256, emitChar c = [c] → c < 128 := by
  decide +kernel

theorem Readable.cons_nul {piece rest : List Nat} (hpiece : ∀ c ∈ piece, c ≠ 92 ∧ c < 128)
    (h : Readable rest) : Readable (piece ++ 0 :: rest) := by
  have hsplit : ∀ pre c post, piece ++ 0 :: rest = pre ++ c :: post → c ≠ 0 →
      (c ∈ piece ∧ 0 ∈ post) ∨ ∃ pre', rest = pre' ++ c :: post := by
    intro pre c post heq hc
    rcases List.append_eq_append_iff.mp heq with ⟨l, rfl, hl⟩ | ⟨l, rfl, hl⟩
    · cases l with
      | nil => exact absurd (List.cons.inj hl).1.symm hc
      | cons d l => exact .inr ⟨l, (List.cons.inj hl).2⟩
    · cases l with
      | nil => exact absurd (List.cons.inj hl).1 hc
      | cons d l =>
        obtain ⟨rfl, rfl⟩ := List.cons.inj hl
        exact .inl ⟨by simp, by simp⟩
  refine ⟨fun hm => ?_, fun pre c post heq hge => ?_, fun pre post heq => ?_⟩
  · rcases List.mem_append.mp hm with hm | hm
    · exact (hpiece _ hm).1 rfl
    · exact h.backslash ((List.mem_cons.mp hm).resolve_left (by decide))
  · rcases hsplit pre c post heq (by omega) with ⟨hm, -⟩ | ⟨pre', rfl⟩
    · have := (hpiece c hm).2
      omega
    · exact h.high pre' c post rfl hge
  · rcases hsplit pre 34 post heq (by decide) with ⟨-, h0⟩ | ⟨pre', rfl⟩
    · exact h0
    · exact h.quote pre' post rfl

/-- By induction on the bytes: lines that weigh as much as the array are read back. -/
theorem readable_of_weigh {piece rest out : List Nat} (hb : ∀ c ∈ piece ++ rest, c < 256)
    (h0 : 0 ∉ piece) (h : assemble (emitLines piece rest) = some out) :
    weigh out ≤ weigh (piece ++ rest)
      ∧ (weigh out = weigh (piece ++ rest) → Readable (piece ++ rest)) := by
  induction rest generalizing piece out with
  | nil =>
    rw [List.append_nil] at hb ⊢
    unfold emitLines at h
    split at h
    · rename_i hnil
      subst hnil
      obtain rfl : out = [] := by simpa [assemble, eq_comm] using h
      exact ⟨le_rfl, fun _ => ⟨by simp, by simp, by simp⟩⟩
    · have hread : readString (piece.flatMap ([·]) ++ [34]) = some out := by
        rw [List.flatMap_singleton']
        simpa [assemble] using h
      obtain ⟨hle, heq⟩ := weigh_readString hb (fun c _ => .inl rfl) hread
      refine ⟨hle, fun h => ?_⟩
      have hall := heq h
      refine ⟨fun hm => (hall _ hm).1 rfl, fun pre c post hsplit _ hm => h0 (by simp [hsplit, hm]),
        fun pre post hsplit => ?_⟩
      rcases (hall 34 (by simp [hsplit])).2 with hc | hc
      · exact absurd rfl hc.2
      · exact absurd hc.1 (by decide)
  | cons c rest ih =>
    unfold emitLines at h
    split at h
    · rename_i hc
      subst hc
      obtain ⟨q, hq, h⟩ := Option.bind_eq_some_iff.mp h
      obtain ⟨out', hout', h⟩ := Option.bind_eq_some_iff.mp h
      obtain rfl := Option.some.inj h
      obtain ⟨hle, heq⟩ := weigh_readString (fun c hc => hb c (List.mem_append_left _ hc))
        (fun c _ => emits_emitChar c) hq
      obtain ⟨hle', heq'⟩ := @ih [] _ (fun c hc => hb c (by simp_all)) (by simp) hout'
      simp only [List.nil_append] at hle' heq'
      simp only [if_true, weigh_append, weigh_cons, weigh_nil]
      refine ⟨by omega, fun h => Readable.cons_nul (fun c hc => ?_) (heq' (by omega))⟩
      obtain ⟨h92, hc' | hc'⟩ := heq (by omega) c hc
      · exact ⟨h92, emitChar_self c (hb c (List.mem_append_left _ hc)) hc'.1⟩
      · exact ⟨h92, hc'.2⟩
    · rename_i hc
      rw [List.append_cons] at hb ⊢
      exact ih hb (by simp [h0, Ne.symm hc]) h

/-- **The lines for a character array hold its bytes** exactly if none is a backslash, no byte above
127 has a NUL behind it, and every quote has one. -/
theorem emitMemoryAsmCb_assembles_iff (emitted : Nat) (obj : List Nat) (hb : ∀ c ∈ obj, c < 256) :
    (assemble (emitMemoryAsmCb emitted obj).1 = some obj
      ∧ (emitMemoryAsmCb emitted obj).2 = emitted + obj.length) ↔ Readable obj := by
  refine ⟨fun h => ?_, fun h => ⟨@Readable.assemble_emitLines [] obj h (by simp), rfl⟩⟩
  exact (@readable_of_weigh [] obj _ hb (by simp) h.1).2 rfl

/-- A tab, a quote, two NULs and, behind them, two letters and a byte above 127. -/
theorem emitMemoryAsmCb_assembles_tab :
    assemble (emitMemoryAsmCb 0 [9, 34, 0, 65, 0, 66, 67, 200]).1
      = some [9, 34, 0, 65, 0, 66, 67, 200] := by
  have hlast : Readable [66, 67, 200] :=
    ⟨by decide,
      fun pre c post h _ h0 => absurd (h ▸ by simp [h0] : 0 ∈ [66, 67, 200]) (by decide),
      fun pre post h => absurd (h ▸ by simp : 34 ∈ [66, 67, 200]) (by decide)⟩
  have hletter : Readable ([65] ++ 0 :: [66, 67, 200]) := hlast.cons_nul (by decide)
  have hread : Readable ([9, 34] ++ 0 :: [65, 0, 66, 67, 200]) := hletter.cons_nul (by decide)
  exact ((emitMemoryAsmCb_assembles_iff 0 _ (by decide)).mpr hread).1

/-- A backslash and an `n` are assembled to a newline, a byte above 127 to nine, and a string with a
quote in the last piece is not one. -/
theorem emitMemoryAsmCb_backslash :
    assemble (emitMemoryAsmCb 0 [92, 110, 0]).1 = some [10, 0]
    ∧ assemble (emitMemoryAsmCb 0 [200, 0]).1 = some [255, 55, 55, 55, 55, 55, 55, 49, 48, 0]
    ∧ assemble (emitMemoryAsmCb 0 [65, 34]).1 = none := by
  decide +kernel

end Liballocs.EmitAsm
