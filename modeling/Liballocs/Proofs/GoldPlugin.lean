/-
A shell reads what `shell_quote` returns as one word, the string that was quoted; and which identifiers
and symbols the plugin takes from its options.

The quoting closes the single quotes around each single quote of the string and puts it between double
ones, and the words are followed through the tokens of a line.  An identifier may have blanks by the
expression that checks an option, but the option is split at blanks afterwards.
-/
import Liballocs.GoldPlugin
import Liballocs.Lib.Shell

namespace Liballocs.GoldPlugin

variable {w cur s : List Char} {c : Char} {ps : List (List Char × Entry)}

open Shell

/-- What the loop makes of one character. -/
def quoted (c : Char) : List Char := if c = '\'' then replacement else [c]

/-- The loop has replaced what is before `i_pos`, one character each round. -/
theorem shellQuoteLoop_eq (done s : List Char) (rounds : Nat) (h : s.length < rounds) :
    shellQuoteLoop rounds (done ++ s) done.length = some (done ++ s.flatMap quoted) := by
  induction s generalizing done rounds with
  | nil =>
    obtain ⟨n, rfl⟩ : ∃ n, rounds = n + 1 := ⟨rounds - 1, by omega⟩
    simp [shellQuoteLoop]
  | cons c s ih =>
    obtain ⟨n, rfl⟩ : ∃ n, rounds = n + 1 := ⟨rounds - 1, by omega⟩
    have hn : s.length < n := by simpa using h
    by_cases hc : c = '\''
    · have := ih (done ++ replacement) n hn
      simp_all [shellQuoteLoop, quoted, List.eraseIdx_append_of_length_le]
    · have := ih (done ++ [c]) n hn
      simp_all [shellQuoteLoop, quoted]

theorem shellQuote_eq (s : List Char) (rounds : Nat) (h : s.length < rounds) :
    shellQuote rounds s = some ('\'' :: (s.flatMap quoted ++ ['\''])) := by
  have := shellQuoteLoop_eq [] s rounds h
  simp_all [shellQuote]

/-- Between single quotes the replaced characters are read back. -/
theorem tokens_flatMap_quoted (s w rest : List Char) :
    tokens .single (some w) (s.flatMap quoted ++ '\'' :: rest) = tokens .none (some (w ++ s)) rest := by
  induction s generalizing w with
  | nil => simp [tokens]
  | cons c s ih =>
    by_cases hc : c = '\''
    · simp [quoted, hc, replacement, tokens, expanding, ih]
    · simp [quoted, hc, tokens, ih]

/-- The loop ends after a round for each character, and a line has the result as one word, the string.
-/
theorem shellQuote_one_word (s before rest : List Char) (ts : List Token)
    (hbefore : line before = some ts) (hrest : EndsWord rest) :
    ∃ q, (∀ rounds > s.length, shellQuote rounds s = some q) ∧
      line (before ++ ' ' :: (q ++ rest)) = (line rest).map (ts ++ .word s :: ·) := by
  refine ⟨_, shellQuote_eq s, ?_⟩
  rw [line, tokens_append_blank hbefore]
  simp [line, tokens, tokens_flatMap_quoted, tokens_some_of_endsWord hrest, Function.comp_def]

/-- `a'$` as the argument of `ls`, before a redirection. -/
theorem shellQuote_one_word_redirected :
    ∃ q, (∀ rounds > 3, shellQuote rounds ['a', '\'', '$'] = some q) ∧
      line (['l', 's'] ++ ' ' :: (q ++ ['>', 'f'])) =
        some [.word ['l', 's'], .word ['a', '\'', '$'], .operator '>', .word ['f']] :=
  shellQuote_one_word ['a', '\'', '$'] ['l', 's'] ['>', 'f'] [.word ['l', 's']] (by decide)
    (by simp [EndsWord, operators])

/-- **Behind its first word, the shell reads the command as the files and a redirection**, whatever
their names. -/
theorem usedtypesCommand_words (cmdArgs : List (List Char)) (src : List Char) :
    ∃ rest, (∀ rounds cmd, (∀ s ∈ src :: cmdArgs, s.length < rounds) →
        usedtypesCommand rounds cmd cmdArgs src = some (cmd ++ rest)) ∧
      ∀ w, tokens .none (some w) rest
        = some (.word w :: cmdArgs.map .word ++ [.operator '>', .word src]) := by
  induction cmdArgs with
  | nil =>
    refine ⟨' ' :: '>' :: ' ' :: '\'' :: (src.flatMap quoted ++ ['\'']), fun rounds cmd h => ?_,
      fun w => ?_⟩
    · simp [usedtypesCommand, shellQuote_eq src rounds (h src (.head _))]
    · simp [tokens, tokens_flatMap_quoted, ended, operators]
  | cons arg args ih =>
    obtain ⟨rest, hrest, htokens⟩ := ih
    refine ⟨' ' :: '\'' :: (arg.flatMap quoted ++ '\'' :: rest), fun rounds cmd h => ?_, fun w => ?_⟩
    · have hcmd := hrest rounds (cmd ++ ' ' :: '\'' :: (arg.flatMap quoted ++ ['\'']))
      simp_all [usedtypesCommand, shellQuote_eq arg rounds (h arg (.tail _ (.head _)))]
    · simp [tokens, tokens_flatMap_quoted, ended, htokens]

/-! ### The identifiers of an option -/

/-- The word has no blanks. -/
def NoBlank (w : List Char) : Prop := ∀ c ∈ w, isBlank c = false

theorem splitAtBlanks_append (hw : NoBlank w) (cur rest : List Char) :
    splitAtBlanks cur (w ++ rest) = splitAtBlanks (cur ++ w) rest := by
  induction w generalizing cur with
  | nil => simp
  | cons c w ih =>
    obtain ⟨hc, hw⟩ := List.forall_mem_cons.mp hw
    simp [splitAtBlanks, hc, ih hw]

theorem splitAtBlanks_blanks {bs : List Char} (hbs : bs.all isBlank = true) (rest : List Char) :
    splitAtBlanks [] (bs ++ rest) = splitAtBlanks [] rest := by
  induction bs with
  | nil => rfl
  | cons b bs ih => simp_all [splitAtBlanks]

theorem noBlank_of_mem_splitAtBlanks (hcur : NoBlank cur) (hw : w ∈ splitAtBlanks cur s) :
    NoBlank w := by
  induction s generalizing cur with
  | nil =>
    rw [splitAtBlanks] at hw
    split at hw <;> simp_all
  | cons c s ih =>
    rw [splitAtBlanks] at hw
    split at hw
    · rcases List.mem_append.mp hw with hw | hw
      · split at hw <;> simp_all
      · exact ih (by simp [NoBlank]) hw
    · refine ih ?_ hw
      simp_all [NoBlank, or_imp]

theorem of_isSeparator (h : isSeparator c = true) :
    isBlank c = false ∧ isIdentChar c = false := by
  have hc : c = ';' ∨ c = ',' := by simpa [isSeparator] using h
  obtain rfl | rfl := hc <;> decide

theorem isBlank_eq_false
    (h : isSeparator c = true ∨ c.isAlpha = true ∨ c ∈ ['(', ')', '-', '>']) : isBlank c = false := by
  have hc : c ≠ ' ' ∧ c ≠ '\t' := by
    constructor <;> rintro rfl <;> revert h <;> decide
  simp [isBlank, hc]

namespace Entry

variable (e : Entry)

/-- Blanks in an entry are in its identifier. -/
theorem noBlank_text (h : NoBlank e.ident) : NoBlank e.text := by
  have hbehind : NoBlank e.behindIdent := by
    intro c hc
    have h1 := e.separators c
    have h2 := e.letters c
    apply isBlank_eq_false
    simp only [behindIdent] at hc
    split at hc <;> simp at hc h1 h2 ⊢ <;> grind
  exact fun c hc => (List.mem_append.mp hc).elim (h c) (hbehind c)

theorem identOf_text : identOf e.text = some e.ident := by
  have hsep := of_isSeparator (e.separators e.sep₁ (by simp))
  simp [text, ident, behindIdent, identOf, e.ident_re.1, List.takeWhile_append_of_pos e.ident_re.2,
    hsep]

end Entry

theorem splitAtBlanks_behind (hcur : cur ≠ [])
    (hps : ∀ q ∈ ps, q.1 ≠ [] ∧ q.1.all isBlank = true) (hident : ∀ q ∈ ps, NoBlank q.2.ident) :
    splitAtBlanks cur (optionText ps) = cur :: ps.map (·.2.text) := by
  induction ps generalizing cur with
  | nil => simp [optionText, splitAtBlanks, hcur]
  | cons q ps ih =>
    rw [List.forall_mem_cons] at hps hident
    obtain ⟨bs, e⟩ := q
    obtain ⟨b, bs, rfl⟩ := List.exists_cons_of_ne_nil hps.1.1
    have htext := e.noBlank_text hident.1
    have hnext := ih (by simp [Entry.text, Entry.ident] : e.text ≠ []) hps.2 hident.2
    simp_all [optionText, splitAtBlanks, splitAtBlanks_blanks, splitAtBlanks_append htext]

theorem extractIdents_eq (h : IsOption ps) (hident : ∀ p ∈ ps, NoBlank p.2.ident) :
    extractIdents (optionText ps) = ps.map (·.2.ident) := by
  have hsplit : splitAtBlanks [] (optionText ps) = ps.map (·.2.text) := by
    cases ps with
    | nil => rfl
    | cons p ps =>
      rw [List.forall_mem_cons] at hident
      have hne : p.2.text ≠ [] := by simp [Entry.text, Entry.ident]
      have hnext := splitAtBlanks_behind hne h.2 hident.2
      simp_all [optionText, IsOption, splitAtBlanks_append (p.2.noBlank_text hident.1)]
  rw [extractIdents, hsplit, List.filterMap_map, List.filterMap_eq_map_iff_forall_eq_some.mpr]
  exact fun p _ => p.2.identOf_text

theorem noBlank_of_mem_extractIdents (h : w ∈ extractIdents s) : NoBlank w := by
  obtain ⟨t, ht, hw⟩ := List.mem_filterMap.mp h
  have hblank := noBlank_of_mem_splitAtBlanks (by simp [NoBlank]) ht
  cases t with
  | nil => cases hw
  | cons c cs =>
    simp only [identOf, Option.ite_none_right_eq_some, Option.some.injEq] at hw
    intro d hd
    rw [← hw.2] at hd
    exact hblank d (List.cons_subset_cons c (List.takeWhile_sublist _).subset hd)

/-! ### The symbols that are globalized -/

theorem length_splitFile {f : List Char} (h : splitFile w = some (f, s)) :
    f.length < w.length := by
  induction w generalizing f with
  | nil => cases h
  | cons c cs ih =>
    simp only [splitFile] at h
    split at h
    · rename_i f' s' hrest
      cases h
      simpa using ih hrest
    · split at h
      · cases h
        simp
      · cases h

/-- The identifiers are those of the entries, and the symbols of `F::S` are globalized and no others,
exactly when no identifier has a blank or the form `F::S`. -/
theorem option_symbols_iff (ps : List (List Char × Entry)) (h : IsOption ps) :
    (∀ w, w ∈ extractIdents (optionText ps) ↔ ∃ p ∈ ps, p.2.ident = w) ∧
      (∀ fname sym, isGlobalized (extractIdents (optionText ps)) fname sym = true ↔
        sym.isLocalDefined = true ∧ ∃ p ∈ ps, splitFile p.2.ident = some (fname, sym.name)) ↔
    ∀ p ∈ ps, NoBlank p.2.ident ∧ splitFile p.2.ident = none := by
  constructor
  · rintro ⟨hidents, hsyms⟩
    -- the pair of `F::S` has `F` only as another identifier of that form, which is shorter
    have hnone : ∀ n, ∀ p ∈ ps, p.2.ident.length = n → splitFile p.2.ident = none := by
      intro n
      induction n using Nat.strongRecOn with
      | ind n ih =>
        intro p hp hlen
        by_contra hsome
        obtain ⟨⟨f, s⟩, hfs⟩ := Option.ne_none_iff_exists'.mp hsome
        have hg := (hsyms f ⟨s, .func, .other, .loc⟩).mpr ⟨rfl, p, hp, hfs⟩
        simp only [isGlobalized, pairsOfInterest, Bool.and_eq_true, decide_eq_true_eq,
          List.mem_filterMap, Option.map_eq_some_iff] at hg
        obtain ⟨-, w, hw, m, hm, hpair⟩ := hg
        cases hpair
        obtain ⟨p', hp', rfl⟩ := (hidents _).mp hw
        simp [ih _ (hlen ▸ length_splitFile hfs) p' hp' rfl] at hm
    exact fun p hp => ⟨noBlank_of_mem_extractIdents ((hidents _).mpr ⟨p, hp, rfl⟩), hnone _ p hp rfl⟩
  · intro hps
    have heq := extractIdents_eq h fun p hp => (hps p hp).1
    refine ⟨by simp [heq], fun fname sym => ?_⟩
    have hpairs : pairsOfInterest (extractIdents (optionText ps)) = [] := by
      rw [pairsOfInterest, List.filterMap_eq_nil_iff, heq, List.forall_mem_map]
      exact fun p hp => by rw [(hps p hp).2, Option.map_none]
    simp only [isGlobalized, hpairs, List.not_mem_nil, decide_false, Bool.and_false,
      Bool.false_eq_true, false_iff]
    rintro ⟨-, p, hp, hfs⟩
    simp [(hps p hp).2] at hfs

/-- The option `ident;(Z);p`. -/
def sampleOption (first : Char) (others : List Char)
    (h : (isIdentStart first && others.all isIdentChar) = true) : List (List Char × Entry) :=
  [([], ⟨first, others, ';', 'Z', [], ';', false, some 'p', by simpa using h,
    by simp [isSeparator], by simp, by decide⟩)]

/-- The option `f;(Z);p  g:;(Z);p`. -/
def sampleTwo : List (List Char × Entry) :=
  sampleOption 'f' [] rfl ++ (sampleOption 'g' [':'] rfl).map fun p => ([' ', ' '], p.2)

theorem option_symbols_plain :
    (∀ w, w ∈ extractIdents (optionText sampleTwo) ↔ ∃ p ∈ sampleTwo, p.2.ident = w) ∧
      ∀ fname sym, isGlobalized (extractIdents (optionText sampleTwo)) fname sym = true ↔
        sym.isLocalDefined = true ∧ ∃ p ∈ sampleTwo, splitFile p.2.ident = some (fname, sym.name) :=
  (option_symbols_iff sampleTwo ⟨rfl, by decide⟩).mpr
    (by simp [NoBlank, sampleTwo, sampleOption, Entry.ident]; decide)

/-- `f g;(Z);p` gives the identifiers `f` and `g`, and `F::S;(Z);p` globalizes the symbol `F` of a file
`F::S`, not the symbol `S` of a file `F`. -/
theorem option_symbols_wrong :
    extractIdents (optionText (sampleOption 'f' [' ', 'g'] rfl)) = [['f'], ['g']] ∧
      let idents := extractIdents (optionText (sampleOption 'F' [':', ':', 'S'] rfl))
      idents = [['F', ':', ':', 'S']] ∧
        isGlobalized idents ['F'] ⟨['S'], .func, .other, .loc⟩ = false ∧
        isGlobalized idents ['F', ':', ':', 'S'] ⟨['F'], .func, .other, .loc⟩ = true := by
  decide

end Liballocs.GoldPlugin
