/-
How a shell reads a command line: its words, with the quotes removed, and the operators between them.

Only what is the same in every shell is modelled: blanks, both kinds of quotes and the characters that
are operators.  A line in which anything else may happen to a character (an escape, an expansion, a
pattern, a comment) has no tokens here, so what is proved of the tokens of a line rests on none of it.
-/
import Mathlib.Data.List.Basic

namespace Shell

/-- A token of a command line. -/
inductive Token
  | word (w : List Char)
  | operator (c : Char)
deriving DecidableEq

/-- Whether a character stands in quotes. -/
inductive Quoting
  | none | single | double
deriving DecidableEq

/-- The characters that are operators by themselves or in pairs. -/
def operators : List Char := ['\n', ';', '&', '|', '<', '>', '(', ')']

/-- The characters that stand for more than themselves between double quotes. -/
def expanding : List Char := ['\\', '$', '\x60']

/-- The word that has been read so far, if one has begun. -/
def ended (cur : Option (List Char)) : List Token := (cur.map Token.word).toList

/-- The tokens of a line behind `cur`; `none` for an open quote, and for a character that stands for
an escape, an expansion, a pattern or a comment, which are not modelled. -/
def tokens : Quoting → Option (List Char) → List Char → Option (List Token)
  | .none, cur, [] => some (ended cur)
  | _, _, [] => none
  | .none, cur, c :: cs =>
    if c = '\'' then tokens .single (some (cur.getD [])) cs
    else if c = '"' then tokens .double (some (cur.getD [])) cs
    else if c = ' ' ∨ c = '\t' then (tokens .none none cs).map (ended cur ++ ·)
    else if c ∈ operators then (tokens .none none cs).map (ended cur ++ .operator c :: ·)
    else if c ∈ expanding ++ ['*', '?', '[', '~', '#'] then none
    else tokens .none (some (cur.getD [] ++ [c])) cs
  | .single, cur, c :: cs =>
    if c = '\'' then tokens .none cur cs else tokens .single (cur.map (· ++ [c])) cs
  | .double, cur, c :: cs =>
    if c = '"' then tokens .none cur cs
    else if c ∈ expanding then none
    else tokens .double (cur.map (· ++ [c])) cs

/-- The tokens of a whole line. -/
def line (cs : List Char) : Option (List Token) := tokens .none none cs

/-- Whether what follows a word ends it. -/
def EndsWord (rest : List Char) : Prop :=
  ∀ c ∈ rest.head?, c = ' ' ∨ c = '\t' ∨ c ∈ operators

/-- A line goes on behind a blank as if it began there. -/
theorem tokens_append_blank {q : Quoting} {cur : Option (List Char)} {cs rest : List Char}
    {ts : List Token} (h : tokens q cur cs = some ts) :
    tokens q cur (cs ++ ' ' :: rest) = (line rest).map (ts ++ ·) := by
  fun_induction tokens q cur cs generalizing ts with
  | case1 cur =>
    cases h
    simp [tokens, line]
  | case2 => cases h
  | case3 => simp_all [tokens]
  | case4 => simp_all [tokens]
  | case5 cur c cs h1 h2 h3 ih =>
    obtain ⟨us, hus, rfl⟩ := Option.map_eq_some_iff.mp h
    simp [tokens, h1, h2, h3, ih hus, Function.comp_def]
  | case6 cur c cs h1 h2 h3 h4 ih =>
    obtain ⟨us, hus, rfl⟩ := Option.map_eq_some_iff.mp h
    simp [tokens, h1, h2, h3, h4, ih hus, Function.comp_def]
  | case7 => cases h
  | _ => simp_all [tokens]

theorem tokens_some_of_endsWord {w rest : List Char} (h : EndsWord rest) :
    tokens .none (some w) rest = (line rest).map (.word w :: ·) := by
  cases rest with
  | nil => simp [line, tokens, ended]
  | cons c cs =>
    have hc := h c rfl
    have h1 : c ≠ '\'' := by
      rintro rfl
      revert hc
      decide
    have h2 : c ≠ '"' := by
      rintro rfl
      revert hc
      decide
    by_cases h3 : c = ' ' ∨ c = '\t'
    · simp [line, tokens, ended, h1, h2, h3]
    · have h4 : c ∈ operators := by tauto
      simp [line, tokens, ended, h1, h2, h3, h4, Function.comp_def]

end Shell
