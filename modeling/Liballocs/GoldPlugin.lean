/-
The linker plugin of `tools/gold-plugin.cpp`: the quoting of the words of a shell command, and the
options that name allocation functions.

An option is a list of entries with blanks between them, each an identifier and a signature.  The
regular expressions are modelled by what they match; the loops that split an option are as they are.
-/
import Mathlib.Data.List.Basic

namespace Liballocs.GoldPlugin

/-- What a single quote is replaced by. -/
def replacement : List Char := ['\'', '"', '\'', '"', '\'']

/-- The loop of `shell_quote` with `i_pos` at `pos`, for so many rounds; `none` when they do not
suffice, or behind the end. -/
def shellQuoteLoop : Nat → List Char → Nat → Option (List Char)
  | 0, _, _ => none
  | rounds + 1, copy, pos =>
    if pos = copy.length then some copy
    else
      match copy[pos]? with
      | none => none
      | some c =>
        if c = '\'' then
          let erased := copy.eraseIdx pos
          shellQuoteLoop rounds (erased.take pos ++ replacement ++ erased.drop pos)
            (pos + replacement.length)
        else shellQuoteLoop rounds copy (pos + 1)

/-- `shell_quote`. -/
def shellQuote (rounds : Nat) (s : List Char) : Option (List Char) :=
  (shellQuoteLoop rounds s 0).map fun copy => '\'' :: (copy ++ ['\''])

/-- The command with which `all_symbols_read` runs `usedtypes`, from its first word on. -/
def usedtypesCommand (rounds : Nat) (cmd : List Char) (cmdArgs : List (List Char))
    (src : List Char) : Option (List Char) := do
  let cmd ← cmdArgs.foldlM (fun cmd arg => return cmd ++ ' ' :: (← shellQuote rounds arg)) cmd
  return cmd ++ [' ', '>', ' '] ++ (← shellQuote rounds src)

/-! ### The options -/

/-- A blank. -/
def isBlank (c : Char) : Bool := c = ' ' || c = '\t'

/-- A separator of entries. -/
def isSeparator (c : Char) : Bool := c = ';' || c = ','

/-- What a function name begins with. -/
def isIdentStart (c : Char) : Bool := c.isAlpha || c = '_'

/-- What a function name goes on with. -/
def isIdentChar (c : Char) : Bool := c.isAlphanum || c = '_' || isBlank c || c = ':'

/-- A match of `one_entry_re`: of `ident_re`, `tuple_re` and `suffix_re`, with separators. -/
structure Entry where
  first : Char
  others : List Char
  sep₁ : Char
  param : Char
  params : List (Char × Char)
  sep₂ : Char
  arrow : Bool
  suffix : Option Char
  ident_re : isIdentStart first = true ∧ ∀ c ∈ others, isIdentChar c = true
  separators : ∀ c ∈ sep₁ :: sep₂ :: params.map Prod.fst, isSeparator c = true
  letters : ∀ c ∈ param :: params.map Prod.snd ++ suffix.toList, c.isAlpha = true
  suffix_re : arrow = true → suffix.isSome = true

namespace Entry

variable (e : Entry)

/-- The function name of an entry. -/
def ident : List Char := e.first :: e.others

/-- The signature that follows the name. -/
def behindIdent : List Char :=
  e.sep₁ :: '(' :: e.param :: (e.params.flatMap fun p => [p.1, p.2]) ++
    ')' :: e.sep₂ :: (if e.arrow then ['-', '>'] else []) ++ e.suffix.toList

/-- An entry as it is written in the option. -/
def text : List Char := e.ident ++ e.behindIdent

end Entry

/-- A match of `whole_var_re`, as `check_and_rewrite` wants: entries, with the blanks before. -/
def IsOption : List (List Char × Entry) → Prop
  | [] => True
  | p :: ps => p.1 = [] ∧ ∀ q ∈ ps, q.1 ≠ [] ∧ q.1.all isBlank = true

/-- The text of an option: its entries, each with what separates it from the one before. -/
def optionText (ps : List (List Char × Entry)) : List Char := ps.flatMap fun p => p.1 ++ p.2.text

/-- What is between the matches of `ws_re`, behind `cur`, without empty strings. -/
def splitAtBlanks : List Char → List Char → List (List Char)
  | cur, [] => if cur = [] then [] else [cur]
  | cur, c :: cs =>
    if isBlank c then (if cur = [] then [] else [cur]) ++ splitAtBlanks [] cs
    else splitAtBlanks (cur ++ [c]) cs

/-- The match of `ident_re` at the begin of an entry. -/
def identOf : List Char → Option (List Char)
  | [] => none
  | c :: cs => if isIdentStart c then some (c :: cs.takeWhile isIdentChar) else none

/-- `extract_idents`. -/
def extractIdents (s : List Char) : List (List Char) := (splitAtBlanks [] s).filterMap identOf

/-- The groups of `(.*)::(.*)`. -/
def splitFile : List Char → Option (List Char × List Char)
  | [] => none
  | c :: cs =>
    match splitFile cs with
    | some (f, s) => some (c :: f, s)
    | none => if c = ':' ∧ cs.head? = some ':' then some ([], cs.tail) else none

/-- `file_and_local_symname_pairs_of_interest`: `m[0]` is the whole match. -/
def pairsOfInterest (idents : List (List Char)) : List (List Char × List Char) :=
  idents.filterMap fun w => (splitFile w).map fun m => (w, m.1)

/-- The types of a symbol that are told apart. -/
inductive SymbolType
  | object | func | other
deriving DecidableEq

/-- The section indices of a symbol that are told apart. -/
inductive SectionIndex
  | undef | abs | other
deriving DecidableEq

/-- The bindings of a symbol that are told apart. -/
inductive Binding
  | loc | other
deriving DecidableEq

/-- What is looked at of an `ElfW(Sym)`, with its name. -/
structure Symbol where
  name : List Char
  type : SymbolType
  shndx : SectionIndex
  bind : Binding

/-- A local function or object that is defined. -/
def Symbol.isLocalDefined (sym : Symbol) : Bool :=
  (sym.type = .object || sym.type = .func) && (sym.shndx ≠ .undef && sym.shndx ≠ .abs)
    && sym.bind = .loc

/-- Whether a symbol of an input file is globalized. -/
def isGlobalized (idents : List (List Char)) (fname : List Char) (sym : Symbol) : Bool :=
  sym.isLocalDefined && (fname, sym.name) ∈ pairsOfInterest idents

end Liballocs.GoldPlugin
