import ProcessChain.Keyword
import ProcessChain.Text.Blank

/-!
# Vocabularies and languages

A vocabulary gives every keyword its symbol. It can be read unambiguously when no symbol is blank
and no two keywords share one; `Vocabulary.flaw?` finds the first flaw otherwise, keyword by keyword
in the order of `Keyword.all`. A `Language` is a vocabulary without a flaw, and all reading of
annotated lines is done in a language.
-/

namespace ProcessChain

/-- A symbol for every keyword. -/
@[ext]
structure Vocabulary where
  symbol : Keyword → String

namespace Vocabulary

/-- The symbols in use unless others are given. -/
def standard : Vocabulary where
  symbol
    | .activity => "act:"
    | .event => "event:"
    | .branchStart => "if:"
    | .branchElse => "else:"
    | .branchEnd => "end:"
    | .database => "[=]"
    | .callIn => "<-"
    | .callOut => "->"
    | .regionStart => "inner-diagram:"
    | .regionEnd => "end-diagram:"
    | .innerFlow => "inner-flow:"
    | .subscribes => "subscribes:"
    | .publishes => "publishes:"

/-- The vocabulary in which one keyword has another symbol. -/
def replace (vocabulary : Vocabulary) (keyword : Keyword) (symbol : String) : Vocabulary where
  symbol other := if other = keyword then symbol else vocabulary.symbol other

/-- The vocabulary after several replacements, the last one of a keyword counting. -/
def replaceAll (vocabulary : Vocabulary) (replacements : List (Keyword × String)) : Vocabulary :=
  replacements.foldl (fun current (keyword, symbol) => current.replace keyword symbol) vocabulary

@[simp]
theorem symbol_replace (vocabulary : Vocabulary) (keyword other : Keyword) (symbol : String) :
    (vocabulary.replace keyword symbol).symbol other =
      if other = keyword then symbol else vocabulary.symbol other := rfl

/-- The keywords with their symbols, in the order of `Keyword.all`. -/
def entries (vocabulary : Vocabulary) : List (Keyword × String) :=
  Keyword.all.map fun keyword => (keyword, vocabulary.symbol keyword)

/-- Why a vocabulary cannot be read unambiguously. -/
inductive Flaw where
  /-- The symbol of the keyword is blank. -/
  | blank (keyword : Keyword)
  /-- Two keywords have the same symbol. -/
  | shared (keyword other : Keyword) (symbol : String)
deriving DecidableEq, Repr

/-- The flaw of one keyword's symbol: that it is blank, or else that another keyword has it too. -/
def flawOf (vocabulary : Vocabulary) (keyword : Keyword) : Option Flaw :=
  let symbol := vocabulary.symbol keyword
  if Text.trimmed symbol = "" then
    some (.blank keyword)
  else
    (Keyword.all.find? fun other => other ≠ keyword ∧ vocabulary.symbol other = symbol).map
      fun other => .shared keyword other symbol

/-- The flaw of the first keyword that has one. -/
def flaw? (vocabulary : Vocabulary) : Option Flaw :=
  Keyword.all.findSome? vocabulary.flawOf

/-- A vocabulary is flawless exactly when each of its keywords is. -/
theorem flaw?_eq_none_iff {vocabulary : Vocabulary} :
    vocabulary.flaw? = none ↔ ∀ keyword, vocabulary.flawOf keyword = none := by
  simp [flaw?]

/-- The wording of a flaw. -/
def Flaw.message : Flaw → String
  | .blank keyword => keyword.name ++ ": keyword symbol is empty"
  | .shared keyword other symbol =>
    keyword.name ++ " and " ++ other.name ++ " share the symbol \"" ++ symbol ++ "\""

end Vocabulary

/-- A vocabulary that can be read unambiguously. -/
structure Language extends Vocabulary where
  /-- No symbol is blank and no two keywords share one. -/
  flawless : toVocabulary.flaw? = none

namespace Language

/-- The language with the standard symbols. -/
def standard : Language where
  toVocabulary := .standard
  flawless := by decide +kernel

end Language

end ProcessChain
