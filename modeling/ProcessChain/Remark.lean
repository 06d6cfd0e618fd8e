import ProcessChain.Text.Items
import ProcessChain.Vocabulary

/-!
# Remarks of an annotated line

A line is read from left to right. At each position the longest symbol that the text goes on with
takes its characters; what lies between one symbol and the next is the payload of the first, and
what lies before the first symbol is free text. `Language.factor` is this cut of a text with nothing
lost, and `Language.remarks` keeps the keywords with their trimmed payloads. Since a symbol takes
its text before the scan goes on, remarks never overlap: of `<->` only `<-` is found.
-/

namespace ProcessChain

/-- A keyword with the payload that follows its symbol. -/
structure Remark where
  keyword : Keyword
  /-- The text up to the next symbol, trimmed. -/
  payload : String
deriving DecidableEq, Repr

/-- The remarks of one line, in the order of their symbols. -/
abbrev Remarks := List Remark

namespace Remarks

/-- Whether some remark has this keyword. -/
def has (remarks : Remarks) (keyword : Keyword) : Bool :=
  remarks.any (·.keyword = keyword)

/-- The payload of the first remark with this keyword. -/
def payload? (remarks : Remarks) (keyword : Keyword) : Option String :=
  (remarks.find? (·.keyword = keyword)).map (·.payload)

/-- The payload of the first remark with this keyword, unless it is empty. -/
def filledPayload? (remarks : Remarks) (keyword : Keyword) : Option String :=
  (remarks.payload? keyword).filter (· ≠ "")

/-- The comma list in the first remark with this keyword. -/
def items? (remarks : Remarks) (keyword : Keyword) : Option (List String) :=
  (remarks.payload? keyword).map Text.itemStrings

/-- The comma list in the first remark with this keyword, empty if there is no such remark. -/
def items (remarks : Remarks) (keyword : Keyword) : List String :=
  (remarks.items? keyword).getD []

end Remarks

/-- A text cut at the symbols in it. -/
structure Factoring where
  /-- The text before the first symbol. -/
  lead : List Char
  /-- The keyword of each symbol with the text from there to the next symbol. -/
  parts : List (Keyword × List Char)
deriving DecidableEq, Repr

namespace Language

/-- The symbol of a keyword, character by character. -/
def letters (language : Language) (keyword : Keyword) : List Char :=
  (language.symbol keyword).toList

/-- The keyword with the longest symbol among those that a text starts with. -/
def keywordAt? (language : Language) (text : List Char) : Option Keyword :=
  (Keyword.all.filter fun keyword => (language.letters keyword).isPrefixOf text).maxOn?
    fun keyword => (language.letters keyword).length

/-- A text cut at its symbols, where the first `taken` characters belong to a symbol already
found. -/
def factorFrom (language : Language) : (taken : Nat) → List Char → Factoring
  | _, [] => ⟨[], []⟩
  | taken + 1, _ :: rest => language.factorFrom taken rest
  | 0, character :: rest =>
    match language.keywordAt? (character :: rest) with
    | some keyword =>
      let after := language.factorFrom ((language.letters keyword).length - 1) rest
      ⟨[], (keyword, after.lead) :: after.parts⟩
    | none =>
      let after := language.factorFrom 0 rest
      ⟨character :: after.lead, after.parts⟩

/-- A text cut at its symbols. -/
def factor (language : Language) (text : List Char) : Factoring :=
  language.factorFrom 0 text

/-- The remarks in a text. -/
def remarks (language : Language) (text : String) : Remarks :=
  (language.factor text.toList).parts.map fun (keyword, payload) =>
    ⟨keyword, String.ofList (Text.trim payload)⟩

end Language

end ProcessChain
