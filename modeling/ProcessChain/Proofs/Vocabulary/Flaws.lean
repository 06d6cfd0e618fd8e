import Mathlib.Data.List.Induction
import Mathlib.Logic.Function.Defs
import ProcessChain.Fault
import ProcessChain.Proofs.Text.Trimming

/-!
# Flaws of a vocabulary

After replacements every keyword has the symbol that it was given last
(`Vocabulary.replaceAll_standard`). Whether a vocabulary can be read unambiguously, and what is
wrong with it otherwise, is said of its symbols alone: all are filled and distinct (`Unambiguous`),
or some keyword is the first with a blank symbol or with one that another keyword has too
(`HasFlaw`). The search through the keywords finds a flaw exactly in the second case, and that one
(`Vocabulary.flaw?_eq_none_iff_unambiguous`, `Vocabulary.flaw?_eq_some_iff`).
-/

namespace ProcessChain

/-- Of the keywords of which something holds, the first one in the order of `Keyword.all`. -/
def Keyword.IsFirst (holds : Keyword → Prop) (keyword : Keyword) : Prop :=
  ∃ before after, all = before ++ keyword :: after ∧ holds keyword ∧
    ∀ earlier ∈ before, ¬ holds earlier

namespace Vocabulary

/-- The vocabulary in which every keyword has the symbol of the last replacement for it, or else the
standard one. -/
def lastGiven (replacements : List (Keyword × String)) : Vocabulary where
  symbol keyword := (replacements.reverse.lookup keyword).getD (standard.symbol keyword)

/-- All characters of a symbol are blank. -/
def IsBlank (symbol : String) : Prop :=
  ∀ character ∈ symbol.toList, Text.isBlank character

/-- A keyword has its symbol in common with another one. -/
def Shares (vocabulary : Vocabulary) (keyword other : Keyword) : Prop :=
  other ≠ keyword ∧ vocabulary.symbol other = vocabulary.symbol keyword

/-- The symbol of a keyword is blank, or another keyword has it too. -/
def Flawed (vocabulary : Vocabulary) (keyword : Keyword) : Prop :=
  IsBlank (vocabulary.symbol keyword) ∨ ∃ other, vocabulary.Shares keyword other

/-- Every symbol has a character that is not blank, and no two keywords have the same symbol. -/
structure Unambiguous (vocabulary : Vocabulary) : Prop where
  filled : ∀ keyword, ∃ character ∈ (vocabulary.symbol keyword).toList, ¬ Text.isBlank character
  distinct : Function.Injective vocabulary.symbol

/-- What is wrong with the first keyword that has a flaw: that its symbol is blank, or else that it
shares the symbol with another keyword, of which the first is named. -/
inductive HasFlaw (vocabulary : Vocabulary) : Flaw → Prop where
  | blank {keyword : Keyword} (first : keyword.IsFirst vocabulary.Flawed)
      (isBlank : IsBlank (vocabulary.symbol keyword)) : HasFlaw vocabulary (.blank keyword)
  | shared {keyword other : Keyword} (first : keyword.IsFirst vocabulary.Flawed)
      (filled : ¬ IsBlank (vocabulary.symbol keyword))
      (shares : other.IsFirst (vocabulary.Shares keyword)) :
      HasFlaw vocabulary (.shared keyword other (vocabulary.symbol keyword))

variable {vocabulary : Vocabulary} {keyword : Keyword}

/-! ## Replacements -/

theorem symbol_replaceAll (vocabulary : Vocabulary) (replacements : List (Keyword × String))
    (keyword : Keyword) :
    (vocabulary.replaceAll replacements).symbol keyword =
      (replacements.reverse.lookup keyword).getD (vocabulary.symbol keyword) := by
  induction replacements using List.reverseRecOn with
  | nil => rfl
  | append_singleton before last ih =>
      have step : vocabulary.replaceAll (before ++ [last]) =
          (vocabulary.replaceAll before).replace last.1 last.2 := by
        simp [replaceAll]
      rw [step, symbol_replace, ih, List.reverse_concat, List.lookup_cons]
      by_cases same : keyword = last.1
      · rw [if_pos same, beq_iff_eq.2 same]
        rfl
      · rw [if_neg same, beq_eq_false_iff_ne.2 same]

/-- After replacements every keyword has the symbol that it was given last. -/
theorem replaceAll_standard (replacements : List (Keyword × String)) :
    standard.replaceAll replacements = lastGiven replacements :=
  Vocabulary.ext (funext (standard.symbol_replaceAll replacements))

/-! ## The flaw of a keyword -/

theorem trimmed_eq_empty_iff {symbol : String} : Text.trimmed symbol = "" ↔ IsBlank symbol := by
  rw [IsBlank, ← Text.trim_eq_nil_iff, ← Text.toList_trimmed, String.toList_eq_nil_iff]

theorem flawOf_of_isBlank (isBlank : IsBlank (vocabulary.symbol keyword)) :
    vocabulary.flawOf keyword = some (.blank keyword) :=
  if_pos (trimmed_eq_empty_iff.2 isBlank)

theorem flawOf_of_not_isBlank (filled : ¬ IsBlank (vocabulary.symbol keyword)) :
    vocabulary.flawOf keyword =
      (Keyword.all.find? fun other =>
        other ≠ keyword ∧ vocabulary.symbol other = vocabulary.symbol keyword).map
          fun other => .shared keyword other (vocabulary.symbol keyword) :=
  if_neg fun empty => filled (trimmed_eq_empty_iff.1 empty)

theorem flawOf_eq_none_iff : vocabulary.flawOf keyword = none ↔ ¬ vocabulary.Flawed keyword := by
  by_cases isBlank : IsBlank (vocabulary.symbol keyword)
  · rw [flawOf_of_isBlank isBlank]
    simp [Flawed, isBlank]
  · rw [flawOf_of_not_isBlank isBlank, Option.map_eq_none_iff, List.find?_eq_none]
    simp [Flawed, isBlank, Shares]

theorem find?_all_eq_some_iff {holds : Keyword → Prop} [DecidablePred holds] :
    Keyword.all.find? (fun keyword => holds keyword) = some keyword ↔ keyword.IsFirst holds := by
  rw [List.find?_eq_some_iff_append]
  constructor
  · rintro ⟨found, before, after, split, earlier⟩
    exact ⟨before, after, split, by simpa using found, by simpa using earlier⟩
  · rintro ⟨before, after, split, found, earlier⟩
    exact ⟨by simpa using found, before, after, split, by simpa using earlier⟩

theorem flawOf_eq_some_iff {flaw : Flaw} :
    vocabulary.flawOf keyword = some flaw ↔
      (IsBlank (vocabulary.symbol keyword) ∧ flaw = .blank keyword) ∨
        (¬ IsBlank (vocabulary.symbol keyword) ∧ ∃ other : Keyword,
          other.IsFirst (vocabulary.Shares keyword) ∧
            flaw = .shared keyword other (vocabulary.symbol keyword)) := by
  by_cases isBlank : IsBlank (vocabulary.symbol keyword)
  · rw [flawOf_of_isBlank isBlank]
    simp [isBlank, eq_comm]
  · rw [flawOf_of_not_isBlank isBlank, Option.map_eq_some_iff]
    simp only [find?_all_eq_some_iff, isBlank, false_and, not_false_eq_true, true_and, false_or]
    exact exists_congr fun other => and_congr_right fun _ => eq_comm

/-! ## The first flaw -/

theorem flaw?_eq_none_iff_unambiguous : vocabulary.flaw? = none ↔ vocabulary.Unambiguous := by
  rw [flaw?_eq_none_iff]
  simp only [flawOf_eq_none_iff, Flawed, not_or, not_exists]
  constructor
  · intro flawless
    constructor
    · intro keyword
      simpa [IsBlank] using (flawless keyword).1
    · intro keyword other same
      by_contra different
      exact (flawless other).2 keyword ⟨different, same⟩
  · rintro ⟨filled, distinct⟩ keyword
    constructor
    · rcases filled keyword with ⟨character, listed, visible⟩
      exact fun isBlank => visible (isBlank character listed)
    · rintro other ⟨different, same⟩
      exact different (distinct same)

/-- The flaw that is found is that of the first keyword with one. -/
theorem flaw?_eq_some_iff {flaw : Flaw} :
    vocabulary.flaw? = some flaw ↔ vocabulary.HasFlaw flaw := by
  rw [flaw?, List.findSome?_eq_some_iff]
  constructor
  · rintro ⟨before, keyword, after, split, found, earlier⟩
    have flawed : vocabulary.Flawed keyword := by
      by_contra flawless
      rw [flawOf_eq_none_iff.2 flawless] at found
      cases found
    have first : keyword.IsFirst vocabulary.Flawed :=
      ⟨before, after, split, flawed, fun other listed => flawOf_eq_none_iff.1 (earlier other listed)⟩
    rcases flawOf_eq_some_iff.1 found with ⟨isBlank, rfl⟩ | ⟨filled, other, shares, rfl⟩
    · exact .blank first isBlank
    · exact .shared first filled shares
  · intro hasFlaw
    cases hasFlaw with
    | blank first isBlank =>
        rcases first with ⟨before, after, split, _, earlier⟩
        exact ⟨before, _, after, split, flawOf_of_isBlank isBlank,
          fun other listed => flawOf_eq_none_iff.2 (earlier other listed)⟩
    | shared first filled shares =>
        rcases first with ⟨before, after, split, _, earlier⟩
        exact ⟨before, _, after, split, flawOf_eq_some_iff.2 (.inr ⟨filled, _, shares, rfl⟩),
          fun other listed => flawOf_eq_none_iff.2 (earlier other listed)⟩

end Vocabulary

namespace Language

variable {vocabulary : Vocabulary}

theorem unambiguous (language : Language) : language.Unambiguous :=
  Vocabulary.flaw?_eq_none_iff_unambiguous.1 language.flawless

/-- A language is made of its own vocabulary and of no other. -/
theorem ofVocabulary_eq_ok_iff {language : Language} :
    ofVocabulary vocabulary = .ok language ↔ language.toVocabulary = vocabulary := by
  unfold ofVocabulary
  split
  · next flawless =>
      constructor
      · intro same
        cases same
        rfl
      · rintro rfl
        rfl
  · next flaw found =>
      constructor
      · intro same
        cases same
      · rintro rfl
        rw [language.flawless] at found
        cases found

theorem ofVocabulary_eq_error_iff {fault : Fault} :
    ofVocabulary vocabulary = .error fault ↔
      ∃ flaw, vocabulary.flaw? = some flaw ∧ fault = .vocabulary flaw := by
  unfold ofVocabulary
  split
  · next flawless => simp [flawless]
  · next flaw found =>
      rw [Except.error.injEq]
      simp [found, eq_comm]

theorem exists_ofVocabulary_eq_ok_iff :
    (∃ language, ofVocabulary vocabulary = .ok language) ↔ vocabulary.flaw? = none := by
  simp only [ofVocabulary_eq_ok_iff]
  constructor
  · rintro ⟨language, rfl⟩
    exact language.flawless
  · intro flawless
    exact ⟨⟨vocabulary, flawless⟩, rfl⟩

end Language

end ProcessChain
