import ProcessChain.Proofs.Outcome
import ProcessChain.Proofs.Remark.Factoring

/-!
# Accepted vocabularies

Any replacements may be made in a vocabulary; only then is it looked at. It is accepted if it can be
read unambiguously, and its first flaw is the fault otherwise. Symbols of an accepted vocabulary may
begin with one another or lie inside one another. Still every keyword can be written: at its own
symbol no other symbol is as long, so that the symbol alone is read as the keyword with nothing
after it.
-/

namespace ProcessChain.Language

/-- A vocabulary made by replacements has the symbols given last. It is accepted exactly if these
are filled and distinct. Otherwise the fault is the flaw of the first keyword that has one. In an
accepted vocabulary every symbol is read as its keyword. -/
theorem ofVocabulary_replaceAll_and_remarks (replacements : List (Keyword × String)) :
    (∀ keyword, (Vocabulary.standard.replaceAll replacements).symbol keyword =
      (Vocabulary.lastGiven replacements).symbol keyword) ∧
      ((∃ language, ofVocabulary (Vocabulary.standard.replaceAll replacements) = .ok language) ↔
        (Vocabulary.lastGiven replacements).Unambiguous) ∧
      (∀ fault,
        ofVocabulary (Vocabulary.standard.replaceAll replacements) = .error fault ↔
          ∃ flaw, (Vocabulary.lastGiven replacements).HasFlaw flaw ∧ fault = .vocabulary flaw) ∧
      ∀ language, ofVocabulary (Vocabulary.standard.replaceAll replacements) = .ok language →
        ∀ keyword, language.remarks ((Vocabulary.lastGiven replacements).symbol keyword) =
          [⟨keyword, ""⟩] := by
  rw [Vocabulary.replaceAll_standard]
  refine ⟨fun _ => rfl, ?_, fun fault => ?_, ?_⟩
  · rw [exists_ofVocabulary_eq_ok_iff, Vocabulary.flaw?_eq_none_iff_unambiguous]
  · simp only [ofVocabulary_eq_error_iff, Vocabulary.flaw?_eq_some_iff]
  · intro language accepted keyword
    rw [← ofVocabulary_eq_ok_iff.1 accepted, remarks_symbol]

/-- Replacements after which one symbol begins and another one ends with a third. -/
def overlapping : List (Keyword × String) :=
  [(.event, "act:"), (.callIn, " "), (.event, "act:->"), (.callIn, "t:->")]

/-- Replacements that leave two pairs of keywords with a common symbol, and a later keyword with a
blank one. -/
def clashing : List (Keyword × String) :=
  [(.publishes, " "), (.branchEnd, "inner-flow:"), (.callOut, "event:"), (.callOut, "[=]")]

theorem remarks_overlapping_and_clashing :
    (Vocabulary.lastGiven overlapping).Unambiguous ∧
      (∃ language, ofVocabulary (Vocabulary.standard.replaceAll overlapping) = .ok language ∧
        language.remarks "act:->" = [⟨.event, ""⟩] ∧ language.remarks "act:" = [⟨.activity, ""⟩] ∧
          language.remarks "->" = [⟨.callOut, ""⟩]) ∧
      (Vocabulary.lastGiven clashing).HasFlaw (.shared .branchEnd .innerFlow "inner-flow:") := by
  rcases ofVocabulary_replaceAll_and_remarks overlapping with ⟨_, accepted_iff, _, read⟩
  have accepted :
      (ofVocabulary (Vocabulary.standard.replaceAll overlapping)).isOk := by
    decide +kernel
  rcases exists_eq_ok_of_isOk accepted with ⟨language, found⟩
  refine ⟨accepted_iff.1 ⟨language, found⟩, ⟨language, found, ?_, ?_, ?_⟩, ?_⟩
  · exact read language found .event
  · exact read language found .activity
  · exact read language found .callOut
  · have refused : ofVocabulary (Vocabulary.standard.replaceAll clashing) =
        .error (.vocabulary (.shared .branchEnd .innerFlow "inner-flow:")) :=
      ofVocabulary_eq_error_iff.2 ⟨_, by decide +kernel, rfl⟩
    rcases ((ofVocabulary_replaceAll_and_remarks clashing).2.2.1 _).1 refused with
      ⟨flaw, hasFlaw, same⟩
    cases same
    exact hasFlaw

end ProcessChain.Language
